import TruthTrees.Proofs.Tree.Links
import TruthTrees.Proofs.Tree.Outcomes

/-! Links stay sound when a line is checkmarked, loses what it rests on or is made to rest on
another line. Each of these changes is described line by line first. -/
namespace TruthTrees.Tree

section Lines

variable {t : Tree}

theorem line_modifyLine_of_lt {i : Nat} (hi : i < t.lines.size) (f : Line → Line) (j : Nat) :
    (t.modifyLine i f).line j = if j = i then f (t.line j) else t.line j := by
  rw [line_modifyLine]
  by_cases hj : j = i
  · rw [if_pos ⟨hj, hj ▸ hi⟩, if_pos hj]
  · rw [if_neg (fun hc => hj hc.1), if_neg hj]

theorem line_modifyLines_of_lt {ids : List Nat} (h : ∀ k ∈ ids, k < t.lines.size)
    (f : Line → Line) (j : Nat) :
    (t.modifyLines ids f).line j = if j ∈ ids then f (t.line j) else t.line j := by
  rw [line_modifyLines]
  by_cases hj : j ∈ ids
  · rw [if_pos ⟨hj, h j hj⟩, if_pos hj]
  · rw [if_neg (fun hc => hj hc.1), if_neg hj]

/-- Validity changes only on the lines that rest on the given one. -/
theorem line_setDependentsValid {i : Nat} (h : ∀ k ∈ t.dependents i, k < t.lines.size) (b : Bool)
    (j : Nat) : (t.setDependentsValid i b).line j =
      { t.line j with valid := if j ∈ t.dependents i then b else (t.line j).valid } := by
  unfold setDependentsValid
  rw [line_modifyLines_of_lt h]
  split <;> rfl

theorem line_removeChild {p : Nat} (hp : p < t.lines.size) (c j : Nat) :
    (t.removeChild p c).line j =
      { t.line j with children := if j = p then (t.line j).children.filter (· ≠ c)
          else (t.line j).children } := by
  unfold removeChild
  rw [line_modifyLine_of_lt hp]
  split <;> rfl

theorem line_placeChild {p : Nat} (hp : p < t.lines.size) (c j : Nat) :
    (t.placeChild p c).line j =
      { t.line j with children := if j = p then t.lines.place c (t.line j).children
          else (t.line j).children } := by
  unfold placeChild
  rw [line_modifyLine_of_lt hp]
  split <;> rfl

/-- A checkmark is written on the line and noted on each of its children. -/
theorem line_setCheckmarked {i : Nat} (hi : i < t.lines.size)
    (h : ∀ c ∈ (t.line i).children, c < t.lines.size) (b : Bool) (j : Nat) :
    (t.setCheckmarked i b).line j =
      { t.line j with
        checkmarked := if j = i then b else (t.line j).checkmarked
        parentCheckmarked := if j ∈ (t.line i).children then b
          else (t.line j).parentCheckmarked } := by
  have hchildren : ((t.modifyLine i (fun l => { l with checkmarked := b })).line i).children =
      (t.line i).children := by
    rw [line_modifyLine_of_lt hi, if_pos rfl]
  unfold setCheckmarked
  dsimp only
  rw [hchildren, line_modifyLines_of_lt, line_modifyLine_of_lt hi]
  · by_cases hc : j ∈ (t.line i).children
    · rw [if_pos hc, if_pos hc]
      by_cases hj : j = i
      · rw [if_pos hj, if_pos hj]
      · rw [if_neg hj, if_neg hj]
    · rw [if_neg hc, if_neg hc]
      by_cases hj : j = i
      · rw [if_pos hj, if_pos hj]
      · rw [if_neg hj, if_neg hj]
  · intro k hk
    rw [lines_modifyLine, Register.size_modify]
    exact h k hk

end Lines

/-- Setting a checkmark keeps the links in step. -/
theorem Linked.setCheckmarked {t : Tree} (h : Linked t) {i : Nat} (hi : t.lines.isLive i = true)
    (b : Bool) : Linked (t.setCheckmarked i b) := by
  have hline := line_setCheckmarked (Register.lt_size_of_isLive hi)
    (fun c hc => h.lt_size_of_mem_children hi hc) b
  have hr : Relinked t (t.setCheckmarked i b) := (Relinked.refl t).setCheckmarked i b
  have hsupport : (t.setCheckmarked i b).support = t.support := by
    funext j
    unfold support
    rw [hline]
  have hlisted : Listed (t.setCheckmarked i b) :=
    h.toListed.congr hr.display hsupport (fun j => by rw [hline])
  refine { hlisted with valid := ?_, marked := ?_ }
  · intro j hj
    rw [hr.isLive] at hj
    rw [hline, hsupport]
    exact h.valid j hj
  · intro j hj
    rw [hr.isLive] at hj
    rw [hsupport]
    simp only [hline]
    cases hs : t.support j with
    | line p =>
      have hmem : j ∈ (t.line i).children ↔ p = i := by
        rw [h.mem_children_iff hi, hs]
        simp [hj]
      rw [h.mirrored j p hj hs]
      simp only [hmem, Justification.parent?, Option.any_some]
    | missing =>
      have hmem : j ∉ (t.line i).children := by
        rw [h.mem_children_iff hi, hs]
        simp
      rw [if_neg hmem, h.marked j hj, hs]
      rfl
    | premise =>
      have hmem : j ∉ (t.line i).children := by
        rw [h.mem_children_iff hi, hs]
        simp
      rw [if_neg hmem, h.marked j hj, hs]
      rfl

/-- Severing a line takes it out of the children of the line it rests on, and validity from it and
from all that rests on it. -/
theorem line_sever {t : Tree} (h : Linked t) {c q : Nat} (hc : t.lines.isLive c = true)
    (hq : t.support c = .line q) (j : Nat) : (t.sever c).line j =
      { t.line j with
        justification := if j = c then .missing else (t.line j).justification
        children := if j = q then (t.line j).children.filter (· ≠ c) else (t.line j).children
        parentCheckmarked := if j = c then false else (t.line j).parentCheckmarked
        valid := if j = c ∨ j ∈ t.dependents c then false else (t.line j).valid } := by
  have hqlt := Register.lt_size_of_isLive (h.parent_live c q hc hq)
  have hclt := Register.lt_size_of_isLive hc
  have hdeps := fun k (hk : k ∈ t.dependents c) => h.lt_size_of_mem_dependents hc hk
  have hvalid : ((t.removeChild q c).line q).valid = (t.line q).valid := by
    rw [line_removeChild hqlt]
  unfold sever
  rw [show (t.line c).justification = _ from hq]
  dsimp only
  rw [hvalid]
  cases hv : (t.line q).valid with
  | true =>
    rw [if_pos rfl]
    set u := (t.removeChild q c).modifyLine c (fun l => { l with valid := false }) with hu
    have hsize : u.lines.size = t.lines.size := by simp [hu, removeChild]
    have hline : ∀ k, u.line k = { t.line k with
        children := if k = q then (t.line k).children.filter (· ≠ c) else (t.line k).children
        valid := if k = c then false else (t.line k).valid } := by
      intro k
      rw [hu, line_modifyLine_of_lt (by simpa [removeChild] using hclt), line_removeChild hqlt]
      split <;> rfl
    have hdep : u.dependents c = t.dependents c := by
      apply dependents_congr hsize
      intro k hk
      rw [hline, if_neg (h.ne_of_listedBelow hc hq hk)]
    rw [line_modifyLine_of_lt, line_setDependentsValid, hdep, hline]
    · by_cases hjc : j = c
      · simp [hjc]
      · simp [hjc]
    · rw [hdep, hsize]
      exact hdeps
    · rw [((Relinked.refl u).setDependentsValid c false).size, hsize]
      exact hclt
  | false =>
    have hcv : (t.line c).valid = false := (h.valid_eq_of_support hc hq).trans hv
    have hdv : ∀ k ∈ t.dependents c, (t.line k).valid = false := fun k hk =>
      (h.valid_of_mem_dependents hc hk).trans hcv
    have hvj : (if j = c ∨ j ∈ t.dependents c then false else (t.line j).valid) =
        (t.line j).valid := by
      split
      · rename_i hj
        rcases hj with rfl | hj
        · exact hcv.symm
        · exact (hdv j hj).symm
      · rfl
    rw [if_neg (by simp), line_modifyLine_of_lt (by simpa [removeChild] using hclt),
      line_removeChild hqlt, hvj]
    by_cases hjc : j = c
    · simp [hjc]
    · simp [hjc]

theorem sever_of_not_line {t : Tree} {c : Nat} (h : ∀ q, t.support c ≠ .line q) :
    t.sever c = t := by
  unfold sever
  split
  · rename_i q hq
    exact absurd hq (h q)
  · rfl

/-- A line that is cut off is the only one to lose its justification. -/
theorem support_sever {t : Tree} (h : Linked t) {c : Nat} (hc : t.lines.isLive c = true)
    (hp : t.support c ≠ .premise) (j : Nat) :
    (t.sever c).support j = if j = c then .missing else t.support j := by
  cases hs : t.support c with
  | premise => exact absurd hs hp
  | missing =>
    rw [sever_of_not_line (by simp [hs])]
    split
    · rename_i hj
      rw [hj, hs]
    · rfl
  | line q =>
    unfold support
    rw [line_sever h hc hs]

/-- A line that is cut off leaves the links in step. -/
theorem Linked.sever {t : Tree} (h : Linked t) {c : Nat} (hc : t.lines.isLive c = true) :
    Linked (t.sever c) := by
  by_cases hs : ∃ q, t.support c = .line q
  swap
  · rw [sever_of_not_line (fun q hq => hs ⟨q, hq⟩)]
    exact h
  obtain ⟨q, hq⟩ := hs
  have hline := line_sever h hc hq
  have hr : Relinked t (t.sever c) := (Relinked.refl t).sever c
  have hsupport : ∀ j, (t.sever c).support j = if j = c then .missing else t.support j :=
    support_sever h hc (by simp [hq])
  refine
    { ordered := h.ordered.congr hr.display
      parent := ?_
      children := ?_
      valid := ?_
      marked := ?_ }
  · intro k p hk hp
    rw [hr.isLive] at hk
    rw [hsupport] at hp
    unfold Before
    rw [hr.order]
    by_cases hkc : k = c
    · simp [hkc] at hp
    · exact h.parent k p hk (by simpa [hkc] using hp)
  · intro k hk
    rw [hr.isLive] at hk
    rw [hline, hr.order]
    by_cases hkq : k = q
    · subst hkq
      rw [if_pos rfl, h.children k hk, List.filter_filter]
      apply List.filter_congr
      intro m _
      by_cases hmc : m = c
      · simp [hsupport, hmc]
      · simp [hsupport, hmc]
    · rw [if_neg hkq, h.children k hk]
      apply List.filter_congr
      intro m _
      by_cases hmc : m = c
      · simp [hsupport, hmc, hq, Ne.symm hkq]
      · simp [hsupport, hmc]
  · intro k hk
    rw [hr.isLive] at hk
    -- Exactly the chains that meet the line lose their premise.
    have hgrounded : Grounded (t.sever c).support k ↔
        Grounded t.support k ∧ ¬ Grounded.Meets t.support (· = c) k := by
      apply Grounded.iff_of_missing
      · intro m hm
        rw [hsupport, if_neg hm]
      · intro m hm
        rw [hsupport, if_pos hm]
    rw [hgrounded, h.meets_iff hc hk, hline, ← h.valid k hk]
    by_cases hkc : k = c ∨ k ∈ t.dependents c <;> simp [hkc]
  · intro k hk
    rw [hr.isLive] at hk
    rw [hsupport]
    simp only [hline]
    by_cases hkc : k = c
    · simp [hkc, Justification.parent?]
    · simp only [if_neg hkc]
      exact h.marked k hk

/-- Making a line valid, and all that rests on it, if it rests on a premise. -/
theorem line_revalidate {t : Tree} (h : Threaded t) {i : Nat} (hi : t.lines.isLive i = true)
    (j : Nat) : (t.revalidate i).line j =
      { t.line j with valid := if j = i then t.restsOnPremise i
          else if t.restsOnPremise i ∧ j ∈ t.dependents i then true else (t.line j).valid } := by
  have hlt := Register.lt_size_of_isLive hi
  set u := t.modifyLine i (fun l => { l with valid := t.restsOnPremise i }) with hu
  have hline : ∀ k, u.line k =
      { t.line k with valid := if k = i then t.restsOnPremise i else (t.line k).valid } := by
    intro k
    rw [hu, line_modifyLine_of_lt hlt]
    split <;> rfl
  have hsize : u.lines.size = t.lines.size := Register.size_modify _ _ _
  have hdep : u.dependents i = t.dependents i :=
    dependents_congr hsize (fun k _ => by rw [hline])
  unfold revalidate
  dsimp only
  rw [← hu]
  cases hv : t.restsOnPremise i with
  | true =>
    rw [if_pos rfl, line_setDependentsValid, hdep, hline]
    · by_cases hji : j = i
      · simp [hji, h.not_mem_dependents hi, hv]
      · by_cases hjd : j ∈ t.dependents i <;> simp [hji, hjd]
    · rw [hdep, hsize]
      exact fun k hk => h.lt_size_of_mem_dependents hi hk
  | false =>
    rw [if_neg (by simp), hline]
    simp [hv]

theorem line_hook {t : Tree} {p c : Nat} (hp : p < t.lines.size) (hc : c < t.lines.size)
    (j : Nat) : (t.hook p c).line j =
      { t.line j with
        justification := if j = c then .line p else (t.line j).justification
        children := if j = p then t.lines.place c (t.line j).children else (t.line j).children
        parentCheckmarked := if j = c then (t.line p).checkmarked
          else (t.line j).parentCheckmarked } := by
  have hmark : ((t.placeChild p c).line p).checkmarked = (t.line p).checkmarked := by
    rw [line_placeChild hp]
  unfold hook
  rw [hmark, line_modifyLine_of_lt (by simpa [placeChild] using hc), line_placeChild hp]
  by_cases hj : j = c
  · rw [if_pos hj, if_pos hj, if_pos hj]
  · rw [if_neg hj, if_neg hj, if_neg hj]

theorem Relinked.hook {t t' : Tree} (h : Relinked t t') (p c : Nat) : Relinked t (t'.hook p c) := by
  apply Relinked.modifyLine
  · exact h.placeChild p c
  · exact fun _ => ⟨rfl, rfl, rfl⟩

/-- Only the hooked line has a new justification. -/
theorem support_hook {t : Tree} {p c : Nat} (hp : p < t.lines.size) (hc : c < t.lines.size)
    (j : Nat) : (t.hook p c).support j = if j = c then .line p else t.support j := by
  unfold support
  rw [line_hook hp hc]

theorem support_revalidate {t : Tree} (h : Threaded t) {i : Nat} (hi : t.lines.isLive i = true) :
    (t.revalidate i).support = t.support := by
  funext j
  unfold support
  rw [line_revalidate h hi]

section Hook

variable {t : Tree} {p c : Nat}

/-- A line without a justification can be hooked to any line before it. -/
theorem Listed.hook (h : Listed t) (hbefore : t.Before p c) (hmissing : t.support c = .missing) :
    Listed (t.hook p c) := by
  have hplive := hbefore.left_live h.ordered
  have hclive := hbefore.right_live h.ordered
  have hplt := Register.lt_size_of_isLive hplive
  have hclt := Register.lt_size_of_isLive hclive
  have hsupport := support_hook hplt hclt
  have hr : Relinked t (t.hook p c) := (Relinked.refl t).hook p c
  refine { ordered := h.ordered.congr hr.display, parent := ?_, children := ?_ }
  · intro k q hk hq
    rw [hr.isLive] at hk
    rw [hsupport] at hq
    unfold Before
    rw [hr.order]
    by_cases hkc : k = c
    · rw [if_pos hkc] at hq
      cases hq
      rw [hkc]
      exact hbefore
    · rw [if_neg hkc] at hq
      exact h.parent k q hk hq
  · intro k hk
    rw [hr.isLive] at hk
    rw [line_hook hplt hclt, hr.order]
    by_cases hkp : k = p
    · subst hkp
      rw [if_pos rfl, h.children k hk]
      apply h.ordered.place_filter hclive
      · simp [hmissing]
      · simp [hsupport]
      · intro m _ hm
        simp [hsupport, hm]
    · rw [if_neg hkp, h.children k hk]
      apply List.filter_congr
      intro m _
      by_cases hmc : m = c
      · simp [hsupport, hmc, hmissing, Ne.symm hkp]
      · simp [hsupport, hmc]

/-- The line is valid if its new chain ends in a premise. All below it, which was not valid before,
is valid together with it, and the chains of other lines do not meet it. -/
theorem Linked.valid_hook_revalidate (h : Linked t) (hbefore : t.Before p c)
    (hmissing : t.support c = .missing) {k : Nat} (hk : t.lines.isLive k = true) :
    (((t.hook p c).revalidate c).line k).valid = true ↔ Grounded (t.hook p c).support k := by
  have hclive := hbefore.right_live h.ordered
  have hplt := Register.lt_size_of_isLive (hbefore.left_live h.ordered)
  have hclt := Register.lt_size_of_isLive hclive
  have hsupport := support_hook hplt hclt
  have hlisted : Listed (t.hook p c) := h.toListed.hook hbefore hmissing
  have hvalid : ((t.hook p c).line k).valid = (t.line k).valid := by rw [line_hook hplt hclt]
  have hr : Relinked t (t.hook p c) := (Relinked.refl t).hook p c
  set w := t.hook p c with hw
  have hwc : w.lines.isLive c = true := (hr.isLive c).trans hclive
  have hwk : w.lines.isLive k = true := (hr.isLive k).trans hk
  have hpremise := hlisted.restsOnPremise_iff hwc
  rw [line_revalidate hlisted.toThreaded hwc, hvalid]
  dsimp only
  by_cases hmeets : Grounded.Meets w.support (· = c) k
  · have hold : ¬ (t.line k).valid = true := by
      rw [h.valid k hk]
      apply Grounded.not_of_meets _ _ hmeets
      · intro m hm
        rw [hsupport, if_neg hm]
      · rintro m rfl
        exact hmissing
    rcases (hlisted.meets_iff hwc hwk).mp hmeets with rfl | hkd
    · rw [if_pos rfl, hpremise]
    · have hrests := ((hlisted.mem_dependents_iff hwc).mp hkd).2
      have hkc : k ≠ c := fun hkc => hlisted.not_mem_dependents hwc (hkc ▸ hkd)
      rw [if_neg hkc, Grounded.iff_of_restsOn hrests, ← hpremise]
      by_cases hv : w.restsOnPremise c = true
      · simp [hv, hkd]
      · simp [hv, hold]
  · have hnot := (hlisted.meets_iff hwc hwk).not.mp hmeets
    rw [not_or] at hnot
    rw [if_neg hnot.1, if_neg (fun hc => hnot.2 hc.2), h.valid k hk]
    apply Grounded.congr_of_not_meets _ hmeets
    intro m hm
    rw [hsupport, if_neg hm]

/-- A line that rests on nothing may be made to rest on any line above it. -/
theorem Linked.hook_revalidate (h : Linked t) (hbefore : t.Before p c)
    (hmissing : t.support c = .missing) : Linked ((t.hook p c).revalidate c) := by
  have hclive := hbefore.right_live h.ordered
  have hplt := Register.lt_size_of_isLive (hbefore.left_live h.ordered)
  have hclt := Register.lt_size_of_isLive hclive
  have hlisted : Listed (t.hook p c) := h.toListed.hook hbefore hmissing
  have hr : Relinked t (t.hook p c) := (Relinked.refl t).hook p c
  have hwc : (t.hook p c).lines.isLive c = true := (hr.isLive c).trans hclive
  have hline := line_revalidate hlisted.toThreaded hwc
  have hsupport := support_revalidate hlisted.toThreaded hwc
  have hr' : Relinked (t.hook p c) ((t.hook p c).revalidate c) := (Relinked.refl _).revalidate c
  have hlisted' : Listed ((t.hook p c).revalidate c) :=
    hlisted.congr hr'.display hsupport (fun k => by rw [hline])
  refine { hlisted' with valid := ?_, marked := ?_ }
  all_goals
    intro k hk
    rw [hr'.isLive, hr.isLive] at hk
    rw [hsupport]
  · exact h.valid_hook_revalidate hbefore hmissing hk
  · rw [support_hook hplt hclt]
    simp only [hline, line_hook hplt hclt]
    by_cases hkc : k = c
    · simp [hkc, Justification.parent?]
    · simp only [if_neg hkc]
      exact h.marked k hk

end Hook

/-- A tree with sound links that differs from another one in what one line rests on, and in what
follows from that. -/
structure Rewired (t u : Tree) (c : Nat) (x : Justification) : Prop where
  linked : Linked u
  relinked : Relinked t u
  support : ∀ j, u.support j = if j = c then x else t.support j
  checkmarked : ∀ j, (u.line j).checkmarked = (t.line j).checkmarked
  dead : ∀ j, t.lines.isLive j ≠ true → u.line j = t.line j

/-- Changing what a line rests on and changing it back gives the same tree. -/
theorem Rewired.eq_of_back {t u v : Tree} (h : Linked t) {c : Nat} {x : Justification}
    (h₁ : Rewired t u c x) (h₂ : Rewired u v c (t.support c)) : v = t := by
  apply h.eq_of_relinked h₂.linked (h₁.relinked.trans h₂.relinked)
  · intro i _
    rw [h₂.support, h₁.support]
    by_cases hi : i = c <;> simp [hi]
  · intro i _
    rw [h₂.checkmarked, h₁.checkmarked]
  · intro i hi
    rw [h₂.dead i (by rw [h₁.relinked.isLive]; exact hi), h₁.dead i hi]

theorem Linked.rewired_sever {t : Tree} (h : Linked t) {c : Nat} (hc : t.lines.isLive c = true)
    (hp : t.support c ≠ .premise) : Rewired t (t.sever c) c .missing := by
  refine ⟨h.sever hc, (Relinked.refl t).sever c, support_sever h hc hp, ?_, ?_⟩
  · intro j
    by_cases hs : ∃ q, t.support c = .line q
    · obtain ⟨q, hq⟩ := hs
      rw [line_sever h hc hq]
    · rw [sever_of_not_line (fun q hq => hs ⟨q, hq⟩)]
  · intro j hj
    by_cases hs : ∃ q, t.support c = .line q
    · obtain ⟨q, hq⟩ := hs
      have hjc : j ≠ c := fun hjc => hj (hjc ▸ hc)
      have hjq : j ≠ q := fun hjq => hj (hjq ▸ (h.parent c q hc hq).left_live h.ordered)
      have hjd : j ∉ t.dependents c := fun hjd =>
        hj (h.ascending.isLive_of_mem_dependents hc hjd)
      rw [line_sever h hc hq]
      simp [hjc, hjq, hjd]
    · rw [sever_of_not_line (fun q hq => hs ⟨q, hq⟩)]

def relink (t : Tree) (p c : Nat) : Tree := ((t.sever c).hook p c).revalidate c

/-- Linking a line to an earlier one changes the one justification, and validity follows. -/
theorem Linked.rewired_relink {t : Tree} (h : Linked t) {p c : Nat} (hbefore : t.Before p c)
    (hp : t.support c ≠ .premise) : Rewired t (t.relink p c) c (.line p) := by
  have hplive := hbefore.left_live h.ordered
  have hclive := hbefore.right_live h.ordered
  have hsever := h.rewired_sever hclive hp
  set u := t.sever c with hu
  have hbefore' : u.Before p c := by
    unfold Before
    rw [hsever.relinked.order]
    exact hbefore
  have hmissing : u.support c = .missing := by rw [hsever.support, if_pos rfl]
  have hplive' : u.lines.isLive p = true := (hsever.relinked.isLive p).trans hplive
  have hclive' : u.lines.isLive c = true := (hsever.relinked.isLive c).trans hclive
  have hhook := line_hook (Register.lt_size_of_isLive hplive') (Register.lt_size_of_isLive hclive')
  have hlisted := hsever.linked.toListed.hook hbefore' hmissing
  have hr : Relinked u (u.hook p c) := (Relinked.refl u).hook p c
  have hwc : (u.hook p c).lines.isLive c = true := (hr.isLive c).trans hclive'
  have hline := line_revalidate hlisted.toThreaded hwc
  -- Severing, hooking and revalidating add up to one change of what the line rests on.
  refine ⟨hsever.linked.hook_revalidate hbefore' hmissing,
    hsever.relinked.trans (hr.revalidate c), ?_, ?_, ?_⟩
  · intro j
    have hj : (t.relink p c).support j = if j = c then .line p else u.support j := by
      unfold Tree.support relink
      rw [hline, hhook]
    rw [hj, hsever.support]
    by_cases hjc : j = c <;> simp [hjc]
  · intro j
    unfold relink
    rw [hline, hhook]
    exact hsever.checkmarked j
  · intro j hj
    have hjc : j ≠ c := fun hjc => hj (hjc ▸ hclive)
    have hjp : j ≠ p := fun hjp => hj (hjp ▸ hplive)
    have hjd : j ∉ (u.hook p c).dependents c := by
      intro hjd
      have hlive := hlisted.ascending.isLive_of_mem_dependents hwc hjd
      rw [hr.isLive, hsever.relinked.isLive] at hlive
      exact hj hlive
    unfold relink
    rw [← hsever.dead j hj, ← hu, hline, hhook]
    simp [hjc, hjp, hjd]

structure IsNew (l : Line) : Prop where
  support : ∀ p, l.justification ≠ .line p
  children : l.children = []
  parentCheckmarked : l.parentCheckmarked = false
  valid : l.valid = true ↔ l.justification = .premise

section Insert

variable {t : Tree} {k : Nat} {l : Line}

theorem support_insert (j : Nat) : Tree.support { t with lines := t.lines.insert k l } j =
    if j = t.lines.size then l.justification else t.support j := by
  have hget := t.lines.get_insert k j l
  unfold support line
  rw [hget]
  split <;> rfl

/-- Only lines that were there before rest on lines. -/
theorem support_of_insert (hl : IsNew l) {j p : Nat}
    (hj : (t.lines.insert k l).isLive j = true)
    (hp : Tree.support { t with lines := t.lines.insert k l } j = .line p) :
    t.lines.isLive j = true ∧ t.support j = .line p := by
  rw [support_insert] at hp
  by_cases hjn : j = t.lines.size
  · rw [if_pos hjn] at hp
    exact absurd hp (hl.support p)
  · rw [if_neg hjn] at hp
    exact ⟨((t.lines.isLive_insert k j l).mp hj).resolve_left hjn, hp⟩

theorem Listed.insert (h : Listed t) (hk : k ≤ t.lines.order.length) (hl : IsNew l) :
    Listed { t with lines := t.lines.insert k l } := by
  have hline : ∀ j, Tree.line { t with lines := t.lines.insert k l } j =
      if j = t.lines.size then l else t.line j := fun j => t.lines.get_insert k j l
  refine { ordered := h.ordered.insert hk l, parent := ?_, children := ?_ }
  · intro c p hc hp
    obtain ⟨hc', hp'⟩ := support_of_insert hl hc hp
    have hbefore := h.parent c p hc' hp'
    unfold Before at hbefore ⊢
    rw [Register.order_insert]
    exact hbefore.trans (List.sublist_insertIdx _ _ _)
  · intro i hi
    rw [hline]
    by_cases hin : i = t.lines.size
    · rw [if_pos hin, hl.children, eq_comm, List.filter_eq_nil_iff]
      intro c hc hs
      obtain ⟨hc', hp⟩ :=
        support_of_insert hl (((h.ordered.insert hk l).mem_iff c).mp hc) (beq_iff_eq.mp hs)
      have hlt := Register.lt_size_of_isLive ((h.parent c i hc' hp).left_live h.ordered)
      exact absurd hin (Nat.ne_of_lt hlt)
    · have hi' := ((t.lines.isLive_insert k i l).mp hi).resolve_left hin
      rw [if_neg hin, Register.order_insert, List.filter_insertIdx_of_false, h.children i hi']
      · apply List.filter_congr
        intro c hc
        have hlt := Register.lt_size_of_isLive ((h.ordered.mem_iff c).mp hc)
        rw [support_insert, if_neg (Nat.ne_of_lt hlt)]
      · simpa [support_insert] using hl.support i

/-- A new line, which nothing refers to, leaves the links in step. -/
theorem Linked.insert (h : Linked t) (hk : k ≤ t.lines.order.length) (hl : IsNew l) :
    Linked { t with lines := t.lines.insert k l } := by
  have hline : ∀ j, Tree.line { t with lines := t.lines.insert k l } j =
      if j = t.lines.size then l else t.line j := fun j => t.lines.get_insert k j l
  have hne : ∀ j, t.lines.isLive j = true → j ≠ t.lines.size := fun j hj =>
    Nat.ne_of_lt (Register.lt_size_of_isLive hj)
  have hlisted := h.toListed.insert hk hl
  refine { hlisted with valid := ?_, marked := ?_ }
  · intro i hi
    rw [hline]
    by_cases hin : i = t.lines.size
    · rw [if_pos hin, hl.valid]
      have hs : Tree.support { t with lines := t.lines.insert k l } i = l.justification := by
        rw [support_insert, if_pos hin]
      constructor
      · exact fun hp => .premise (hs.trans hp)
      · intro hg
        cases hg with
        | premise hp => exact hs.symm.trans hp
        | @line _ p hp _ => exact absurd (hs.symm.trans hp) (hl.support p)
    · have hi' := ((t.lines.isLive_insert k i l).mp hi).resolve_left hin
      rw [if_neg hin, h.valid i hi']
      symm
      apply Grounded.congr_of_not_meets (M := (· = t.lines.size))
      · intro j hj
        rw [support_insert, if_neg hj]
      · rintro ⟨m, rfl, hmi⟩
        rcases Relation.reflTransGen_iff_eq_or_transGen.mp hmi with hmi | hmi
        · exact hin hmi
        · exact hne _ (h.isLive_of_restsOn hi' hmi) rfl
  · intro i hi
    rw [support_insert]
    by_cases hin : i = t.lines.size
    · rw [hline, if_pos hin, if_pos hin, hl.parentCheckmarked]
      cases hj : l.justification with
      | line p => exact absurd hj (hl.support p)
      | missing => rfl
      | premise => rfl
    · have hi' := ((t.lines.isLive_insert k i l).mp hi).resolve_left hin
      rw [hline, if_neg hin, if_neg hin, h.marked i hi']
      cases hs : t.support i with
      | line p =>
        have hp := hne p ((h.parent i p hi' hs).left_live h.ordered)
        simp only [Justification.parent?, Option.any_some, hline, if_neg hp]
      | missing => rfl
      | premise => rfl

end Insert

end TruthTrees.Tree
