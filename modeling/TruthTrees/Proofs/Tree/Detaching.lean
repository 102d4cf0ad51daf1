import TruthTrees.Proofs.Tree.Linking
import TruthTrees.Proofs.Tree.Stowing

/-! Taking a line out of the links and out of the display leaves the links of the others sound. What
becomes of every line is told by `detachedLine`. -/
namespace TruthTrees.Tree

/-- A line after another one was taken out of the links. The other one keeps all it knew, except
that it is valid only if it is a premise. -/
def detachedLine (t : Tree) (i j : Nat) : Line :=
  let l := t.line j
  { l with
    justification := if j ∈ (t.line i).children then .missing else l.justification
    children := if t.support i = .line j then l.children.filter (· ≠ i) else l.children
    checkmarked :=
      if t.support i = .line j ∧ (t.line i).parentCheckmarked = true then false else l.checkmarked
    parentCheckmarked :=
      if j ∈ (t.line i).children then false
      else if (t.line i).parentCheckmarked = true ∧ j ≠ i ∧ t.lines.isLive j = true ∧
        t.support j = t.support i ∧ (t.support i).parent?.isSome = true then false
      else l.parentCheckmarked
    valid :=
      if j ∈ t.dependents i then false
      else if j = i then t.support i == .premise
      else l.valid }

def release (t : Tree) (p i : Nat) : Tree :=
  let u := t.removeChild p i
  if (u.line p).valid then u.modifyLine i (fun l => { l with valid := false }) else u

theorem relinked_release (t : Tree) (p i : Nat) : Relinked t (t.release p i) := by
  have hr : Relinked t (t.removeChild p i) := (Relinked.refl t).removeChild p i
  apply Relinked.ite _ hr
  exact hr.modifyLine i (fun _ => ⟨rfl, rfl, rfl⟩)

/-- Only the parent and the released line change, each in its own link. -/
theorem line_release {t : Tree} (h : Tied t) {i p : Nat} (hi : t.lines.isLive i = true)
    (hp : t.support i = .line p) (j : Nat) : (t.release p i).line j =
      { t.line j with
        children := if j = p then (t.line j).children.filter (· ≠ i) else (t.line j).children
        valid := if j = i then false else (t.line j).valid } := by
  have hplt := Register.lt_size_of_isLive (h.parent_live i p hi hp)
  have hline := line_removeChild (t := t) hplt i
  have hsize : (t.removeChild p i).lines.size = t.lines.size :=
    ((Relinked.refl t).removeChild p i).size
  have hvalid : ((t.removeChild p i).line p).valid = (t.line p).valid := by rw [hline]
  unfold release
  dsimp only
  rw [hvalid]
  cases hpv : (t.line p).valid with
  | true =>
    rw [if_pos rfl, line_modifyLine_of_lt (hsize ▸ Register.lt_size_of_isLive hi), hline]
    split <;> rfl
  | false =>
    have hiv : (t.line i).valid = false := (h.valid_eq_of_support hi hp).trans hpv
    rw [if_neg (by simp), hline]
    by_cases hj : j = i
    · subst hj
      simp [hiv]
    · simp [hj]

theorem leaveParent_of_no_parent {t : Tree} {i : Nat} (hnot : ∀ p, t.support i ≠ .line p) :
    t.leaveParent i = t := by
  unfold leaveParent
  split
  · rename_i p hp
    exact absurd hp (hnot p)
  · rfl

/-- A line whose parent had been checked for it takes the checkmark along. -/
theorem leaveParent_of_parent {t : Tree} {i p : Nat} (hp : t.support i = .line p) :
    t.leaveParent i = if ((t.release p i).line i).parentCheckmarked then
      (t.release p i).setCheckmarked p false else t.release p i := by
  unfold leaveParent
  rw [show (t.line i).justification = _ from hp]
  rfl

/-- Then a checkmark that the line made complete is taken back from its parent, and all that rests
on the parent knows so. -/
theorem line_leaveParent {t : Tree} (h : Tied t) {i : Nat} (hi : t.lines.isLive i = true)
    (j : Nat) : (t.leaveParent i).line j =
      { t.line j with
        children := if t.support i = .line j then (t.line j).children.filter (· ≠ i)
          else (t.line j).children
        checkmarked := if t.support i = .line j ∧ (t.line i).parentCheckmarked = true then false
          else (t.line j).checkmarked
        parentCheckmarked := if (t.line i).parentCheckmarked = true ∧ j ≠ i ∧
            t.lines.isLive j = true ∧ t.support j = t.support i ∧
            (t.support i).parent?.isSome = true then false
          else (t.line j).parentCheckmarked
        valid := if j = i then t.support i == .premise else (t.line j).valid } := by
  by_cases hs : ∃ p, t.support i = .line p
  swap
  · have hnot : ∀ p, t.support i ≠ .line p := fun p hp => hs ⟨p, hp⟩
    have hnone : ¬ (t.support i).parent?.isSome = true := by
      cases hs : t.support i with
      | line p => exact absurd hs (hnot p)
      | missing => simp [Justification.parent?]
      | premise => simp [Justification.parent?]
    rw [leaveParent_of_no_parent hnot, if_neg (hnot j), if_neg (fun hc => hnot j hc.1),
      if_neg (fun hc => hnone hc.2.2.2.2)]
    by_cases hj : j = i
    · rw [if_pos hj, hj, ← h.valid_of_no_parent hi hnot]
    · rw [if_neg hj]
  obtain ⟨p, hp⟩ := hs
  have hplive := h.parent_live i p hi hp
  have hline := line_release h hi hp
  have hsize := (relinked_release t p i).size
  have hmark' : ((t.release p i).line i).parentCheckmarked = (t.line i).parentCheckmarked := by
    rw [hline]
  have hpremise : (Justification.line p == Justification.premise) = false := by simp
  rw [leaveParent_of_parent hp, hmark', hp, hpremise]
  cases hmark : (t.line i).parentCheckmarked with
  | false =>
    rw [if_neg (by simp), hline]
    by_cases hjp : j = p
    · simp [hjp]
    · simp [hjp, Ne.symm hjp]
  | true =>
    have hchildren : ∀ c, c ∈ ((t.release p i).line p).children ↔
        c ≠ i ∧ t.lines.isLive c = true ∧ t.support c = .line p := by
      intro c
      rw [hline]
      dsimp only
      rw [if_pos rfl, List.mem_filter, h.mem_children_iff hplive, and_comm]
      simp
    rw [if_pos rfl, line_setCheckmarked, hline]
    · by_cases hjp : j = p
      · subst hjp
        simp only [hchildren]
        simp [Justification.parent?]
      · simp only [hchildren]
        simp [hjp, Ne.symm hjp, Justification.parent?]
    · rw [hsize]
      exact Register.lt_size_of_isLive hplive
    · intro c hc
      rw [hsize]
      exact Register.lt_size_of_isLive ((hchildren c).mp hc).2.1

/-- What each line is after one line has been taken out. -/
theorem line_detach {t : Tree} (h : Tied t) {i : Nat} (hi : t.lines.isLive i = true) (j : Nat) :
    (t.detach i).line j = t.detachedLine i j := by
  have hleave := line_leaveParent h hi
  have hr : Relinked t (t.leaveParent i) := (Relinked.refl t).leaveParent i
  have hchildren : ((t.leaveParent i).line i).children = (t.line i).children := by
    rw [hleave]
    simp [h.support_ne hi]
  have hclt : ∀ c ∈ (t.line i).children, c < (t.leaveParent i).lines.size := by
    intro c hc
    rw [hr.size]
    exact h.lt_size_of_mem_children hi hc
  set u := (t.leaveParent i).orphanChildren i with hu
  have hru : Relinked t u := hr.orphanChildren i
  have horphan : ∀ k, u.line k =
      { (t.leaveParent i).line k with
        justification := if k ∈ (t.line i).children then .missing
          else ((t.leaveParent i).line k).justification
        parentCheckmarked := if k ∈ (t.line i).children then false
          else ((t.leaveParent i).line k).parentCheckmarked } := by
    intro k
    rw [hu]
    unfold orphanChildren
    rw [hchildren, line_modifyLines_of_lt hclt]
    split <;> rfl
  -- Only the parent, which is not found below the line, has other children than before.
  have hdep : u.dependents i = t.dependents i := by
    apply dependents_congr hru.size
    intro k hk
    have hne : ¬ t.support i = .line k := fun hs => h.ne_of_listedBelow hi hs hk rfl
    rw [horphan, hleave]
    simp [hne]
  have hline : (t.detach i).line j = (u.setDependentsValid i false).line j :=
    Register.get_withdraw _ i j
  rw [hline, line_setDependentsValid, hdep, horphan, hleave]
  · rfl
  · rw [hdep, hru.size]
    exact fun k hk => h.lt_size_of_mem_dependents hi hk

/-- The children of a line that is taken out lose their justification, and no other line does. -/
theorem support_detach {t : Tree} (h : Tied t) {i : Nat} (hi : t.lines.isLive i = true)
    (j : Nat) : (t.detach i).support j =
      if j ∈ (t.line i).children then .missing else t.support j := by
  unfold support
  rw [line_detach h hi]
  rfl

/-- The chains that meet the children of a line are those of the lines below it. -/
theorem Threaded.meets_children_iff {t : Tree} (h : Threaded t) {i j : Nat}
    (hi : t.lines.isLive i = true) (hj : t.lines.isLive j = true) :
    Grounded.Meets t.support (· ∈ (t.line i).children) j ↔ j ∈ t.dependents i := by
  rw [h.mem_dependents_iff hi]
  constructor
  · rintro ⟨m, hm, hmj⟩
    exact ⟨hj, Relation.TransGen.head' ((h.mem_children_iff hi).mp hm).2 hmj⟩
  · rintro ⟨-, hij⟩
    obtain ⟨m, hm, hmj⟩ := Relation.TransGen.head'_iff.mp hij
    refine ⟨m, (h.mem_children_iff hi).mpr ⟨?_, hm⟩, hmj⟩
    rcases Relation.reflTransGen_iff_eq_or_transGen.mp hmj with rfl | hmj
    · exact hj
    · exact h.isLive_of_restsOn hj hmj

section Remaining

variable {t : Tree} {i : Nat}

theorem order_detach_eq_filter (h : t.lines.Ordered) (hi : t.lines.isLive i = true) :
    (t.detach i).lines.order = t.lines.order.filter (· ≠ i) := by
  rw [order_detach h hi, h.erase_eq_filter]

/-- The remaining lines rest on the same lines as before, and none of them on the one that went. -/
theorem support_of_detach (h : Tied t) (hi : t.lines.isLive i = true) {c p : Nat}
    (hc : t.lines.isLive c = true) (hp : (t.detach i).support c = .line p) :
    t.support c = .line p ∧ p ≠ i := by
  rw [support_detach h hi] at hp
  by_cases hmem : c ∈ (t.line i).children
  · simp [hmem] at hp
  · rw [if_neg hmem] at hp
    exact ⟨hp, fun hpi => hmem ((h.mem_children_iff hi).mpr ⟨hc, hpi ▸ hp⟩)⟩

/-- A remaining line loses the one that went from its children, and no other one. -/
theorem Tied.children_detach (h : Tied t) (hi : t.lines.isLive i = true) {k : Nat}
    (hki : k ≠ i) (hk : t.lines.isLive k = true) : ((t.detach i).line k).children =
      (t.detach i).lines.order.filter (fun c => (t.detach i).support c == .line k) := by
  have hfilter : (t.detach i).lines.order.filter (fun c => (t.detach i).support c == .line k) =
      (t.line k).children.filter (· ≠ i) := by
    rw [order_detach_eq_filter h.ordered hi, h.children k hk, List.filter_filter,
      List.filter_filter]
    apply List.filter_congr
    intro c hc
    by_cases hmem : c ∈ (t.line i).children
    · have hs := ((h.mem_children_iff hi).mp hmem).2
      have hbeq : (Justification.line i == .line k) = false := by simpa using Ne.symm hki
      have hbeq' : (Justification.missing == .line k) = false := by simp
      rw [support_detach h hi, if_pos hmem, hs, hbeq, hbeq', Bool.and_false, Bool.false_and]
    · rw [support_detach h hi, if_neg hmem, Bool.and_comm]
  rw [hfilter, line_detach h hi]
  unfold detachedLine
  dsimp only
  split
  · rfl
  · rename_i hs
    symm
    rw [List.filter_eq_self]
    intro c hc
    have hci : c ≠ i := fun hci => hs (hci ▸ ((h.mem_children_iff hk).mp hc).2)
    simpa using hci

/-- A remaining line is grounded if it was and did not rest on the one that went. -/
theorem Tied.valid_detach (h : Tied t) (hi : t.lines.isLive i = true) {k : Nat} (hki : k ≠ i)
    (hk : t.lines.isLive k = true) :
    ((t.detach i).line k).valid = true ↔ Grounded (t.detach i).support k := by
  have hgrounded : Grounded (t.detach i).support k ↔
      Grounded t.support k ∧ ¬ Grounded.Meets t.support (· ∈ (t.line i).children) k := by
    apply Grounded.iff_of_missing
    · intro m hm
      rw [support_detach h hi, if_neg hm]
    · intro m hm
      rw [support_detach h hi, if_pos hm]
  rw [hgrounded, h.meets_children_iff hi hk, line_detach h hi, ← h.valid k hk]
  unfold detachedLine
  dsimp only
  rw [if_neg hki]
  by_cases hkd : k ∈ t.dependents i <;> simp [hkd]

theorem Tied.mirrored_detach (h : Tied t) (hi : t.lines.isLive i = true) {c p : Nat} (hci : c ≠ i)
    (hc : t.lines.isLive c = true) (hp : (t.detach i).support c = .line p) :
    ((t.detach i).line c).parentCheckmarked = ((t.detach i).line p).checkmarked := by
  obtain ⟨hp, hpi⟩ := support_of_detach h hi hc hp
  have hmem : c ∉ (t.line i).children := by
    rw [h.mem_children_iff hi, hp]
    rintro ⟨-, hs⟩
    cases hs
    exact hpi rfl
  simp only [line_detach h hi, detachedLine]
  rw [if_neg hmem, h.mirrored c p hc hp, hp]
  by_cases hs : t.support i = .line p
  · simp [Justification.parent?, hci, hc, hs]
  · simp [hs, Ne.symm hs]

/-- What the remaining lines say about each other still fits together. -/
theorem Tied.detach (h : Tied t) (hi : t.lines.isLive i = true) : Tied (t.detach i) where
  ordered := ordered_detach h.ordered hi
  parent_live c p hc hp := by
    obtain ⟨-, hc⟩ := (isLive_detach t i c).mp hc
    obtain ⟨hp, hpi⟩ := support_of_detach h hi hc hp
    exact (isLive_detach t i p).mpr ⟨hpi, h.parent_live c p hc hp⟩
  irrefl k hk hcycle := by
    have hle : ∀ p c, (t.detach i).support c = .line p → t.support c = .line p := by
      intro p c hp
      rw [support_detach h hi] at hp
      split at hp
      · exact absurd hp (by simp)
      · exact hp
    exact h.irrefl k ((isLive_detach t i k).mp hk).2 (Relation.TransGen.mono hle k k hcycle)
  children k hk := by
    obtain ⟨hki, hk⟩ := (isLive_detach t i k).mp hk
    exact h.children_detach hi hki hk
  valid k hk := by
    obtain ⟨hki, hk⟩ := (isLive_detach t i k).mp hk
    exact h.valid_detach hi hki hk
  mirrored c p hc hp := by
    obtain ⟨hci, hc⟩ := (isLive_detach t i c).mp hc
    exact h.mirrored_detach hi hci hc hp

/-- Justifications that stay still point upwards. -/
theorem Linked.before_detach (h : Linked t) (hi : t.lines.isLive i = true) {c p : Nat}
    (hc : (t.detach i).lines.isLive c = true) (hp : (t.detach i).support c = .line p) :
    (t.detach i).Before p c := by
  obtain ⟨hci, hc⟩ := (isLive_detach t i c).mp hc
  obtain ⟨hp, hpi⟩ := support_of_detach h.toTied hi hc hp
  have hbefore := (h.parent c p hc hp).filter (· ≠ i)
  unfold Before
  rw [order_detach_eq_filter h.ordered hi]
  simpa [hci, hpi] using hbefore

theorem Linked.marked_detach (h : Linked t) (hi : t.lines.isLive i = true) {k : Nat} (hki : k ≠ i)
    (hk : t.lines.isLive k = true) : ((t.detach i).line k).parentCheckmarked =
      ((t.detach i).support k).parent?.any (fun p => ((t.detach i).line p).checkmarked) := by
  rw [support_detach h.toTied hi]
  simp only [line_detach h.toTied hi, detachedLine]
  by_cases hmem : k ∈ (t.line i).children
  · simp [hmem, Justification.parent?]
  · rw [if_neg hmem, if_neg hmem, h.marked k hk]
    cases hs : t.support k with
    | line q =>
      by_cases hq : t.support i = .line q
      · simp [Justification.parent?, hki, hk, hq]
      · simp [Justification.parent?, hq, Ne.symm hq]
    | missing => exact ite_self _
    | premise => exact ite_self _

/-- The links of the remaining lines stay sound. -/
theorem Linked.detach (h : Linked t) (hi : t.lines.isLive i = true) : Linked (t.detach i) := by
  refine { h.toTied.detach hi with parent := ?_, marked := ?_ }
  · exact fun c p hc hp => h.before_detach hi hc hp
  · intro k hk
    obtain ⟨hki, hk⟩ := (isLive_detach t i k).mp hk
    exact h.marked_detach hi hki hk

end Remaining

end TruthTrees.Tree
