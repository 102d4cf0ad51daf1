import TruthTrees.Proofs.Tree.Detaching

/-! What a line remembers after it was taken out of the links is enough to put everything back as it
was, as long as nothing else has changed in between. The steps that put it back are followed one by
one. -/
namespace TruthTrees.Tree

/-- A tree in which a line is displayed where it was before it was taken out, but in which the links
are those that were left without it. -/
structure Returning (t u : Tree) (i : Nat) : Prop where
  display : Register.SameDisplay t.lines u.lines
  line : ∀ j, u.line j = t.detachedLine i j

namespace Returning

variable {t u : Tree} {i : Nat}

theorem isLive (hu : Returning t u i) (j : Nat) : u.lines.isLive j = t.lines.isLive j :=
  hu.display.isLive j

theorem place (hu : Returning t u i) (j : Nat) (ids : List Nat) :
    u.lines.place j ids = t.lines.place j ids :=
  Register.place_congr hu.display.number j ids

/-- First the line is entered among the children of its parent. -/
theorem line_rejoinParent (h : Tied t) (hi : t.lines.isLive i = true) (hu : Returning t u i)
    (j : Nat) : (u.rejoinParent i).line j =
      { t.detachedLine i j with children := (t.line j).children } := by
  have hjust : (u.line i).justification = t.support i := by
    rw [hu.line]
    unfold detachedLine
    exact if_neg (h.not_mem_children hi)
  unfold rejoinParent
  rw [hjust]
  cases hs : t.support i with
  | line p =>
    have hplive := h.parent_live i p hi hs
    dsimp only
    rw [if_pos ((hu.isLive p).trans hplive), line_placeChild, hu.line]
    · by_cases hjp : j = p
      · subst hjp
        have hplace : t.lines.place i ((t.line j).children.filter (· ≠ i)) =
            (t.line j).children := by
          rw [h.children j hplive, List.filter_filter]
          apply h.ordered.place_filter hi
          · simp
          · simp [hs]
          · intro k _ hk
            simp [hk]
        rw [if_pos rfl, hu.place]
        unfold detachedLine
        simp only [hs, if_true]
        rw [hplace]
      · rw [if_neg hjp]
        simp [detachedLine, hs, Ne.symm hjp]
    · rw [hu.display.size]
      exact Register.lt_size_of_isLive hplive
  | missing =>
    dsimp only
    rw [hu.line]
    simp [detachedLine, hs]
  | premise =>
    dsimp only
    rw [hu.line]
    simp [detachedLine, hs]

/-- Then the lines that rested on it do so again. -/
theorem line_adoptChildren (h : Tied t) (hi : t.lines.isLive i = true) (hu : Returning t u i)
    (j : Nat) : ((u.rejoinParent i).adoptChildren i).line j =
      { t.detachedLine i j with
        children := (t.line j).children, justification := (t.line j).justification } := by
  have hline := line_rejoinParent h hi hu
  set w := u.rejoinParent i with hw
  have hr : Relinked u w := (Relinked.refl u).rejoinParent i
  have hchildren : (w.line i).children = (t.line i).children := by rw [hline]
  -- All that it remembers as its children are live and rest on nothing, as nothing else has
  -- changed.
  have hkept : (w.line i).children.filter
      (fun c => w.lines.isLive c && (w.line c).justification = .missing) = (t.line i).children := by
    rw [hchildren, List.filter_eq_self]
    intro c hc
    have hlive := ((h.mem_children_iff hi).mp hc).1
    have hmissing : (w.line c).justification = .missing := by
      rw [hline]
      exact if_pos hc
    rw [hr.isLive, hu.isLive, hlive, hmissing]
    simp
  have hclt : ∀ c ∈ (t.line i).children, c < w.lines.size := by
    intro c hc
    rw [hr.size, hu.display.size]
    exact h.lt_size_of_mem_children hi hc
  unfold adoptChildren
  dsimp only
  rw [hkept, line_modifyLine_of_lt, line_modifyLines_of_lt hclt, hline]
  · by_cases hmem : j ∈ (t.line i).children
    · have hji : j ≠ i := fun hji => h.not_mem_children hi (hji ▸ hmem)
      have hs : (t.line j).justification = .line i := ((h.mem_children_iff hi).mp hmem).2
      rw [if_neg hji, if_pos hmem, hs]
    · rw [if_neg hmem]
      by_cases hji : j = i
      · subst hji
        simp [detachedLine, hmem]
      · simp [detachedLine, hmem, hji]
  · rw [lines_modifyLines, Register.size_modifyAll, hr.size, hu.display.size]
    exact Register.lt_size_of_isLive hi

/-- Supports and children are all back then, so the search along chains finds what it found
before. -/
theorem threaded_adoptChildren (h : Tied t) (hi : t.lines.isLive i = true)
    (hu : Returning t u i) : Threaded ((u.rejoinParent i).adoptChildren i) := by
  have hline := line_adoptChildren h hi hu
  have hr : Relinked u ((u.rejoinParent i).adoptChildren i) :=
    ((Relinked.refl u).rejoinParent i).adoptChildren i
  apply h.toThreaded.congr
  · exact hu.display.trans hr.display
  · funext k
    unfold support
    rw [hline]
  · intro k
    rw [hline]

/-- Then the line is valid again if it was, and so are the lines that rest on it. -/
theorem line_revalidate_adoptChildren (h : Tied t) (hi : t.lines.isLive i = true)
    (hu : Returning t u i) (j : Nat) :
    (((u.rejoinParent i).adoptChildren i).revalidate i).line j =
      { t.line j with
        checkmarked := (t.detachedLine i j).checkmarked
        parentCheckmarked := (t.detachedLine i j).parentCheckmarked } := by
  have hline := line_adoptChildren h hi hu
  set v := (u.rejoinParent i).adoptChildren i with hv
  have hr : Relinked u v := ((Relinked.refl u).rejoinParent i).adoptChildren i
  have hsupport : v.support = t.support := by
    funext k
    unfold support
    rw [hline]
  have hchildren : ∀ k, (v.line k).children = (t.line k).children := fun k => by rw [hline]
  have hthreaded : Threaded v := threaded_adoptChildren h hi hu
  have hvi : v.lines.isLive i = true := by
    rw [hr.isLive, hu.isLive]
    exact hi
  have hpremise : v.restsOnPremise i = (t.line i).valid := by
    rw [Bool.eq_iff_iff, hthreaded.restsOnPremise_iff hvi, hsupport, h.valid i hi]
  have hdep : v.dependents i = t.dependents i :=
    dependents_congr (hr.size.trans hu.display.size) (fun k _ => hchildren k)
  rw [line_revalidate hthreaded hvi, hpremise, hdep, hline]
  simp only [detachedLine]
  by_cases hji : j = i
  · simp [hji]
  · by_cases hjd : j ∈ t.dependents i
    · rw [h.valid_of_mem_dependents hi hjd]
      cases hval : (t.line i).valid <;> simp [hji, hjd]
    · simp [hji, hjd]

/-- Then the line passes its own checkmark on to the lines that rest on it. -/
theorem line_passCheckmark (h : Tied t) (hi : t.lines.isLive i = true) (hu : Returning t u i)
    {x : Tree} (hx : x = ((u.rejoinParent i).adoptChildren i).revalidate i) (j : Nat) :
    (x.setCheckmarked i (x.line i).checkmarked).line j =
      { t.line j with
        checkmarked := (t.detachedLine i j).checkmarked
        parentCheckmarked := if j ∈ (t.line i).children then (t.line j).parentCheckmarked
          else (t.detachedLine i j).parentCheckmarked } := by
  have hline := line_revalidate_adoptChildren h hi hu
  rw [← hx] at hline
  have hr : Relinked u x := hx ▸ (((Relinked.refl u).rejoinParent i).adoptChildren i).revalidate i
  have hsize : x.lines.size = t.lines.size := hr.size.trans hu.display.size
  have hmark : (x.line i).checkmarked = (t.line i).checkmarked := by
    rw [hline]
    simp [detachedLine, h.support_ne hi]
  have hchildren : (x.line i).children = (t.line i).children := by rw [hline]
  rw [line_setCheckmarked (hsize ▸ Register.lt_size_of_isLive hi), hmark, hchildren, hline]
  · by_cases hmem : j ∈ (t.line i).children
    · have hs := (h.mem_children_iff hi).mp hmem
      have hji : j ≠ i := fun hji => h.not_mem_children hi (hji ▸ hmem)
      simp [hmem, hji, h.mirrored j i hs.1 hs.2]
    · by_cases hji : j = i
      · subst hji
        simp [hmem, detachedLine, h.support_ne hi]
      · simp [hmem, hji]
  · intro c hc
    rw [hchildren] at hc
    rw [hsize]
    exact h.lt_size_of_mem_children hi hc

theorem restoreCheckmarks_of_unmarked {x y : Tree}
    (hy : y = x.setCheckmarked i (x.line i).checkmarked)
    (hmark : ∀ p, (y.line i).justification = .line p → (y.line i).parentCheckmarked = false) :
    x.restoreCheckmarks i = y := by
  subst hy
  unfold restoreCheckmarks
  dsimp only
  split
  · rename_i p hmarked hp
    simp [hmark p hp] at hmarked
  · rfl

/-- A line that took a checkmark along gives it back to its parent. -/
theorem restoreCheckmarks_of_marked {x y : Tree} {p : Nat}
    (hy : y = x.setCheckmarked i (x.line i).checkmarked)
    (hmark : (y.line i).parentCheckmarked = true) (hs : (y.line i).justification = .line p) :
    x.restoreCheckmarks i = y.setCheckmarked p true := by
  subst hy
  unfold restoreCheckmarks
  dsimp only
  rw [hmark, hs]

/-- The checkmark that its parent gets back is the only one that was taken when the line went. -/
theorem checkmarked_of_parent (h : Tied t) (hi : t.lines.isLive i = true) {p : Nat}
    (hs : t.support i = .line p) (hmark : (t.line i).parentCheckmarked = true) (j : Nat) :
    (if j = p then true else (t.detachedLine i j).checkmarked) = (t.line j).checkmarked := by
  by_cases hjp : j = p
  · rw [if_pos hjp, hjp, ← h.mirrored i p hi hs, hmark]
  · rw [if_neg hjp]
    simp [detachedLine, hs, Ne.symm hjp]

/-- All that rests on the parent knew of the checkmark, and no other line was told that it went. -/
theorem parentCheckmarked_of_parent (h : Tied t) (hi : t.lines.isLive i = true) {p : Nat}
    (hs : t.support i = .line p) (hmark : (t.line i).parentCheckmarked = true) (j : Nat) :
    (if j ∈ (t.line p).children then true
      else if j ∈ (t.line i).children then (t.line j).parentCheckmarked
      else (t.detachedLine i j).parentCheckmarked) = (t.line j).parentCheckmarked := by
  have hplive := h.parent_live i p hi hs
  by_cases hjp : j ∈ (t.line p).children
  · have hj := (h.mem_children_iff hplive).mp hjp
    rw [if_pos hjp, h.mirrored j p hj.1 hj.2, ← h.mirrored i p hi hs, hmark]
  · have hsib : ¬ (t.lines.isLive j = true ∧ t.support j = t.support i) := fun hc =>
      hjp ((h.mem_children_iff hplive).mpr (hs ▸ hc))
    rw [if_neg hjp]
    split
    · rfl
    · rename_i hmem
      unfold detachedLine
      dsimp only
      rw [if_neg hmem, if_neg (fun hc => hsib ⟨hc.2.2.1, hc.2.2.2.1⟩)]

/-- A line that was taken out of the links and is put back leaves no trace. -/
theorem line_reattach (h : Tied t) (hi : t.lines.isLive i = true) (hu : Returning t u i)
    (j : Nat) : (u.reattach i).line j = t.line j := by
  set x := ((u.rejoinParent i).adoptChildren i).revalidate i with hx
  have hdone : u.reattach i = x.restoreCheckmarks i := rfl
  have hline := line_passCheckmark h hi hu hx
  set y := x.setCheckmarked i (x.line i).checkmarked with hy
  have hr : Relinked u y :=
    ((((Relinked.refl u).rejoinParent i).adoptChildren i).revalidate i).setCheckmarked i _
  have hmarked : (y.line i).parentCheckmarked = (t.line i).parentCheckmarked := by
    rw [hline]
    simp [detachedLine, h.not_mem_children hi]
  have hjust : (y.line i).justification = t.support i := by
    rw [hline]
    rfl
  by_cases hp : ∃ p, t.support i = .line p ∧ (t.line i).parentCheckmarked = true
  swap
  · have hunmarked : ∀ p, t.support i = .line p → (t.line i).parentCheckmarked = false :=
      fun p hs => Bool.eq_false_iff.mpr fun hmark => hp ⟨p, hs, hmark⟩
    have hmark : ¬ ((t.line i).parentCheckmarked = true ∧ j ≠ i ∧ t.lines.isLive j = true ∧
        t.support j = t.support i ∧ (t.support i).parent?.isSome = true) := by
      rintro ⟨hmark, -, -, -, hsome⟩
      cases hs : t.support i with
      | line p => exact hp ⟨p, hs, hmark⟩
      | missing => simp [hs, Justification.parent?] at hsome
      | premise => simp [hs, Justification.parent?] at hsome
    rw [hdone, restoreCheckmarks_of_unmarked hy, hline]
    · simp only [detachedLine]
      rw [if_neg hmark, if_neg (fun hc => hp ⟨j, hc⟩)]
      by_cases hmem : j ∈ (t.line i).children <;> simp [hmem]
    · intro p hs
      rw [hmarked]
      exact hunmarked p (hjust.symm.trans hs)
  · obtain ⟨p, hs, hmark⟩ := hp
    have hplive := h.parent_live i p hi hs
    have hchildren : (y.line p).children = (t.line p).children := by rw [hline]
    rw [hdone, restoreCheckmarks_of_marked hy (hmarked.trans hmark) (hjust.trans hs),
      line_setCheckmarked, hchildren, hline]
    · dsimp only
      rw [checkmarked_of_parent h hi hs hmark, parentCheckmarked_of_parent h hi hs hmark]
    · rw [hr.size, hu.display.size]
      exact Register.lt_size_of_isLive hplive
    · intro c hc
      rw [hchildren] at hc
      rw [hr.size, hu.display.size]
      exact h.lt_size_of_mem_children hplive hc

/-- Putting a line back gives the lines their old links. -/
theorem lines_reattach (h : Tied t) (hi : t.lines.isLive i = true) (hu : Returning t u i) :
    (u.reattach i).lines = t.lines := by
  have hr : Relinked u (u.reattach i) := (Relinked.refl u).reattach i
  exact (hu.display.trans hr.display).eq_of_get (fun j _ => line_reattach h hi hu j)

end Returning

/-- A line that was just taken out returns to its place in the display. -/
theorem Tied.returning {t u : Tree} (h : Tied t) {i : Nat} (hi : t.lines.isLive i = true)
    (hu : u.lines = (t.detach i).lines) : Returning t (u.redisplay i) i := by
  have hr : Relinked t (t.unhook i) := Relinked.unhook t i
  have hordered : (t.unhook i).lines.Ordered := h.ordered.congr hr.display
  have hlines : (u.redisplay i).lines = (t.unhook i).lines := by
    unfold redisplay
    rw [hu, detach_eq]
    exact hordered.reinstate_withdraw ((hr.isLive i).trans hi)
  refine ⟨?_, ?_⟩
  · rw [hlines]
    exact hr.display
  · intro j
    rw [line_redisplay, ← line_detach h hi]
    unfold line
    rw [hu]

/-- A line that was taken out can be put back, and the tree is then what it was. -/
theorem reattach_redisplay_detach {t : Tree} (h : Tied t) {i : Nat}
    (hi : t.lines.isLive i = true) : ((t.detach i).redisplay i).reattach i = t := by
  have hlines := Returning.lines_reattach h hi (h.returning hi (rfl : _ = (t.detach i).lines))
  have hnodes : (((t.detach i).redisplay i).reattach i).nodes = t.nodes :=
    ((Relinked.refl _).reattach i).nodes.trans (SamePlaces.detach t i).nodes
  cases ht : ((t.detach i).redisplay i).reattach i
  rw [ht] at hlines hnodes
  cases t
  exact congrArg₂ Tree.mk hlines hnodes

/-- What stays true when one live line leaves stays true when several do. -/
theorem stow_induction {P : Tree → Prop}
    (hdetach : ∀ {u : Tree} {i : Nat}, P u → u.lines.isLive i = true → P (u.detach i)) {t : Tree}
    (h : P t) {ids : List Nat} (hids : ids.Nodup) (hlive : ∀ i ∈ ids, t.lines.isLive i = true) :
    P (t.stow ids) := by
  induction ids with
  | nil => exact h
  | cons i ids ih =>
    obtain ⟨hi, hids⟩ := List.nodup_cons.mp hids
    apply hdetach (ih hids (fun j hj => hlive j (by simp [hj])))
    exact (isLive_stow ids i).mpr ⟨hi, hlive i (by simp)⟩

theorem Tied.stow {t : Tree} (h : Tied t) {ids : List Nat} (hids : ids.Nodup)
    (hlive : ∀ i ∈ ids, t.lines.isLive i = true) : Tied (t.stow ids) :=
  stow_induction (fun hu hi => hu.detach hi) h hids hlive

/-- Taking out several lines leaves the links in step. -/
theorem Linked.stow {t : Tree} (h : Linked t) {ids : List Nat} (hids : ids.Nodup)
    (hlive : ∀ i ∈ ids, t.lines.isLive i = true) : Linked (t.stow ids) :=
  stow_induction (fun hu hi => hu.detach hi) h hids hlive

/-- Lines that leave together and come back leave no trace. -/
theorem unstow_stow {t : Tree} (h : Tied t) {ids : List Nat} (hids : ids.Nodup)
    (hlive : ∀ i ∈ ids, t.lines.isLive i = true) : (t.stow ids).unstow ids = t := by
  induction ids with
  | nil => rfl
  | cons i ids ih =>
    obtain ⟨hi, hids⟩ := List.nodup_cons.mp hids
    have hrest : ∀ j ∈ ids, t.lines.isLive j = true := fun j hj => hlive j (by simp [hj])
    have hi' : (t.stow ids).lines.isLive i = true :=
      (isLive_stow ids i).mpr ⟨hi, hlive i (by simp)⟩
    rw [stow_cons, unstow_cons, reattach_redisplay_detach (h.stow hids hrest) hi', ih hids hrest]

end TruthTrees.Tree
