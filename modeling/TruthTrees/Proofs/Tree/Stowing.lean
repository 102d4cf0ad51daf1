import TruthTrees.Proofs.Tree.Store

/-! Lines that leave and enter the display together with their node. The last one leaves first, so
that each remembers the place it had before all of them went; they come back in their order, each to
the place that it remembers or, when the display has become shorter, to its end. -/
namespace TruthTrees.Tree

/-- Takes lines out of the links and the display, the last one first. -/
def stow (t : Tree) (ids : List Nat) : Tree := ids.foldr (fun i t => t.detach i) t

def unstow (t : Tree) (ids : List Nat) : Tree :=
  ids.foldl (fun t i => (t.redisplay i).reattach i) t

theorem stow_eq_foldl (t : Tree) (ids : List Nat) : ids.reverse.foldl detach t = t.stow ids := by
  rw [List.foldl_reverse]
  rfl

@[simp] theorem stow_cons (t : Tree) (i : Nat) (ids : List Nat) :
    t.stow (i :: ids) = (t.stow ids).detach i := rfl

@[simp] theorem unstow_cons (t : Tree) (i : Nat) (ids : List Nat) :
    t.unstow (i :: ids) = ((t.redisplay i).reattach i).unstow ids := rfl

theorem SamePlaces.stow (t : Tree) (ids : List Nat) : SamePlaces t (t.stow ids) := by
  induction ids with
  | nil => exact SamePlaces.refl t
  | cons i ids ih => exact ih.trans (SamePlaces.detach _ i)

theorem SamePlaces.unstow (t : Tree) (ids : List Nat) : SamePlaces t (t.unstow ids) := by
  induction ids generalizing t with
  | nil => exact SamePlaces.refl t
  | cons i ids ih =>
    have h : SamePlaces t ((t.redisplay i).reattach i) :=
      (SamePlaces.redisplay t i).trans ((Relinked.refl _).reattach i).toSamePlaces
    exact h.trans (ih _)

/-- Exactly the stowed lines are gone. -/
theorem isLive_stow {t : Tree} (ids : List Nat) (j : Nat) :
    (t.stow ids).lines.isLive j = true ↔ j ∉ ids ∧ t.lines.isLive j = true := by
  induction ids with
  | nil => simp [Tree.stow]
  | cons i ids ih =>
    rw [stow_cons, isLive_detach, ih]
    simp [and_assoc]

section Leaving

variable {t : Tree} {ids : List Nat}

theorem isLive_of_sublist_cons (h : t.lines.Ordered) {i : Nat}
    (hids : (i :: ids).Sublist t.lines.order) : (t.stow ids).lines.isLive i = true :=
  (isLive_stow ids i).mpr ⟨(List.nodup_cons.mp (hids.nodup h.nodup)).1,
    (h.mem_iff i).mp (hids.subset (by simp))⟩

theorem ordered_stow (h : t.lines.Ordered) (hids : ids.Sublist t.lines.order) :
    (t.stow ids).lines.Ordered := by
  induction ids with
  | nil => exact h
  | cons i ids ih =>
    exact ordered_detach (ih ((List.sublist_cons_self i ids).trans hids))
      (isLive_of_sublist_cons h hids)

/-- The other lines keep their order when some are stowed. -/
theorem order_stow (h : t.lines.Ordered) (hids : ids.Sublist t.lines.order) :
    (t.stow ids).lines.order = t.lines.order.filter (· ∉ ids) := by
  induction ids with
  | nil => simp [Tree.stow]
  | cons i ids ih =>
    have hrest := (List.sublist_cons_self i ids).trans hids
    have hn : (t.lines.order.filter (· ∉ ids)).Nodup := h.nodup.filter _
    rw [stow_cons, order_detach (ordered_stow h hrest) (isLive_of_sublist_cons h hids), ih hrest,
      hn.erase_eq_filter, List.filter_filter]
    apply List.filter_congr
    intro j _
    by_cases hji : j = i <;> simp [hji]

/-- Lines that are stowed remember the places they had before. -/
theorem leftFrom_stow (h : t.lines.Ordered) (hids : ids.Sublist t.lines.order) (j : Nat) :
    (t.stow ids).lines.leftFrom j =
      if j ∈ ids then some (t.lines.order.idxOf j + 1) else t.lines.leftFrom j := by
  induction ids with
  | nil => simp [Tree.stow]
  | cons i ids ih =>
    have hi : i ∈ t.lines.order := hids.subset (by simp)
    have hrest := (List.sublist_cons_self i ids).trans hids
    rw [stow_cons, leftFrom_detach (ordered_stow h hrest) (isLive_of_sublist_cons h hids),
      ih hrest, order_stow h hrest]
    by_cases hji : j = i
    · subst hji
      rw [if_pos rfl, if_pos (by simp), List.idxOf_filter_of_suffix h.nodup hi]
      intro k _ hk
      have hk' : k ∈ ids := by simpa using hk
      exact ((List.singleton_sublist.mpr hk').cons_cons j).trans hids
    · rw [if_neg hji]
      simp [hji]

end Leaving

/-- The display after one line was put back. -/
theorem order_redisplay_reattach (t : Tree) (i : Nat) :
    ((t.redisplay i).reattach i).lines.order =
      t.lines.order.insertIdx (min (t.lines.number i - 1) t.lines.order.length) i :=
  ((Relinked.refl (t.redisplay i)).reattach i).order.trans (t.lines.order_reinstate i)

/-- A line that returns leaves the others that are away their numbers. -/
theorem leftFrom_redisplay_reattach {t : Tree} (h : t.lines.Ordered) {i : Nat}
    (hi : i < t.lines.size) (hdead : t.lines.isLive i ≠ true) (j : Nat) :
    ((t.redisplay i).reattach i).lines.leftFrom j =
      if j = i then none else t.lines.leftFrom j :=
  (((Relinked.refl (t.redisplay i)).reattach i).leftFrom j).trans
    (h.leftFrom_reinstate hi hdead j)

theorem ordered_redisplay_reattach {t : Tree} (h : t.lines.Ordered) {i : Nat}
    (hi : i < t.lines.size) (hdead : t.lines.isLive i ≠ true) :
    ((t.redisplay i).reattach i).lines.Ordered :=
  (h.reinstate hi hdead).congr ((Relinked.refl (t.redisplay i)).reattach i).display

/-- Lines that wait to be put back, in the order of the places that they left. The condition tells
these lines, and displayed ones that belong before them, from the rest of the display. -/
structure Waiting (t : Tree) (ids : List Nat) (p : Nat → Bool) : Prop where
  ordered : t.lines.Ordered
  known : ∀ i ∈ ids, i < t.lines.size
  dead : ∀ i ∈ ids, t.lines.isLive i ≠ true
  chosen : ∀ i ∈ ids, p i = true
  sorted : ids.Pairwise (fun i j => t.lines.number i < t.lines.number j)
  before : ∀ i ∈ t.lines.order.filter p, ∀ j ∈ ids, t.lines.number i < t.lines.number j
  counted : ∀ i ∈ ids, 0 < t.lines.number i

namespace Waiting

variable {t : Tree} {i : Nat} {ids : List Nat} {p : Nat → Bool}

abbrev entry (t : Tree) (i : Nat) : Nat := min (t.lines.number i - 1) t.lines.order.length

theorem entry_lt_number (h : Waiting t (i :: ids) p) : entry t i < t.lines.number i := by
  have hpos := h.counted i (by simp)
  rw [entry]
  omega

/-- Chosen lines that are displayed stand before the place where the next line enters. -/
theorem idxOf_lt_entry (h : Waiting t (i :: ids) p) {j : Nat} (hj : j ∈ t.lines.order)
    (hpj : p j = true) : t.lines.order.idxOf j < entry t i := by
  have hlt := h.before j (List.mem_filter.mpr ⟨hj, hpj⟩) i (by simp)
  have hlen := List.idxOf_lt_length_of_mem hj
  rw [h.ordered.numbered j ((h.ordered.mem_iff j).mp hj)] at hlt
  rw [entry]
  omega

/-- So it enters behind them. -/
theorem filter_next (h : Waiting t (i :: ids) p) :
    ((t.redisplay i).reattach i).lines.order.filter p = t.lines.order.filter p ++ [i] := by
  rw [order_redisplay_reattach]
  exact List.filter_insertIdx_of_lt h.ordered.nodup (Nat.min_le_right _ _) (h.chosen i (by simp))
    (fun j hj hpj => h.idxOf_lt_entry hj hpj)

theorem leftFrom_next (h : Waiting t (i :: ids) p) {j : Nat} (hj : j ∈ ids) :
    ((t.redisplay i).reattach i).lines.leftFrom j = t.lines.leftFrom j := by
  have hlt := List.rel_of_pairwise_cons h.sorted hj
  have hji : j ≠ i := by
    rintro rfl
    exact Nat.lt_irrefl _ hlt
  rw [leftFrom_redisplay_reattach h.ordered (h.known i (by simp)) (h.dead i (by simp)), if_neg hji]

/-- Chosen lines that are displayed then still have smaller numbers than those that wait: the
number of the line that has entered is at most the one that it remembered. -/
theorem number_next_lt (h : Waiting t (i :: ids) p) {a j : Nat}
    (ha : a ∈ t.lines.order.filter p ++ [i]) (hj : j ∈ ids) :
    ((t.redisplay i).reattach i).lines.order.idxOf a + 1 < t.lines.number j := by
  have hle : entry t i ≤ t.lines.order.length := Nat.min_le_right _ _
  rw [order_redisplay_reattach]
  rcases List.mem_append.mp ha with ha | ha
  · have hat := List.mem_of_mem_filter ha
    rw [List.idxOf_insertIdx_of_lt hat (h.idxOf_lt_entry hat (List.mem_filter.mp ha).2),
      ← h.ordered.numbered a ((h.ordered.mem_iff a).mp hat)]
    exact h.before a ha j (by simp [hj])
  · obtain rfl : a = i := by simpa using ha
    have hnot : a ∉ t.lines.order := fun hc =>
      h.dead a (by simp) ((h.ordered.mem_iff a).mp hc)
    rw [List.idxOf_insertIdx_self hle hnot]
    have hnext := List.rel_of_pairwise_cons h.sorted hj
    have hentry := h.entry_lt_number
    omega

/-- After one line was put back, the others wait as before. -/
theorem next (h : Waiting t (i :: ids) p) : Waiting ((t.redisplay i).reattach i) ids p := by
  have hsize : ((t.redisplay i).reattach i).lines.size = t.lines.size :=
    ((SamePlaces.redisplay t i).trans ((Relinked.refl _).reattach i).toSamePlaces).size
  have hknown : ∀ j ∈ ids, j < t.lines.size := fun j hj => h.known j (by simp [hj])
  have hdead : ∀ j ∈ ids, t.lines.isLive j ≠ true := fun j hj => h.dead j (by simp [hj])
  have hordered : ((t.redisplay i).reattach i).lines.Ordered :=
    ordered_redisplay_reattach h.ordered (h.known i (by simp)) (h.dead i (by simp))
  have hnumber : ∀ j ∈ ids, ((t.redisplay i).reattach i).lines.number j = t.lines.number j :=
    fun j hj => Register.number_congr_of_dead (hknown j hj) (hdead j hj) (h.leftFrom_next hj)
  refine ⟨hordered, ?_, ?_, ?_, ?_, ?_, ?_⟩
  · exact fun j hj => hsize ▸ hknown j hj
  · exact fun j hj =>
      Register.not_isLive_of_leftFrom_eq (hknown j hj) (hdead j hj) (h.leftFrom_next hj)
  · exact fun j hj => h.chosen j (by simp [hj])
  · apply (List.pairwise_cons.mp h.sorted).2.imp_of_mem
    intro a b ha hb hab
    rw [hnumber a ha, hnumber b hb]
    exact hab
  · intro a ha j hj
    have hlive := (hordered.mem_iff a).mp (List.mem_of_mem_filter ha)
    rw [h.filter_next] at ha
    rw [hnumber j hj, hordered.numbered a hlive]
    exact h.number_next_lt ha hj
  · intro j hj
    rw [hnumber j hj]
    exact h.counted j (by simp [hj])

end Waiting

/-- What holds of a tree into which lines were put back: they stand behind the chosen ones that were
displayed before, and the order of the rest is the same. -/
structure Unstowed (t u : Tree) (ids : List Nat) (p : Nat → Bool) : Prop where
  ordered : u.lines.Ordered
  chosen : u.lines.order.filter p = t.lines.order.filter p ++ ids
  others : ∀ q : Nat → Bool, (∀ i ∈ ids, q i = false) →
    u.lines.order.filter q = t.lines.order.filter q
  leftFrom : ∀ j, u.lines.leftFrom j = if j ∈ ids then none else t.lines.leftFrom j

/-- Lines that wait come back one after the other, in the order of the places they left. -/
theorem Waiting.unstowed {ids : List Nat} {p : Nat → Bool} {t : Tree} (h : Waiting t ids p) :
    Unstowed t (t.unstow ids) ids p := by
  induction ids generalizing t with
  | nil => exact ⟨h.ordered, by simp [unstow], fun _ _ => rfl, fun j => by simp [unstow]⟩
  | cons i ids ih =>
    have hrest := ih h.next
    refine ⟨hrest.ordered, ?_, ?_, ?_⟩
    · rw [unstow_cons, hrest.chosen, h.filter_next, List.append_assoc, List.singleton_append]
    · intro q hq
      rw [unstow_cons, hrest.others q (fun j hj => hq j (by simp [hj])),
        order_redisplay_reattach, List.filter_insertIdx_of_false (hq i (by simp))]
    · intro j
      rw [unstow_cons, hrest.leftFrom,
        leftFrom_redisplay_reattach h.ordered (h.known i (by simp)) (h.dead i (by simp))]
      by_cases hj : j ∈ ids
      · simp [hj]
      · by_cases hji : j = i <;> simp [hj, hji]

end TruthTrees.Tree
