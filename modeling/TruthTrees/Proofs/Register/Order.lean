import TruthTrees.Proofs.Register.Entries

/-! The display order of a register: it lists the live entries once each, and the numbers that are
written on them are positions in it. This is so after every operation, as each numbers anew what it
has moved. A list of live entries that is ordered by number is a part of the display order, and it
is told by which entries it holds. So such a list is written here as a filtered display order, and
`place` is the operation that lets one more entry through. -/
namespace TruthTrees.Register

variable {α : Type}

/-- The display order lists the live entries, and each of them once. A live entry has the number of
its place written on it. -/
structure Ordered (r : Register α) : Prop where
  nodup : r.order.Nodup
  mem_iff : ∀ i, i ∈ r.order ↔ r.isLive i = true
  numbered : ∀ i, r.isLive i = true → r.number i = r.order.idxOf i + 1

theorem ordered_empty : (empty : Register α).Ordered :=
  ⟨List.nodup_nil, fun i => by simp [empty, isLive], fun i h => by simp [empty, isLive] at h⟩

/-- Two registers with as many entries that show the same of them under the same numbers, whatever
the entries hold. -/
structure SameDisplay {β : Type} (r : Register α) (r' : Register β) : Prop where
  size : r'.size = r.size
  order : r'.order = r.order
  isLive : ∀ i, r'.isLive i = r.isLive i
  number : ∀ i, r'.number i = r.number i

namespace SameDisplay

variable {r r' r'' : Register α}

theorem refl (r : Register α) : SameDisplay r r := ⟨rfl, rfl, fun _ => rfl, fun _ => rfl⟩

theorem trans (h : SameDisplay r r') (h' : SameDisplay r' r'') : SameDisplay r r'' where
  size := h'.size.trans h.size
  order := h'.order.trans h.order
  isLive i := (h'.isLive i).trans (h.isLive i)
  number i := (h'.number i).trans (h.number i)

theorem symm (h : SameDisplay r r') : SameDisplay r' r where
  size := h.size.symm
  order := h.order.symm
  isLive i := (h.isLive i).symm
  number i := (h.number i).symm

theorem modify (r : Register α) (i : Nat) (f : α → α) : SameDisplay r (r.modify i f) :=
  ⟨size_modify _ _ _, rfl, fun _ => isLive_modify _ _ _ _, fun _ => number_modify _ _ _ _⟩

theorem modifyAll (r : Register α) (ids : List Nat) (f : α → α) :
    SameDisplay r (r.modifyAll ids f) :=
  ⟨size_modifyAll _ _ _, rfl, fun _ => isLive_modifyAll _ _ _ _,
    fun _ => number_modifyAll _ _ _ _⟩

/-- Registers with the same display and the same values are the same. -/
theorem eq_of_get [Inhabited α] (h : SameDisplay r r') (hget : ∀ i < r.size, r'.get i = r.get i) :
    r' = r :=
  ext_entries h.size hget (fun i _ => h.number i) (fun i _ => h.isLive i) h.order

end SameDisplay

theorem Ordered.congr {β : Type} {r : Register α} {r' : Register β} (h : r.Ordered)
    (hd : SameDisplay r r') : r'.Ordered where
  nodup := hd.order ▸ h.nodup
  mem_iff i := by rw [hd.order, h.mem_iff, hd.isLive]
  numbered i hi := by
    rw [hd.isLive] at hi
    rw [hd.number, hd.order, h.numbered i hi]

theorem Ordered.lt_size {r : Register α} (h : r.Ordered) {i : Nat} (hi : i ∈ r.order) :
    i < r.size :=
  lt_size_of_isLive ((h.mem_iff i).mp hi)

/-- The entries in front of a change of the display have the numbers of their places after it. -/
theorem Ordered.number_of_mem_take {r : Register α} (h : r.Ordered) {order : List Nat} {i k : Nat}
    (htake : order.take k = r.order.take k) (hi : i ∈ order.take k) :
    r.number i = order.idxOf i + 1 := by
  rw [htake] at hi
  rw [List.idxOf_eq_of_take_eq htake hi]
  exact h.numbered i ((h.mem_iff i).mp (List.mem_of_mem_take hi))

/-- Numbering anew from where the display changed gives all that is displayed its number. Only which
entries count as live may still differ from what is displayed. -/
theorem ordered_of_renumber {r r' : Register α} {k : Nat} (hnodup : r.order.Nodup)
    (hfront : ∀ i ∈ r.order.take k, r.number i = r.order.idxOf i + 1)
    (hsize : r'.size = r.size) (horder : r'.order = r.order)
    (hnumber : ∀ i, r'.number i = (r.renumber k).number i)
    (hmem : ∀ i, i ∈ r.order ↔ r'.isLive i = true) : r'.Ordered where
  nodup := horder ▸ hnodup
  mem_iff i := by rw [horder, hmem]
  numbered i hi := by
    rw [hnumber, horder, number_renumber_of_mem hnodup hfront ((hmem i).mpr hi)]
    exact hsize ▸ lt_size_of_isLive hi

/-- An entry put in at any place of the display leaves the register in order. -/
theorem Ordered.insert {r : Register α} (h : r.Ordered) {position : Nat}
    (hp : position ≤ r.order.length) (a : α) : (r.insert position a).Ordered := by
  have hnew : r.size ∉ r.order := fun hmem => absurd (h.lt_size hmem) (Nat.lt_irrefl _)
  refine ordered_of_renumber (r := r.enter position a) (k := position) ?_ ?_
    ((Renumbered.renumber _ _).size) ((Renumbered.renumber _ _).order) (fun _ => rfl) ?_
  · rw [order_enter, (List.perm_insertIdx r.size r.order hp).nodup_iff]
    exact List.nodup_cons.mpr ⟨hnew, h.nodup⟩
  · intro i hi
    have htake := List.take_insertIdx_eq_take_of_le r.order r.size position position (Nat.le_refl _)
    rw [order_enter] at hi
    have hne : i ≠ r.size := fun hc => hnew (hc ▸ List.mem_of_mem_take (htake ▸ hi))
    rw [number_enter, if_neg hne, order_enter, h.number_of_mem_take htake hi]
  · intro i
    rw [order_enter, List.mem_insertIdx hp, isLive_insert, h.mem_iff]

theorem Ordered.push {r : Register α} (h : r.Ordered) (a : α) : (r.push a).Ordered := by
  rw [push_eq_insert]
  exact h.insert (Nat.le_refl _) a

/-- The entry that the stored number names is the one that goes. -/
theorem Ordered.order_withdraw {r : Register α} (h : r.Ordered) {i : Nat}
    (hi : r.isLive i = true) : (r.withdraw i).order = r.order.erase i := by
  rw [order_withdraw_eq, h.numbered i hi, Nat.add_sub_cancel, List.eraseIdx_idxOf_eq_erase]

/-- Withdrawing an entry leaves the register in order, as the later ones are renumbered. -/
theorem Ordered.withdraw {r : Register α} (h : r.Ordered) {i : Nat} (hi : r.isLive i = true) :
    (r.withdraw i).Ordered := by
  have horder := h.order_withdraw hi
  have htake : (r.order.erase i).take (r.number i - 1) = r.order.take (r.number i - 1) := by
    rw [← horder, order_withdraw_eq, List.take_eraseIdx_eq_take_of_le _ _ _ (Nat.le_refl _)]
  rw [order_withdraw_eq] at horder
  refine ordered_of_renumber (r := { r with order := r.order.erase i }) (k := r.number i - 1)
    (h.nodup.erase i) (fun j => h.number_of_mem_take htake) (size_withdraw r i) ?_ ?_ ?_
  · exact (order_withdraw_eq r i).trans horder
  · intro j
    rw [Register.withdraw, number_setLive, horder]
  · intro j
    rw [h.nodup.mem_erase_iff, isLive_withdraw, h.mem_iff]

/-- An entry that returns leaves the register in order, as the later ones are renumbered. -/
theorem Ordered.reinstate {r : Register α} (h : r.Ordered) {i : Nat} (hi : i < r.size)
    (hdead : r.isLive i ≠ true) : (r.reinstate i).Ordered := by
  have hle : min (r.number i - 1) r.order.length ≤ r.order.length := Nat.min_le_right _ _
  have htake := List.take_insertIdx_eq_take_of_le r.order i (min (r.number i - 1) r.order.length) _
    (Nat.le_refl _)
  refine ordered_of_renumber
    (r := { r with order := r.order.insertIdx (min (r.number i - 1) r.order.length) i })
    (k := min (r.number i - 1) r.order.length) ?_ (fun j => h.number_of_mem_take htake)
    (size_reinstate r i) (order_reinstate r i) (fun j => number_setLive _ _ _ _) ?_
  · rw [(List.perm_insertIdx i r.order hle).nodup_iff]
    exact List.nodup_cons.mpr ⟨fun hmem => hdead ((h.mem_iff i).mp hmem), h.nodup⟩
  · intro j
    rw [List.mem_insertIdx hle, isLive_reinstate, h.mem_iff]
    simp [hi]

/-- No more entries are displayed than there are. -/
theorem Ordered.length_le_size {r : Register α} (h : r.Ordered) : r.order.length ≤ r.size := by
  have hsub : r.order ⊆ List.range r.size := fun i hi => List.mem_range.mpr (h.lt_size hi)
  simpa using (List.subperm_of_subset h.nodup hsub).length_le

/-- The display order around a live entry. -/
theorem Ordered.split {r : Register α} (h : r.Ordered) {i : Nat} (hi : r.isLive i = true) :
    ∃ before after, r.order = before ++ i :: after ∧ i ∉ before ∧ i ∉ after := by
  obtain ⟨before, after, horder⟩ := List.append_of_mem ((h.mem_iff i).mpr hi)
  have hnodup := h.nodup
  rw [horder, List.nodup_append] at hnodup
  refine ⟨before, after, horder, ?_, (List.nodup_cons.mp hnodup.2.1).1⟩
  intro hmem
  exact hnodup.2.2 i hmem i (by simp) rfl

/-- An entry stands before another one exactly when its number is smaller. -/
theorem Ordered.number_lt_iff {r : Register α} (h : r.Ordered) {i j : Nat}
    (hi : r.isLive i = true) (hj : r.isLive j = true) :
    r.number i < r.number j ↔ [i, j].Sublist r.order := by
  rw [h.numbered i hi, h.numbered j hj, Nat.add_lt_add_iff_right]
  exact List.idxOf_lt_idxOf_iff h.nodup ((h.mem_iff i).mpr hi) ((h.mem_iff j).mpr hj)

/-- A part of the display order is ordered by number. -/
theorem Ordered.pairwise_number {r : Register α} (h : r.Ordered) {ids : List Nat}
    (hsub : ids.Sublist r.order) : ids.Pairwise (fun i j => r.number i < r.number j) := by
  rw [List.pairwise_iff_forall_sublist]
  intro i j hij
  have hlive : ∀ k ∈ [i, j], r.isLive k = true := fun k hk =>
    (h.mem_iff k).mp ((hij.trans hsub).subset hk)
  exact (h.number_lt_iff (hlive i (by simp)) (hlive j (by simp))).mpr (hij.trans hsub)

/-- The entry at a display position has the number of that position. -/
theorem Ordered.number_getElem {r : Register α} (h : r.Ordered) {k : Nat}
    (hk : k < r.order.length) : r.number r.order[k] = k + 1 := by
  have hlive := (h.mem_iff _).mp (List.getElem_mem hk)
  rw [h.numbered _ hlive, h.nodup.idxOf_getElem k hk]

/-- An entry goes between those with smaller numbers and the rest. -/
theorem place_append {r : Register α} {i : Nat} {before after : List Nat}
    (hbefore : ∀ j ∈ before, r.number j < r.number i)
    (hafter : ∀ j ∈ after, r.number i ≤ r.number j) :
    r.place i (before ++ after) = before ++ i :: after := by
  induction before with
  | nil =>
    cases after with
    | nil => rfl
    | cons j after => simp [place, hafter j (by simp)]
  | cons j before ih =>
    have hj : ¬ r.number i ≤ r.number j := Nat.not_le_of_lt (hbefore j (by simp))
    rw [List.cons_append, place, if_neg hj, ih (fun k hk => hbefore k (by simp [hk])),
      List.cons_append]

@[simp] theorem length_place (r : Register α) (i : Nat) (ids : List Nat) :
    (r.place i ids).length = ids.length + 1 := by
  induction ids with
  | nil => rfl
  | cons j ids ih =>
    unfold place
    split
    · rfl
    · rw [List.length_cons, ih, List.length_cons]

theorem filter_place (r : Register α) (i : Nat) (ids : List Nat) :
    (r.place i ids).filter (· ≠ i) = ids.filter (· ≠ i) := by
  induction ids with
  | nil => simp [place]
  | cons j ids ih =>
    unfold place
    split
    · simp
    · rw [List.filter_cons, List.filter_cons, ih]

/-- Only the numbers matter for placing. -/
theorem place_congr {β : Type} {r : Register α} {r' : Register β}
    (h : ∀ j, r'.number j = r.number j) (i : Nat) (ids : List Nat) :
    r'.place i ids = r.place i ids := by
  induction ids with
  | nil => rfl
  | cons j ids ih => simp only [place, h, ih]

/-- Placing an entry into a part of the display order lets that entry through. -/
theorem Ordered.place_filter {r : Register α} (h : r.Ordered) {i : Nat} (hi : r.isLive i = true)
    {p q : Nat → Bool} (hp : p i = false) (hq : q i = true)
    (hpq : ∀ j ∈ r.order, j ≠ i → q j = p j) :
    r.place i (r.order.filter p) = r.order.filter q := by
  obtain ⟨before, after, horder, hb, ha⟩ := h.split hi
  have hnumber : ∀ j k, [j, k].Sublist r.order → r.number j < r.number k := fun j k hjk =>
    List.rel_of_pairwise_cons (h.pairwise_number hjk) (by simp)
  have hbefore : ∀ j ∈ before, [j, i].Sublist r.order := fun j hj => by
    rw [horder]
    exact (List.singleton_sublist.mpr hj).append (List.singleton_sublist.mpr (by simp))
  have hafter : ∀ j ∈ after, [i, j].Sublist r.order := fun j hj => by
    rw [horder]
    exact ((List.singleton_sublist.mpr hj).cons_cons i).trans (List.sublist_append_right _ _)
  have hfilter : ∀ l : List Nat, l ⊆ r.order → i ∉ l → l.filter q = l.filter p := by
    intro l hl hil
    apply List.filter_congr
    intro j hj
    exact hpq j (hl hj) (fun hji => hil (hji ▸ hj))
  -- Both conditions agree away from the entry, so what the second one lets through is what the
  -- first one does, with the entry in the middle.
  have hsplit : r.order.filter q = before.filter p ++ i :: after.filter p := by
    have hbsub : before ⊆ r.order := by simp [horder]
    have hasub : after ⊆ r.order := fun j hj => by simp [horder, hj]
    conv_lhs => rw [horder]
    rw [List.filter_append, List.filter_cons_of_pos hq, hfilter before hbsub hb,
      hfilter after hasub ha]
  have hrest : r.order.filter p = before.filter p ++ after.filter p := by
    conv_lhs => rw [horder]
    rw [List.filter_append, List.filter_cons_of_neg (by simp [hp])]
  rw [hsplit, hrest]
  apply place_append
  · exact fun j hj => hnumber j i (hbefore j (List.mem_of_mem_filter hj))
  · exact fun j hj => Nat.le_of_lt (hnumber i j (hafter j (List.mem_of_mem_filter hj)))

theorem Ordered.erase_eq_filter {r : Register α} (h : r.Ordered) (i : Nat) :
    r.order.erase i = r.order.filter (· ≠ i) := by
  rw [h.nodup.erase_eq_filter]
  apply List.filter_congr
  intro j _
  by_cases hj : j = i <;> simp [hj]

theorem filter_reinstate_of_false (r : Register α) {i : Nat} {p : Nat → Bool} (hp : p i = false) :
    (r.reinstate i).order.filter p = r.order.filter p := by
  rw [order_reinstate, List.filter_insertIdx_of_false hp]

/-- An entry that came into the display is placed the same way into any part of the display that
lets it through. -/
theorem Ordered.place_insertIdx {r : Register α} (h : r.Ordered) {l : List Nat} {k i : Nat}
    (horder : r.order = l.insertIdx k i) (hi : r.isLive i = true) (hnot : i ∉ l)
    {p : Nat → Bool} (hp : p i = true) : r.place i (l.filter p) = r.order.filter p := by
  have hrest : l.filter p = r.order.filter (fun j => j != i && p j) := by
    rw [horder, List.filter_insertIdx_of_false (by simp)]
    apply List.filter_congr
    intro j hj
    have hji : j ≠ i := fun hc => hnot (hc ▸ hj)
    simp [hji]
  rw [hrest]
  apply h.place_filter hi
  · simp
  · exact hp
  · intro j _ hj
    simp [hj]

theorem Ordered.place_reinstate {r : Register α} (h : r.Ordered) {i : Nat} (hi : i < r.size)
    (hdead : r.isLive i ≠ true) {p : Nat → Bool} (hp : p i = true) :
    (r.reinstate i).place i (r.order.filter p) = (r.reinstate i).order.filter p :=
  (h.reinstate hi hdead).place_insertIdx (r.order_reinstate i)
    ((isLive_reinstate _ _ _).mpr (Or.inl ⟨rfl, hi⟩)) (fun hc => hdead ((h.mem_iff i).mp hc)) hp

/-- The number under which an entry was displayed last, if it exists and is withdrawn. -/
def leftFrom (r : Register α) (i : Nat) : Option Nat :=
  if i < r.size ∧ r.isLive i = false then some (r.number i) else none

section LeftFrom

variable {r r' : Register α} {i j : Nat}

theorem isLive_iff (r : Register α) (i : Nat) :
    r.isLive i = true ↔ i < r.size ∧ r.leftFrom i = none := by
  unfold leftFrom
  constructor
  · intro h
    exact ⟨lt_size_of_isLive h, if_neg (by simp [h])⟩
  · rintro ⟨hi, hnone⟩
    by_contra hdead
    rw [if_pos ⟨hi, by simpa using hdead⟩] at hnone
    simp at hnone

theorem leftFrom_of_dead (hi : i < r.size) (hdead : r.isLive i ≠ true) :
    r.leftFrom i = some (r.number i) :=
  if_pos ⟨hi, by simpa using hdead⟩

/-- A withdrawn entry keeps the number it was withdrawn from. -/
theorem leftFrom_eq_some_iff {k : Nat} :
    r.leftFrom i = some k ↔ i < r.size ∧ r.isLive i ≠ true ∧ r.number i = k := by
  unfold leftFrom
  by_cases h : i < r.size ∧ r.isLive i = false
  · simp [h]
  · rw [if_neg h]
    simp only [reduceCtorEq, false_iff]
    exact fun hc => h ⟨hc.1, by simpa using hc.2.1⟩

/-- Only the numbers of withdrawn entries are remembered. -/
theorem leftFrom_congr {β : Type} {r : Register α} {r' : Register β} (hsize : r'.size = r.size)
    (hlive : r'.isLive i = r.isLive i) (hnumber : r.isLive i ≠ true → r'.number i = r.number i) :
    r'.leftFrom i = r.leftFrom i := by
  unfold leftFrom
  rw [hsize, hlive]
  by_cases h : i < r.size ∧ r.isLive i = false
  · rw [if_pos h, if_pos h, hnumber (by simp [h.2])]
  · rw [if_neg h, if_neg h]

theorem SameDisplay.leftFrom {β : Type} {r : Register α} {r' : Register β}
    (h : SameDisplay r r') (i : Nat) : r'.leftFrom i = r.leftFrom i :=
  leftFrom_congr h.size (h.isLive i) (fun _ => h.number i)

@[simp] theorem leftFrom_modify (r : Register α) (i j : Nat) (f : α → α) :
    (r.modify i f).leftFrom j = r.leftFrom j :=
  (SameDisplay.modify r i f).leftFrom j

theorem Ordered.number_eq (h : r.Ordered) (hi : i < r.size) :
    r.number i = (r.leftFrom i).getD (r.order.idxOf i + 1) := by
  by_cases hlive : r.isLive i = true
  · rw [((r.isLive_iff i).mp hlive).2, Option.getD_none, h.numbered i hlive]
  · rw [leftFrom_of_dead hi hlive, Option.getD_some]

/-- The numbers of a register are told by its order and by what its withdrawn entries remember. -/
theorem Ordered.number_congr (h : r.Ordered) (h' : r'.Ordered) (hi : i < r.size)
    (hi' : i < r'.size) (hleft : r'.leftFrom i = r.leftFrom i)
    (horder : r'.order = r.order) : r'.number i = r.number i := by
  rw [h.number_eq hi, h'.number_eq hi', hleft, horder]

theorem number_congr_of_dead (hi : i < r.size) (hdead : r.isLive i ≠ true)
    (hleft : r'.leftFrom i = r.leftFrom i) : r'.number i = r.number i :=
  (leftFrom_eq_some_iff.mp (hleft.trans (leftFrom_of_dead hi hdead))).2.2

theorem not_isLive_of_leftFrom_eq (hi : i < r.size) (hdead : r.isLive i ≠ true)
    (hleft : r'.leftFrom i = r.leftFrom i) : r'.isLive i ≠ true :=
  (leftFrom_eq_some_iff.mp (hleft.trans (leftFrom_of_dead hi hdead))).2.1

/-- Ordered registers that hold the same, remember the same and are displayed in the same order are
the same. -/
theorem Ordered.ext [Inhabited α] (h : r.Ordered) (h' : r'.Ordered) (hsize : r'.size = r.size)
    (hget : ∀ i < r.size, r'.get i = r.get i) (hleft : ∀ i < r.size, r'.leftFrom i = r.leftFrom i)
    (horder : r'.order = r.order) : r' = r := by
  apply ext_entries hsize hget
  · intro i hi
    exact h.number_congr h' hi (hsize.symm ▸ hi) (hleft i hi) horder
  · intro i hi
    rw [Bool.eq_iff_iff, isLive_iff, isLive_iff, hsize, hleft i hi]
  · exact horder

theorem Ordered.number_insert_of_dead (h : r.Ordered) {position : Nat}
    (hp : position ≤ r.order.length) (a : α) (hj : j < r.size) (hdead : r.isLive j ≠ true) :
    (r.insert position a).number j = r.number j := by
  have hnodup := (h.insert hp a).nodup
  have hnot : j ∉ (r.enter position a).order := by
    rw [order_enter, List.mem_insertIdx hp, h.mem_iff]
    rintro (rfl | hlive)
    · exact Nat.lt_irrefl _ hj
    · exact hdead hlive
  rw [order_insert] at hnodup
  rw [Register.insert, number_renumber_of_notMem hnodup hnot, number_enter,
    if_neg (Nat.ne_of_lt hj)]

/-- A new entry leaves the withdrawn ones their numbers. -/
theorem Ordered.leftFrom_insert (h : r.Ordered) {position : Nat} (hp : position ≤ r.order.length)
    (a : α) (j : Nat) : (r.insert position a).leftFrom j = r.leftFrom j := by
  by_cases hlive : r.isLive j = true
  · rw [((r.isLive_iff j).mp hlive).2,
      ((isLive_iff _ j).mp ((isLive_insert _ _ _ _).mpr (Or.inr hlive))).2]
  · by_cases hj : j < r.size
    · have hdead : (r.insert position a).isLive j ≠ true := by
        rw [ne_eq, isLive_insert]
        rintro (rfl | hc)
        · exact Nat.lt_irrefl _ hj
        · exact hlive hc
      rw [leftFrom_of_dead hj hlive, leftFrom_of_dead (by rw [size_insert]; omega) hdead,
        h.number_insert_of_dead hp a hj hlive]
    · have hnone : ¬ (j < (r.insert position a).size ∧
          (r.insert position a).isLive j = false) := by
        rintro ⟨hlt, hdead⟩
        rw [size_insert] at hlt
        have hnew : (r.insert position a).isLive j = true :=
          (isLive_insert _ _ _ _).mpr (Or.inl (by omega))
        simp [hnew] at hdead
      unfold leftFrom
      rw [if_neg hnone, if_neg (fun hc => hj hc.1)]

theorem Ordered.leftFrom_push (h : r.Ordered) (a : α) (j : Nat) :
    (r.push a).leftFrom j = r.leftFrom j := by
  rw [push_eq_insert, h.leftFrom_insert (Nat.le_refl _)]

/-- The entry that is withdrawn keeps its number, as do those that were withdrawn before. -/
theorem Ordered.number_withdraw_of_dead (h : r.Ordered) (hi : r.isLive i = true)
    (hdead : j = i ∨ r.isLive j ≠ true) : (r.withdraw i).number j = r.number j := by
  have horder := h.order_withdraw hi
  have hnodup := (h.withdraw hi).nodup
  rw [order_withdraw_eq] at horder hnodup
  have hnot : j ∉ r.order.eraseIdx (r.number i - 1) := by
    rw [horder, h.nodup.mem_erase_iff, h.mem_iff]
    rintro ⟨hji, hlive⟩
    exact hdead.elim hji (fun hc => hc hlive)
  rw [Register.withdraw, number_setLive]
  exact number_renumber_of_notMem (r := { r with order := _ }) hnodup hnot _

/-- The withdrawn entry keeps the number it had in the display. -/
theorem Ordered.leftFrom_withdraw (h : r.Ordered) (hi : r.isLive i = true) (j : Nat) :
    (r.withdraw i).leftFrom j =
      if j = i then some (r.order.idxOf i + 1) else r.leftFrom j := by
  by_cases hji : j = i
  · subst hji
    have hdead : (r.withdraw j).isLive j ≠ true := by
      rw [ne_eq, isLive_withdraw]
      exact fun hc => hc.1 rfl
    rw [if_pos rfl, leftFrom_of_dead (by rw [size_withdraw]; exact lt_size_of_isLive hi) hdead,
      h.number_withdraw_of_dead hi (Or.inl rfl), h.numbered j hi]
  · have hlive : (r.withdraw i).isLive j = r.isLive j := by
      rw [Bool.eq_iff_iff, isLive_withdraw]
      exact ⟨And.right, fun hc => ⟨hji, hc⟩⟩
    rw [if_neg hji]
    exact leftFrom_congr (size_withdraw _ _) hlive
      (fun hj => h.number_withdraw_of_dead hi (Or.inr hj))

theorem Ordered.number_reinstate_of_dead (h : r.Ordered) (hi : i < r.size)
    (hdead : r.isLive i ≠ true) (hji : j ≠ i) (hj : r.isLive j ≠ true) :
    (r.reinstate i).number j = r.number j := by
  have hnodup := (h.reinstate hi hdead).nodup
  have hnot : j ∉ (r.reinstate i).order := by
    rw [(h.reinstate hi hdead).mem_iff, isLive_reinstate]
    exact fun hc => hc.elim (fun hc => hji hc.1) hj
  rw [order_reinstate] at hnodup hnot
  rw [Register.reinstate, number_setLive]
  exact number_renumber_of_notMem (r := { r with order := _ }) hnodup hnot _

/-- Only the entry that returns gives up the number it left with. -/
theorem Ordered.leftFrom_reinstate (h : r.Ordered) (hi : i < r.size) (hdead : r.isLive i ≠ true)
    (j : Nat) : (r.reinstate i).leftFrom j = if j = i then none else r.leftFrom j := by
  by_cases hji : j = i
  · subst hji
    rw [if_pos rfl, ((isLive_iff _ j).mp ((isLive_reinstate _ _ _).mpr (Or.inl ⟨rfl, hi⟩))).2]
  · have hlive : (r.reinstate i).isLive j = r.isLive j := by
      rw [Bool.eq_iff_iff, isLive_reinstate]
      exact ⟨fun hc => hc.resolve_left (fun hc => hji hc.1), Or.inr⟩
    rw [if_neg hji]
    exact leftFrom_congr (size_reinstate _ _) hlive
      (fun hj => h.number_reinstate_of_dead hi hdead hji hj)

/-- An entry that is withdrawn and put back stands where it stood. -/
theorem Ordered.reinstate_withdraw [Inhabited α] (h : r.Ordered) (hi : r.isLive i = true) :
    (r.withdraw i).reinstate i = r := by
  have hlt := lt_size_of_isLive hi
  have hmem := (h.mem_iff i).mpr hi
  have hidx : r.order.idxOf i < r.order.length := List.idxOf_lt_length_of_mem hmem
  have hlt' : i < (r.withdraw i).size := by rwa [size_withdraw]
  have hdead : (r.withdraw i).isLive i ≠ true := by
    rw [ne_eq, isLive_withdraw]
    exact fun hc => hc.1 rfl
  apply h.ext ((h.withdraw hi).reinstate hlt' hdead)
  · rw [size_reinstate, size_withdraw]
  · intro j _
    rw [get_reinstate, get_withdraw]
  · intro j _
    rw [(h.withdraw hi).leftFrom_reinstate hlt' hdead, h.leftFrom_withdraw hi]
    by_cases hji : j = i
    · rw [if_pos hji, hji, ((r.isLive_iff i).mp hi).2]
    · rw [if_neg hji, if_neg hji]
  · -- The remembered place is still within the display, so it is not cut down to its length.
    rw [order_reinstate, h.number_withdraw_of_dead hi (Or.inl rfl), h.numbered i hi,
      Nat.add_sub_cancel, h.order_withdraw hi, List.length_erase_of_mem hmem,
      Nat.min_eq_left (by omega), ← List.eraseIdx_idxOf_eq_erase,
      List.insertIdx_eraseIdx_self (by omega)]
    apply List.ext_getElem (by simp)
    intro k hk _
    rw [List.getElem_set]
    split
    · rename_i hki
      subst hki
      rw [List.getElem_idxOf]
    · rfl

end LeftFrom

/-- Every entry has had a number written on it, live or not, and numbers start at one. -/
def Counted (r : Register α) : Prop := ∀ i < r.size, 0 < r.number i

section Counted

variable {r r' : Register α}

theorem counted_empty : (empty : Register α).Counted := fun i hi => absurd hi (Nat.not_lt_zero i)

theorem Ordered.number_pos (h : r.Ordered) {i : Nat} (hi : r.isLive i = true) : 0 < r.number i := by
  rw [h.numbered i hi]
  exact Nat.succ_pos _

/-- Live entries are numbered from one, so that only the withdrawn ones matter. -/
theorem Ordered.counted_of (h : r.Ordered) (hleft : ∀ i k, r.leftFrom i = some k → 0 < k) :
    r.Counted := by
  intro i hi
  by_cases hlive : r.isLive i = true
  · exact h.number_pos hlive
  · exact hleft i _ (leftFrom_of_dead hi hlive)

theorem Counted.leftFrom_pos (h : r.Counted) {i k : Nat} (hk : r.leftFrom i = some k) : 0 < k := by
  obtain ⟨hi, -, rfl⟩ := leftFrom_eq_some_iff.mp hk
  exact h i hi

theorem Counted.congr {β : Type} {r : Register α} {r' : Register β} (h : r.Counted)
    (hd : SameDisplay r r') : r'.Counted := by
  intro i hi
  rw [hd.number]
  exact h i (hd.size ▸ hi)

/-- An ordered register in which nothing was withdrawn that was not withdrawn before. -/
theorem Counted.of_leftFrom (h : r.Counted) (h' : r'.Ordered)
    (hleft : ∀ i k, r'.leftFrom i = some k → r.leftFrom i = some k) : r'.Counted :=
  h'.counted_of (fun i k hk => h.leftFrom_pos (hleft i k hk))

theorem Counted.insert (h : r.Counted) (ho : r.Ordered) {k : Nat} (hk : k ≤ r.order.length)
    (a : α) : (r.insert k a).Counted :=
  h.of_leftFrom (ho.insert hk a) (fun i _ hi => (ho.leftFrom_insert hk a i).symm.trans hi)

theorem Counted.push (h : r.Counted) (ho : r.Ordered) (a : α) : (r.push a).Counted := by
  rw [push_eq_insert]
  exact h.insert ho (Nat.le_refl _) a

theorem Counted.withdraw (h : r.Counted) (ho : r.Ordered) {i : Nat} (hi : r.isLive i = true) :
    (r.withdraw i).Counted := by
  apply (ho.withdraw hi).counted_of
  intro j k hk
  rw [ho.leftFrom_withdraw hi] at hk
  split at hk
  · exact Option.some.inj hk ▸ Nat.succ_pos _
  · exact h.leftFrom_pos hk

/-- All numbers still start at one when an entry has returned. -/
theorem Counted.reinstate (h : r.Counted) (ho : r.Ordered) {i : Nat} (hi : i < r.size)
    (hdead : r.isLive i ≠ true) : (r.reinstate i).Counted := by
  apply h.of_leftFrom (ho.reinstate hi hdead)
  intro j k hk
  rw [ho.leftFrom_reinstate hi hdead] at hk
  split at hk
  · simp at hk
  · exact hk

end Counted

end TruthTrees.Register
