import TruthTrees.Proofs.Register.Order

/-! Registers with further entries at the end, all of them withdrawn. What concerns the entries that
were there before does not see the further ones. -/
namespace TruthTrees

def Entry.Withdrawn {α : Type} (e : Entry α) : Prop := e.live = false ∧ 0 < e.number

namespace Register

variable {α : Type}

def extend (r : Register α) (es : List (Entry α)) : Register α := ⟨r.entries ++ es, r.order⟩

section Extend

variable (r : Register α) (es : List (Entry α))

@[simp] theorem order_extend : (r.extend es).order = r.order := rfl

@[simp] theorem size_extend : (r.extend es).size = r.size + es.length := List.length_append

theorem getElem?_extend_of_lt {i : Nat} (hi : i < r.size) :
    (r.extend es).entries[i]? = r.entries[i]? := List.getElem?_append_left hi

theorem mem_of_getElem?_extend {i : Nat} (hi : r.size ≤ i) {e : Entry α}
    (he : (r.extend es).entries[i]? = some e) : e ∈ es := by
  rw [show (r.extend es).entries[i]? = _ from List.getElem?_append_right hi] at he
  exact List.mem_of_getElem? he

theorem isLive_extend_of_lt {i : Nat} (hi : i < r.size) :
    (r.extend es).isLive i = r.isLive i := by
  unfold isLive
  rw [getElem?_extend_of_lt r es hi]

theorem number_extend_of_lt {i : Nat} (hi : i < r.size) :
    (r.extend es).number i = r.number i := by
  unfold number
  rw [getElem?_extend_of_lt r es hi]

theorem leftFrom_extend_of_lt {i : Nat} (hi : i < r.size) :
    (r.extend es).leftFrom i = r.leftFrom i := by
  unfold leftFrom
  rw [isLive_extend_of_lt r es hi, number_extend_of_lt r es hi, size_extend]
  simp only [hi, Nat.lt_add_right]

theorem get_extend_of_lt [Inhabited α] {i : Nat} (hi : i < r.size) :
    (r.extend es).get i = r.get i := by
  unfold get get?
  rw [getElem?_extend_of_lt r es hi]

/-- A further entry is one of those that were added. -/
theorem get_extend_of_le [Inhabited α] {i : Nat} (hi : r.size ≤ i)
    (hlt : i < (r.extend es).size) : ∃ e ∈ es, (r.extend es).get i = e.value ∧
      (r.extend es).number i = e.number ∧ (r.extend es).isLive i = e.live := by
  obtain ⟨e, he⟩ : ∃ e, (r.extend es).entries[i]? = some e :=
    ⟨_, List.getElem?_eq_getElem hlt⟩
  refine ⟨e, mem_of_getElem?_extend r es hi he, ?_, ?_, ?_⟩
  · simp [get, get?, he]
  · simp [number, he]
  · simp [isLive, he]

end Extend

/-- The further entries do not depend on those before. -/
theorem getElem?_extend_of_le {r r' : Register α} (es : List (Entry α)) (hsize : r'.size = r.size)
    {i : Nat} (hi : r.size ≤ i) : (r'.extend es).entries[i]? = (r.extend es).entries[i]? := by
  have h : (r.extend es).entries[i]? = es[i - r.size]? := List.getElem?_append_right hi
  have h' : (r'.extend es).entries[i]? = es[i - r'.size]? :=
    List.getElem?_append_right (Nat.le_trans (Nat.le_of_eq hsize) hi)
  rw [h, h', hsize]

theorem get_extend_congr [Inhabited α] {r r' : Register α} (es : List (Entry α))
    (hsize : r'.size = r.size) {i : Nat} (hi : r.size ≤ i) :
    (r'.extend es).get i = (r.extend es).get i := by
  unfold get get?
  rw [getElem?_extend_of_le es hsize hi]

theorem leftFrom_extend_congr {r r' : Register α} (es : List (Entry α)) (hsize : r'.size = r.size)
    {i : Nat} (hi : r.size ≤ i) : (r'.extend es).leftFrom i = (r.extend es).leftFrom i := by
  unfold leftFrom isLive number
  rw [getElem?_extend_of_le es hsize hi, size_extend, size_extend, hsize]

theorem SameDisplay.extend {r r' : Register α} (h : SameDisplay r r') (es : List (Entry α)) :
    SameDisplay (r.extend es) (r'.extend es) where
  size := by rw [size_extend, size_extend, h.size]
  order := h.order
  isLive i := by
    by_cases hi : i < r.size
    · rw [isLive_extend_of_lt r es hi, isLive_extend_of_lt r' es (h.size.symm ▸ hi), h.isLive]
    · unfold Register.isLive
      rw [getElem?_extend_of_le es h.size (Nat.le_of_not_lt hi)]
  number i := by
    by_cases hi : i < r.size
    · rw [number_extend_of_lt r es hi, number_extend_of_lt r' es (h.size.symm ▸ hi), h.number]
    · unfold Register.number
      rw [getElem?_extend_of_le es h.size (Nat.le_of_not_lt hi)]

section Withdrawn

variable [Inhabited α] {r : Register α} {es : List (Entry α)}

/-- When all further entries are withdrawn, the same entries are live. -/
theorem isLive_extend (h : ∀ e ∈ es, e.Withdrawn) (i : Nat) :
    (r.extend es).isLive i = r.isLive i := by
  by_cases hi : i < r.size
  · exact isLive_extend_of_lt r es hi
  · have hdead : r.isLive i ≠ true := fun hc => hi (lt_size_of_isLive hc)
    rw [Bool.eq_iff_iff]
    refine ⟨fun hlive => ?_, fun hc => absurd hc hdead⟩
    obtain ⟨e, he, -, -, hl⟩ :=
      get_extend_of_le r es (Nat.le_of_not_lt hi) (lt_size_of_isLive hlive)
    rw [hl, (h e he).1] at hlive
    simp at hlive

/-- Withdrawn entries at the end leave the register in order. -/
theorem Ordered.extend (hr : r.Ordered) (h : ∀ e ∈ es, e.Withdrawn) : (r.extend es).Ordered where
  nodup := hr.nodup
  mem_iff i := by rw [order_extend, isLive_extend h, hr.mem_iff]
  numbered i hi := by
    rw [isLive_extend h] at hi
    rw [number_extend_of_lt r es (lt_size_of_isLive hi), order_extend, hr.numbered i hi]

/-- Withdrawn entries bring the numbers they left with. -/
theorem Counted.extend (hr : r.Counted) (h : ∀ e ∈ es, e.Withdrawn) : (r.extend es).Counted := by
  intro i hi
  by_cases hlt : i < r.size
  · rw [number_extend_of_lt r es hlt]
    exact hr i hlt
  · obtain ⟨e, he, -, hnumber, -⟩ := get_extend_of_le r es (Nat.le_of_not_lt hlt) hi
    rw [hnumber]
    exact (h e he).2

/-- Withdrawing an entry commutes with withdrawn entries at the end. -/
theorem extend_withdraw (hr : r.Ordered) (h : ∀ e ∈ es, e.Withdrawn) {i : Nat}
    (hi : r.isLive i = true) : (r.extend es).withdraw i = (r.withdraw i).extend es := by
  have hsize : (r.withdraw i).size = r.size := size_withdraw r i
  have hlive : (r.extend es).isLive i = true := (isLive_extend h i).trans hi
  have hout : ∀ j, r.size ≤ j → j ≠ i := fun j hj hji =>
    absurd (lt_size_of_isLive hi) (Nat.not_lt.mpr (hji ▸ hj))
  apply ((hr.withdraw hi).extend h).ext ((hr.extend h).withdraw hlive)
  · rw [size_withdraw, size_extend, size_extend, hsize]
  · intro j _
    rw [get_withdraw]
    by_cases hj : j < r.size
    · rw [get_extend_of_lt r es hj, get_extend_of_lt _ es (hsize.symm ▸ hj), get_withdraw]
    · exact (get_extend_congr es hsize (Nat.le_of_not_lt hj)).symm
  · intro j _
    rw [(hr.extend h).leftFrom_withdraw hlive, order_extend]
    by_cases hj : j < r.size
    · rw [leftFrom_extend_of_lt r es hj, leftFrom_extend_of_lt _ es (hsize.symm ▸ hj),
        hr.leftFrom_withdraw hi]
    · rw [if_neg (hout j (Nat.le_of_not_lt hj)),
        leftFrom_extend_congr es hsize (Nat.le_of_not_lt hj)]
  · rw [(hr.extend h).order_withdraw hlive, order_extend, order_extend, hr.order_withdraw hi]

end Withdrawn

/-- A register agrees with another one as far as that one goes, and displays nothing more. -/
structure Continues [Inhabited α] (r r' : Register α) : Prop where
  order : r'.order = r.order
  size : r.size ≤ r'.size
  get : ∀ i < r.size, r'.get i = r.get i
  leftFrom : ∀ i < r.size, r'.leftFrom i = r.leftFrom i

theorem Continues.refl [Inhabited α] (r : Register α) : r.Continues r :=
  ⟨rfl, Nat.le_refl _, fun _ _ => rfl, fun _ _ => rfl⟩

/-- The entries with which an ordered register goes on are withdrawn. -/
theorem Continues.withdrawn [Inhabited α] {r r' : Register α} (h : r.Continues r')
    (hr : r.Ordered) (hr' : r'.Ordered) (hcounted : r'.Counted) {i : Nat} (hi : r.size ≤ i)
    (hlt : i < r'.size) : Entry.Withdrawn ⟨r'.get i, r'.number i, r'.isLive i⟩ := by
  refine ⟨?_, hcounted i hlt⟩
  rw [Bool.eq_false_iff]
  intro hlive
  rw [← hr'.mem_iff, h.order, hr.mem_iff] at hlive
  exact absurd (lt_size_of_isLive hlive) (Nat.not_lt.mpr hi)

/-- A register that goes on from another is that one and some withdrawn entries. -/
theorem Continues.eq_extend [Inhabited α] {r r' : Register α} (h : r.Continues r')
    (hr : r.Ordered) (hr' : r'.Ordered) : r' = r.extend (r'.entries.drop r.size) := by
  have hlen : (r'.entries.take r.size).length = r.size := by
    rw [List.length_take, Nat.min_eq_left h.size]
  have hprefix : (⟨r'.entries.take r.size, r'.order⟩ : Register α) = r := by
    apply ext_entries hlen
    · intro i hi
      rw [← h.get i hi]
      simp [Register.get, get?, hi]
    · intro i hi
      rw [← hr.number_congr hr' hi (Nat.lt_of_lt_of_le hi h.size) (h.leftFrom i hi) h.order]
      simp [number, hi]
    · intro i hi
      have hlive : r'.isLive i = r.isLive i := by
        rw [Bool.eq_iff_iff, ← hr.mem_iff, ← hr'.mem_iff, h.order]
      rw [← hlive]
      simp [isLive, hi]
    · exact h.order
  have hentries : r'.entries.take r.size = r.entries := congrArg entries hprefix
  have horder := h.order
  obtain ⟨es', o'⟩ := r'
  unfold extend
  rw [← hentries, List.take_append_drop]
  exact congrArg (Register.mk es') horder

/-- What the further entries of an extension are. -/
theorem mem_drop_entries [Inhabited α] {r : Register α} {k : Nat} {e : Entry α}
    (he : e ∈ r.entries.drop k) :
    ∃ i, k ≤ i ∧ i < r.size ∧ e = ⟨r.get i, r.number i, r.isLive i⟩ := by
  obtain ⟨i, hi, rfl⟩ := List.mem_iff_getElem.mp he
  rw [List.length_drop] at hi
  have hlt : k + i < r.entries.length := by omega
  refine ⟨k + i, Nat.le_add_right k i, hlt, ?_⟩
  rw [List.getElem_drop]
  simp [get, get?, number, isLive, List.getElem?_eq_getElem hlt]

section Changes

variable (r : Register α) (es : List (Entry α)) {i : Nat}

theorem extend_modify (hi : i < r.size) (f : α → α) :
    (r.extend es).modify i f = (r.modify i f).extend es := by
  unfold extend modify
  dsimp only
  rw [List.modify_append_of_lt hi]

theorem extend_modifyAll {ids : List Nat} (h : ∀ j ∈ ids, j < r.size) (f : α → α) :
    (r.extend es).modifyAll ids f = (r.modifyAll ids f).extend es := by
  unfold extend modifyAll
  dsimp only
  rw [List.mapIdx_append]
  congr 2
  apply List.ext_getElem (by simp)
  intro j _ _
  have hj : ¬ (j + r.entries.length) ∈ ids := fun hc =>
    absurd (h _ hc) (Nat.not_lt.mpr (Nat.le_add_left _ _))
  rw [List.getElem_mapIdx, if_neg hj]

end Changes

end Register

end TruthTrees
