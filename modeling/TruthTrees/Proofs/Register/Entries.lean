import TruthTrees.Proofs.Prelude
import TruthTrees.Register

/-! Entry by entry, what the operations of a register do: to what an entry holds, to whether it is
displayed and to the number on it. A register is determined by these three and by the display
order. Writing numbers leaves all but the numbers alone. -/
namespace TruthTrees.Register

variable {α : Type}

theorem get?_eq_some_get [Inhabited α] {r : Register α} {i : Nat} (h : i < r.size) :
    r.get? i = some (r.get i) := by
  simp [get, get?, List.getElem?_eq_getElem h]

theorem get?_eq_none {r : Register α} {i : Nat} (h : r.size ≤ i) : r.get? i = none := by
  simp [get?, List.getElem?_eq_none h]

theorem lt_size_of_isLive {r : Register α} {i : Nat} (h : r.isLive i = true) : i < r.size := by
  by_contra hge
  simp [isLive, List.getElem?_eq_none (Nat.le_of_not_lt hge)] at h

/-- Two registers that agree entry by entry and are displayed in the same order are the same. -/
theorem ext_entries [Inhabited α] {r r' : Register α} (hsize : r'.size = r.size)
    (hget : ∀ i < r.size, r'.get i = r.get i)
    (hnumber : ∀ i < r.size, r'.number i = r.number i)
    (hlive : ∀ i < r.size, r'.isLive i = r.isLive i) (horder : r'.order = r.order) : r' = r := by
  obtain ⟨es, o⟩ := r
  obtain ⟨es', o'⟩ := r'
  simp only [mk.injEq]
  refine ⟨List.ext_getElem hsize ?_, horder⟩
  intro i hi' hi
  have hg := hget i hi
  have hn := hnumber i hi
  have hl := hlive i hi
  simp only [get, get?, number, isLive, List.getElem?_eq_getElem hi, List.getElem?_eq_getElem hi',
    Option.map_some, Option.getD_some, Option.any_some] at hg hn hl
  cases h : es[i] with
  | mk a n l =>
    cases h' : es'[i] with
    | mk a' n' l' => simp_all

/-- Two registers that differ at most in the numbers on their entries. -/
structure Renumbered (r r' : Register α) : Prop where
  size : r'.size = r.size
  order : r'.order = r.order
  get? : ∀ j, r'.get? j = r.get? j
  isLive : ∀ j, r'.isLive j = r.isLive j

namespace Renumbered

variable {r r' r'' : Register α}

theorem refl (r : Register α) : Renumbered r r := ⟨rfl, rfl, fun _ => rfl, fun _ => rfl⟩

/-- Renumberings can be made one after the other. -/
theorem trans (h : Renumbered r r') (h' : Renumbered r' r'') : Renumbered r r'' where
  size := h'.size.trans h.size
  order := h'.order.trans h.order
  get? j := (h'.get? j).trans (h.get? j)
  isLive j := (h'.isLive j).trans (h.isLive j)

theorem setNumber (r : Register α) (i n : Nat) : Renumbered r (r.setNumber i n) where
  size := by simp [Register.size, Register.setNumber]
  order := rfl
  get? j := by
    simp only [Register.get?, Register.setNumber, List.getElem?_modify]
    split <;> cases r.entries[j]? <;> rfl
  isLive j := by
    simp only [Register.isLive, Register.setNumber, List.getElem?_modify]
    split <;> cases r.entries[j]? <;> rfl

/-- Writing numbers on entries changes nothing but numbers. -/
theorem numberFrom (r : Register α) (n : Nat) (ids : List Nat) :
    Renumbered r (r.numberFrom n ids) := by
  induction ids generalizing r n with
  | nil => exact refl r
  | cons i ids ih => exact (setNumber r i n).trans (ih _ _)

/-- Renumbering changes nothing but numbers. -/
theorem renumber (r : Register α) (k : Nat) : Renumbered r (r.renumber k) :=
  numberFrom r (k + 1) (r.order.drop k)

end Renumbered

@[simp] theorem number_setNumber (r : Register α) (i n j : Nat) :
    (r.setNumber i n).number j = if j = i ∧ j < r.size then n else r.number j := by
  simp only [number, setNumber, List.getElem?_modify]
  by_cases hj : j < r.size
  · by_cases h : i = j
    · simp [h, hj]
    · simp [h, Ne.symm h]
  · simp [hj]

/-- Each of the entries in the list gets the number of its place there. -/
theorem number_numberFrom (r : Register α) (n : Nat) {ids : List Nat} (hnodup : ids.Nodup)
    (j : Nat) : (r.numberFrom n ids).number j =
      if j ∈ ids ∧ j < r.size then n + ids.idxOf j else r.number j := by
  induction ids generalizing r n with
  | nil => simp [numberFrom]
  | cons i ids ih =>
    obtain ⟨hi, hnodup⟩ := List.nodup_cons.mp hnodup
    rw [numberFrom, ih _ _ hnodup, number_setNumber, (Renumbered.setNumber r i n).size]
    by_cases hji : j = i
    · subst hji
      simp [hi]
    · by_cases hmem : j ∈ ids ∧ j < r.size
      · rw [if_pos hmem, if_pos ⟨List.mem_cons_of_mem i hmem.1, hmem.2⟩,
          List.idxOf_cons_ne _ (Ne.symm hji)]
        omega
      · rw [if_neg hmem, if_neg (fun hc => hji hc.1)]
        simp only [List.mem_cons, hji, false_or]
        rw [if_neg hmem]

/-- Entries that are not displayed keep their numbers. -/
theorem number_renumber_of_notMem {r : Register α} (hnodup : r.order.Nodup) {j : Nat}
    (hj : j ∉ r.order) (k : Nat) : (r.renumber k).number j = r.number j := by
  rw [renumber, number_numberFrom r (k + 1) (hnodup.sublist (List.drop_sublist k r.order))]
  exact if_neg (fun hc => hj (List.mem_of_mem_drop hc.1))

/-- If the numbers are right in front of a position, they are right everywhere after the rest was
numbered anew. -/
theorem number_renumber_of_mem {r : Register α} (hnodup : r.order.Nodup) {k j : Nat}
    (hfront : ∀ i ∈ r.order.take k, r.number i = r.order.idxOf i + 1) (hmem : j ∈ r.order)
    (hj : j < r.size) : (r.renumber k).number j = r.order.idxOf j + 1 := by
  rw [renumber, number_numberFrom r (k + 1) (hnodup.sublist (List.drop_sublist k r.order))]
  have hsplit := List.take_append_drop k r.order
  rw [← hsplit, List.mem_append] at hmem
  rw [← hsplit, List.nodup_append] at hnodup
  rcases hmem with hmem | hmem
  · rw [if_neg (fun hc => hnodup.2.2 j hmem j hc.1 rfl), hfront j hmem]
  · have hlength : (r.order.take k).length = k := by
      have hpos := List.length_pos_of_mem hmem
      rw [List.length_drop] at hpos
      rw [List.length_take, Nat.min_eq_left (by omega)]
    have hidx : r.order.idxOf j = k + (r.order.drop k).idxOf j := by
      conv_lhs => rw [← hsplit]
      rw [List.idxOf_append_of_notMem (fun hc => hnodup.2.2 j hc j hmem rfl), hlength]
    rw [if_pos ⟨hmem, hj⟩, hidx]
    omega

section Changes

variable (r : Register α) (i j : Nat) (a : α) (f : α → α)

@[simp] theorem order_setLive (b : Bool) : (r.setLive i b).order = r.order := rfl

@[simp] theorem size_setLive (b : Bool) : (r.setLive i b).size = r.size := by
  simp [size, setLive]

@[simp] theorem get?_setLive (b : Bool) : (r.setLive i b).get? j = r.get? j := by
  simp only [get?, setLive, List.getElem?_modify]
  split <;> cases r.entries[j]? <;> rfl

@[simp] theorem number_setLive (b : Bool) : (r.setLive i b).number j = r.number j := by
  simp only [number, setLive, List.getElem?_modify]
  split <;> cases r.entries[j]? <;> rfl

theorem isLive_setLive (b : Bool) :
    (r.setLive i b).isLive j = if j = i ∧ j < r.size then b else r.isLive j := by
  simp only [isLive, setLive, List.getElem?_modify]
  by_cases hj : j < r.size
  · by_cases h : i = j
    · simp [h, hj]
    · simp [h, Ne.symm h]
  · simp [hj]

@[simp] theorem order_modify : (r.modify i f).order = r.order := rfl

@[simp] theorem size_modify : (r.modify i f).size = r.size := by
  simp [size, modify]

theorem get?_modify : (r.modify i f).get? j = if i = j then (r.get? j).map f else r.get? j := by
  simp only [get?, modify, List.getElem?_modify, Option.map_map]
  split <;> cases r.entries[j]? <;> rfl

@[simp] theorem isLive_modify : (r.modify i f).isLive j = r.isLive j := by
  simp only [isLive, modify, List.getElem?_modify]
  split <;> cases r.entries[j]? <;> rfl

@[simp] theorem number_modify : (r.modify i f).number j = r.number j := by
  simp only [number, modify, List.getElem?_modify]
  split <;> cases r.entries[j]? <;> rfl

variable (ids : List Nat)

@[simp] theorem size_modifyAll : (r.modifyAll ids f).size = r.size := by
  simp [size, modifyAll]

theorem get?_modifyAll :
    (r.modifyAll ids f).get? j = if j ∈ ids then (r.get? j).map f else r.get? j := by
  simp only [get?, modifyAll, List.getElem?_mapIdx, Option.map_map]
  split <;> cases r.entries[j]? <;> simp_all

@[simp] theorem isLive_modifyAll : (r.modifyAll ids f).isLive j = r.isLive j := by
  simp only [isLive, modifyAll, List.getElem?_mapIdx]
  cases r.entries[j]? with
  | none => rfl
  | some e => by_cases h : j ∈ ids <;> simp [h]

@[simp] theorem number_modifyAll : (r.modifyAll ids f).number j = r.number j := by
  simp only [number, modifyAll, List.getElem?_mapIdx]
  cases r.entries[j]? with
  | none => rfl
  | some e => by_cases h : j ∈ ids <;> simp [h]

end Changes

section Insert

variable (r : Register α) (position j : Nat) (a : α)

@[simp] theorem order_enter : (r.enter position a).order = r.order.insertIdx position r.size := rfl

@[simp] theorem size_enter : (r.enter position a).size = r.size + 1 := by
  simp [size, enter]

theorem getElem?_enter : (r.enter position a).entries[j]? =
    if j = r.size then some ⟨a, position + 1, true⟩ else r.entries[j]? := by
  unfold enter
  rcases Nat.lt_trichotomy j r.size with h | h | h
  · rw [List.getElem?_append_left h, if_neg (Nat.ne_of_lt h)]
  · simp [h]
  · rw [List.getElem?_eq_none (by simpa using Nat.succ_le_of_lt h), if_neg (Nat.ne_of_gt h),
      List.getElem?_eq_none (Nat.le_of_lt h)]

theorem get?_enter :
    (r.enter position a).get? j = if j = r.size then some a else r.get? j := by
  unfold get?
  rw [getElem?_enter]
  split <;> rfl

/-- The new entry is in the register, and the others are as before. -/
theorem isLive_enter :
    (r.enter position a).isLive j = true ↔ j = r.size ∨ r.isLive j = true := by
  unfold isLive
  rw [getElem?_enter]
  split <;> simp_all

theorem number_enter :
    (r.enter position a).number j = if j = r.size then position + 1 else r.number j := by
  unfold number
  rw [getElem?_enter]
  split <;> rfl

@[simp] theorem order_insert :
    (r.insert position a).order = r.order.insertIdx position r.size :=
  (Renumbered.renumber _ _).order

@[simp] theorem size_insert : (r.insert position a).size = r.size + 1 :=
  (Renumbered.renumber _ _).size.trans (size_enter r position a)

theorem get?_insert :
    (r.insert position a).get? j = if j = r.size then some a else r.get? j :=
  ((Renumbered.renumber _ _).get? j).trans (get?_enter r position j a)

theorem isLive_insert :
    (r.insert position a).isLive j = true ↔ j = r.size ∨ r.isLive j = true := by
  rw [insert, (Renumbered.renumber _ _).isLive, isLive_enter]

theorem order_push : (r.push a).order = r.order ++ [r.size] := List.insertIdx_length_self

@[simp] theorem size_push : (r.push a).size = r.size + 1 := size_enter r _ a

/-- The last entry has the right number without further ado. -/
theorem push_eq_insert : r.push a = r.insert r.order.length a := by
  have hdrop : (r.enter r.order.length a).order.drop r.order.length = [r.size] := by
    rw [order_enter, List.insertIdx_length_self, List.drop_left]
  rw [insert, renumber, hdrop, numberFrom, numberFrom, push]
  have hentry : (r.enter r.order.length a).entries.modify r.size
      (fun e => { e with number := r.order.length + 1 }) = (r.enter r.order.length a).entries := by
    apply List.ext_getElem?
    intro j
    rw [List.getElem?_modify, getElem?_enter]
    by_cases hj : j = r.size
    · simp [hj]
    · simp [hj, Ne.symm hj]
  rw [setNumber, hentry]

theorem isLive_push : (r.push a).isLive j = true ↔ j = r.size ∨ r.isLive j = true :=
  isLive_enter r _ j a

end Insert

section Withdraw

variable (r : Register α) (i j : Nat)

/-- An entry is taken from the place that its stored number names. -/
theorem order_withdraw_eq : (r.withdraw i).order = r.order.eraseIdx (r.number i - 1) :=
  (Renumbered.renumber _ _).order

@[simp] theorem size_withdraw : (r.withdraw i).size = r.size :=
  (size_setLive _ _ _).trans (Renumbered.renumber _ _).size

/-- An entry keeps what it holds when it is withdrawn. -/
@[simp] theorem get?_withdraw : (r.withdraw i).get? j = r.get? j :=
  (get?_setLive _ _ _ _).trans ((Renumbered.renumber _ _).get? j)

theorem isLive_withdraw : (r.withdraw i).isLive j = true ↔ j ≠ i ∧ r.isLive j = true := by
  have hlive : (({ r with order := r.order.eraseIdx (r.number i - 1) } : Register α).renumber
      (r.number i - 1)).isLive j = r.isLive j := (Renumbered.renumber _ _).isLive j
  rw [withdraw, isLive_setLive, (Renumbered.renumber _ _).size, hlive]
  by_cases h : j = i
  · subst h
    by_cases hj : j < r.size
    · simp [hj]
    · have hdead : r.isLive j ≠ true := fun hc => hj (lt_size_of_isLive hc)
      simpa [hj] using hdead
  · simp [h]

/-- An entry returns to the place of its stored number, or to the end of a shorter display. -/
theorem order_reinstate : (r.reinstate i).order =
    r.order.insertIdx (min (r.number i - 1) r.order.length) i :=
  (Renumbered.renumber _ _).order

@[simp] theorem size_reinstate : (r.reinstate i).size = r.size :=
  (size_setLive _ _ _).trans (Renumbered.renumber _ _).size

/-- An entry still holds the same when it is put back. -/
@[simp] theorem get?_reinstate : (r.reinstate i).get? j = r.get? j :=
  (get?_setLive _ _ _ _).trans ((Renumbered.renumber _ _).get? j)

theorem isLive_reinstate :
    (r.reinstate i).isLive j = true ↔ (j = i ∧ i < r.size) ∨ r.isLive j = true := by
  have hlive : (({ r with order := (r.reinstate i).order } : Register α).renumber
      (min (r.number i - 1) r.order.length)).isLive j = r.isLive j :=
    (Renumbered.renumber _ _).isLive j
  rw [order_reinstate] at hlive
  rw [reinstate, isLive_setLive, (Renumbered.renumber _ _).size, hlive]
  by_cases h : j = i
  · subst h
    by_cases hj : j < r.size <;> simp [hj]
  · simp [h]

end Withdraw

section Get

variable [Inhabited α]

theorem get_modify (r : Register α) (i j : Nat) (f : α → α) :
    (r.modify i f).get j = if j = i ∧ j < r.size then f (r.get j) else r.get j := by
  unfold get
  rw [get?_modify]
  by_cases hj : j < r.size
  · by_cases h : i = j
    · subst h
      simp [hj, get?_eq_some_get hj]
    · simp [h, Ne.symm h]
  · simp [hj, get?_eq_none (Nat.le_of_not_lt hj)]

theorem get_modifyAll (r : Register α) (ids : List Nat) (j : Nat) (f : α → α) :
    (r.modifyAll ids f).get j = if j ∈ ids ∧ j < r.size then f (r.get j) else r.get j := by
  unfold get
  rw [get?_modifyAll]
  by_cases hj : j < r.size
  · by_cases h : j ∈ ids
    · simp [h, hj, get?_eq_some_get hj]
    · simp [h]
  · simp [hj, get?_eq_none (Nat.le_of_not_lt hj)]

theorem get_insert (r : Register α) (position j : Nat) (a : α) :
    (r.insert position a).get j = if j = r.size then a else r.get j := by
  unfold get
  rw [get?_insert]
  split <;> rfl

theorem get_push (r : Register α) (j : Nat) (a : α) :
    (r.push a).get j = if j = r.size then a else r.get j := by
  rw [push_eq_insert, get_insert]

@[simp] theorem get_withdraw (r : Register α) (i j : Nat) : (r.withdraw i).get j = r.get j := by
  simp [get]

@[simp] theorem get_reinstate (r : Register α) (i j : Nat) : (r.reinstate i).get j = r.get j := by
  simp [get]

theorem get_of_size_le {r : Register α} {i : Nat} (h : r.size ≤ i) : r.get i = default := by
  simp [get, get?_eq_none h]

end Get

end TruthTrees.Register
