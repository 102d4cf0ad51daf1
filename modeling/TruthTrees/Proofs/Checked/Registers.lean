import TruthTrees.Proofs.Register.Order

/-! Registers as they are kept in memory. An entry is found by its index, the display is a list of
indices, every entry has its number written on it, and an index has 32 bits. Whatever is read,
written, put in or taken out has to be there, or else the computation breaks off, which is written
`none`. On a register whose display lists its live entries under their numbers nothing breaks off,
and the results are the same as those of the operations that cannot go wrong. -/
namespace TruthTrees.Checked

variable {α β : Type}

/-- Something that is read off or written on an entry, which has to be there. -/
def onEntry (r : Register α) (i : Nat) (b : β) : Option β :=
  if i < r.size then some b else none

/-- The number that is written on an entry. -/
def number (r : Register α) (i : Nat) : Option Nat := onEntry r i (r.number i)

def isLive (r : Register α) (i : Nat) : Option Bool := onEntry r i (r.isLive i)

/-- How many indices there are. -/
def indexLimit : Nat := Nat.pow 2 32

def freshIndex (r : Register α) : Nat := r.size % indexLimit

/-- One less; numbers cannot be negative. -/
def decrement : Nat → Option Nat
  | 0 => none
  | k + 1 => some k

/-- Puts an index into a list at a position, which may be its end. -/
def insertAt (ids : List Nat) (k i : Nat) : Option (List Nat) :=
  if k ≤ ids.length then some (ids.insertIdx k i) else none

def removeAt (ids : List Nat) (k : Nat) : Option (List Nat) :=
  if k < ids.length then some (ids.eraseIdx k) else none

def numberFrom (r : Register α) (n : Nat) : List Nat → Option (Register α)
  | [] => some r
  | i :: rest => do
    let r ← onEntry r i (r.setNumber i n)
    numberFrom r (n + 1) rest

/-- Writes the numbers of their positions on the entries that are displayed from one on. -/
def renumber (r : Register α) (k : Nat) : Option (Register α) :=
  numberFrom r (k + 1) (r.order.drop k)

section

variable {r : Register α} {i : Nat}

theorem onEntry_eq (h : i < r.size) (b : β) : onEntry r i b = some b := if_pos h

/-- The number of an entry that is there can be read. -/
theorem number_eq (h : i < r.size) : number r i = some (r.number i) := onEntry_eq h _

theorem isLive_eq (h : i < r.size) : isLive r i = some (r.isLive i) := onEntry_eq h _

theorem freshIndex_eq (h : r.size < indexLimit) : freshIndex r = r.size := Nat.mod_eq_of_lt h

theorem decrement_eq {n : Nat} (h : 0 < n) : decrement n = some (n - 1) := by
  cases n with
  | zero => exact absurd h (Nat.lt_irrefl 0)
  | succ k => rfl

/-- Every number is written on an entry that is there. -/
theorem numberFrom_eq {ids : List Nat} (h : ∀ i ∈ ids, i < r.size) (n : Nat) :
    numberFrom r n ids = some (r.numberFrom n ids) := by
  induction ids generalizing r n with
  | nil => rfl
  | cons i ids ih =>
    have hrest : ∀ j ∈ ids, j < (r.setNumber i n).size := by
      intro j hj
      rw [(Register.Renumbered.setNumber r i n).size]
      exact h j (by simp [hj])
    simp only [numberFrom, onEntry_eq (h i (by simp)), Option.bind_eq_bind, Option.bind_some,
      ih hrest, Register.numberFrom]

/-- Renumbering writes only on entries that are there, as all the displayed ones are. -/
theorem renumber_eq (h : ∀ i ∈ r.order, i < r.size) (k : Nat) :
    renumber r k = some (r.renumber k) :=
  numberFrom_eq (fun i hi => h i (List.mem_of_mem_drop hi)) _

/-- What is written on an entry may have been found out before from the entry as it was. -/
theorem modify_congr [Inhabited α] {f g : α → α} (h : f (r.get i) = g (r.get i)) :
    r.modify i f = r.modify i g := by
  apply ((Register.SameDisplay.modify r i g).symm.trans
    (Register.SameDisplay.modify r i f)).eq_of_get
  intro j _
  rw [Register.get_modify, Register.get_modify]
  by_cases hj : j = i ∧ j < r.size
  · rw [if_pos hj, if_pos hj, hj.1, h]
  · rw [if_neg hj, if_neg hj]

end

def insert (r : Register α) (k : Nat) (a : α) : Option (Nat × Register α) := do
  let i := freshIndex r
  let order ← insertAt r.order k i
  let r ← renumber ⟨r.entries ++ [⟨a, k + 1, true⟩], order⟩ k
  return (i, r)

def push (r : Register α) (a : α) : Nat × Register α :=
  (freshIndex r, ⟨r.entries ++ [⟨a, r.order.length + 1, true⟩], r.order ++ [freshIndex r]⟩)

/-- Takes an entry out of the display, in which its number tells where it stands. -/
def withdraw (r : Register α) (i : Nat) : Option (Register α) := do
  let k ← decrement (← number r i)
  let order ← removeAt r.order k
  let r ← renumber ⟨r.entries, order⟩ k
  onEntry r i (r.setLive i false)

def reinstate (r : Register α) (i : Nat) : Option (Register α) := do
  let k ← decrement (← number r i)
  let k := min k r.order.length
  let order ← insertAt r.order k i
  let r ← renumber ⟨r.entries, order⟩ k
  onEntry r i (r.setLive i true)

section

variable {r : Register α} {i : Nat}

/-- An entry goes in without harm at any place up to the end of the display. -/
theorem insert_eq (h : r.Ordered) (hsize : r.size < indexLimit) {k : Nat} (hk : k ≤ r.order.length)
    (a : α) : insert r k a = some (r.size, r.insert k a) := by
  have hknown : ∀ i ∈ (r.enter k a).order, i < (r.enter k a).size := by
    intro i hi
    rw [Register.order_enter, List.mem_insertIdx hk] at hi
    rw [Register.size_enter]
    rcases hi with rfl | hi
    · exact Nat.lt_succ_self _
    · exact Nat.lt_succ_of_lt (h.lt_size hi)
  have hrenumber : renumber ⟨r.entries ++ [⟨a, k + 1, true⟩], r.order.insertIdx k r.size⟩ k =
      some (r.insert k a) := renumber_eq hknown k
  simp only [insert, freshIndex_eq hsize, insertAt, if_pos hk, Option.bind_eq_bind,
    Option.bind_some, hrenumber]
  rfl

theorem push_eq (hsize : r.size < indexLimit) (a : α) : push r a = (r.size, r.push a) := by
  unfold push Register.push Register.enter
  rw [freshIndex_eq hsize, List.insertIdx_length_self]

/-- The number on a displayed entry leads to its place in the display. -/
theorem withdraw_eq (h : r.Ordered) (hi : r.isLive i = true) :
    withdraw r i = some (r.withdraw i) := by
  have hlt := Register.lt_size_of_isLive hi
  have hplace : r.number i - 1 < r.order.length := by
    rw [h.numbered i hi, Nat.add_sub_cancel]
    exact List.idxOf_lt_length_of_mem ((h.mem_iff i).mpr hi)
  have hknown : ∀ j ∈ r.order.eraseIdx (r.number i - 1), j < r.size :=
    fun j hj => h.lt_size (List.mem_of_mem_eraseIdx hj)
  have hrenumber := renumber_eq (r := ⟨r.entries, r.order.eraseIdx (r.number i - 1)⟩) hknown
    (r.number i - 1)
  have hwritten := (Register.Renumbered.renumber
    (⟨r.entries, r.order.eraseIdx (r.number i - 1)⟩ : Register α) (r.number i - 1)).size
  simp only [withdraw, number_eq hlt, decrement_eq (h.number_pos hi), removeAt, if_pos hplace,
    hrenumber, Option.bind_eq_bind, Option.bind_some]
  exact onEntry_eq (hwritten.symm ▸ hlt) _

/-- An entry with a number finds a place, also when the display has become shorter. -/
theorem reinstate_eq (h : r.Ordered) (hpos : 0 < r.number i) (hi : i < r.size) :
    reinstate r i = some (r.reinstate i) := by
  have hle : min (r.number i - 1) r.order.length ≤ r.order.length := Nat.min_le_right _ _
  set order := r.order.insertIdx (min (r.number i - 1) r.order.length) i with horder
  have hknown : ∀ j ∈ order, j < r.size := by
    intro j hj
    rw [horder, List.mem_insertIdx hle] at hj
    rcases hj with rfl | hj
    · exact hi
    · exact h.lt_size hj
  have hrenumber := renumber_eq (r := ⟨r.entries, order⟩) hknown
    (min (r.number i - 1) r.order.length)
  have hwritten := (Register.Renumbered.renumber
    (⟨r.entries, order⟩ : Register α) (min (r.number i - 1) r.order.length)).size
  simp only [reinstate, number_eq hi, decrement_eq hpos, insertAt, if_pos hle, ← horder, hrenumber,
    Option.bind_eq_bind, Option.bind_some]
  exact onEntry_eq (hwritten.symm ▸ hi) _

end

def position (r : Register α) (key : Nat) : List Nat → Option Nat
  | [] => some 0
  | j :: rest => do
    let m ← number r j
    if key ≤ m then return 0
    else
      let k ← position r key rest
      return k + 1

def place (r : Register α) (i : Nat) (ids : List Nat) : Option (List Nat) := do
  let key ← number r i
  let k ← position r key ids
  insertAt ids k i

/-- The search for a place in a list stops inside it, or at its end. -/
theorem exists_position {r : Register α} (i : Nat) {ids : List Nat} (h : ∀ j ∈ ids, j < r.size) :
    ∃ k ≤ ids.length, position r (r.number i) ids = some k ∧ r.place i ids = ids.insertIdx k i := by
  induction ids with
  | nil => exact ⟨0, Nat.le_refl _, rfl, rfl⟩
  | cons j rest ih =>
    have hnumber := number_eq (h j (by simp))
    obtain ⟨k, hk, hposition, hplace⟩ := ih (fun m hm => h m (by simp [hm]))
    by_cases hle : r.number i ≤ r.number j
    · refine ⟨0, Nat.zero_le _, ?_, ?_⟩
      · simp [position, hnumber, hle]
      · simp [Register.place, hle]
    · refine ⟨k + 1, Nat.succ_le_succ hk, ?_, ?_⟩
      · simp [position, hnumber, hle, hposition]
      · simp [Register.place, hle, hplace]

/-- An entry is put without harm among entries that are there. -/
theorem place_eq {r : Register α} {i : Nat} (hi : i < r.size) {ids : List Nat}
    (h : ∀ j ∈ ids, j < r.size) : place r i ids = some (r.place i ids) := by
  obtain ⟨k, hk, hposition, hplace⟩ := exists_position (r := r) i h
  simp only [place, number_eq hi, hposition, Option.bind_eq_bind, Option.bind_some, insertAt,
    if_pos hk, hplace]

end TruthTrees.Checked
