/-! A register of entries that are numbered for display. Entries are only ever added: one that is
withdrawn keeps its identity, its contents and the number that was written on it, so that it can be
put back where it stood. The entries that are not withdrawn are numbered from one in display order,
and whenever the display changes, the numbers from there on are written anew. -/
namespace TruthTrees

structure Entry (α : Type) where
  value : α
  /-- The number that was last written on the entry. -/
  number : Nat
  /-- Whether the entry is displayed. -/
  live : Bool
deriving DecidableEq, Repr

/-- The entries ever made, each identified by its index, and the displayed ones in display order. -/
structure Register (α : Type) where
  entries : List (Entry α)
  order : List Nat
deriving DecidableEq, Repr

namespace Register

variable {α : Type}

def empty : Register α := ⟨[], []⟩

/-- The number of entries ever made, which is also the identity of the next one. -/
abbrev size (r : Register α) : Nat := r.entries.length

def get? (r : Register α) (i : Nat) : Option α := r.entries[i]?.map Entry.value

/-- What an entry holds. An identity that was never given out reads as the default. -/
def get [Inhabited α] (r : Register α) (i : Nat) : α := (r.get? i).getD default

def isLive (r : Register α) (i : Nat) : Bool := r.entries[i]?.any Entry.live

/-- The number on an entry: that of its display position, or of the one that it left. -/
def number (r : Register α) (i : Nat) : Nat := (r.entries[i]?.map Entry.number).getD 0

def withNumber? (r : Register α) (n : Nat) : Option Nat :=
  match n with
  | 0 => none
  | position + 1 => r.order[position]?

def setNumber (r : Register α) (i n : Nat) : Register α :=
  { r with entries := r.entries.modify i (fun e => { e with number := n }) }

def setLive (r : Register α) (i : Nat) (live : Bool) : Register α :=
  { r with entries := r.entries.modify i (fun e => { e with live := live }) }

def numberFrom (r : Register α) (n : Nat) : List Nat → Register α
  | [] => r
  | i :: rest => (r.setNumber i n).numberFrom (n + 1) rest

/-- Numbers the entries anew that are displayed from a position on. -/
def renumber (r : Register α) (position : Nat) : Register α :=
  r.numberFrom (position + 1) (r.order.drop position)

/-- Adds an entry at a display position. The numbers of the entries behind it stay. -/
def enter (r : Register α) (position : Nat) (a : α) : Register α :=
  ⟨r.entries ++ [⟨a, position + 1, true⟩], r.order.insertIdx position r.size⟩

/-- Adds an entry at a display position, and numbers those behind it anew. -/
def insert (r : Register α) (position : Nat) (a : α) : Register α :=
  (r.enter position a).renumber position

def push (r : Register α) (a : α) : Register α := r.enter r.order.length a

def modify (r : Register α) (i : Nat) (f : α → α) : Register α :=
  { r with entries := r.entries.modify i (fun e => { e with value := f e.value }) }

def modifyAll (r : Register α) (ids : List Nat) (f : α → α) : Register α :=
  let change (i : Nat) (e : Entry α) := if i ∈ ids then { e with value := f e.value } else e
  { r with entries := r.entries.mapIdx change }

/-- Takes an entry out of the display, at the place that its number tells. -/
def withdraw (r : Register α) (i : Nat) : Register α :=
  let position := r.number i - 1
  let rest : Register α := { r with order := r.order.eraseIdx position }
  (rest.renumber position).setLive i false

/-- Puts an entry back where its number says, or behind all others when fewer are left. -/
def reinstate (r : Register α) (i : Nat) : Register α :=
  let position := min (r.number i - 1) r.order.length
  let all : Register α := { r with order := r.order.insertIdx position i }
  (all.renumber position).setLive i true

/-- Enters an identity into a list that is ordered by number, before the first that does not have a
smaller number. -/
def place (r : Register α) (i : Nat) : List Nat → List Nat
  | [] => [i]
  | j :: rest => if r.number i ≤ r.number j then i :: j :: rest else j :: r.place i rest

end Register

end TruthTrees
