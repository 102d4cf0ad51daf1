import TruthTrees.Edit

/-! The edits that were made and can be taken back, and those that were taken back and can be made
again. -/
namespace TruthTrees

/-- An edit with the words that describe it to the user. -/
structure Step where
  edit : Edit
  description : String
deriving DecidableEq, Repr

/-- A history of edits. Both lists start with the step that is next in turn. -/
structure History where
  applied : List Step
  undone : List Step
  /-- How many applied steps are kept at most. -/
  limit : Option Nat
deriving DecidableEq, Repr

namespace History

def empty (limit : Option Nat) : History := ⟨[], [], limit⟩

def keep {α : Type} (limit : Option Nat) (newestFirst : List α) : List α :=
  match limit with
  | none => newestFirst
  | some k => newestFirst.take k

/-- Adds a step to the applied ones; the oldest are forgotten beyond the limit. -/
def pushApplied (h : History) (s : Step) : History :=
  { h with applied := keep h.limit (s :: h.applied) }

def pushUndone (h : History) (s : Step) : History :=
  { h with undone := s :: h.undone }

/-- Records a new step. What was undone before cannot be made again. -/
def record (h : History) (s : Step) : History :=
  { h with undone := [] }.pushApplied s

def takeApplied? (h : History) : Option (Step × History) :=
  match h.applied with
  | [] => none
  | s :: rest => some (s, { h with applied := rest })

def takeUndone? (h : History) : Option (Step × History) :=
  match h.undone with
  | [] => none
  | s :: rest => some (s, { h with undone := rest })

def clear (h : History) : History := { h with applied := [], undone := [] }

def steps (h : History) : List Step := h.applied.reverse

end History

end TruthTrees
