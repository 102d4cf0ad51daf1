import TruthTrees.Tree.Rules

/-! Edits of a sheet, which is a tree with one of its nodes as the place where work goes on. Every
edit has an inverse. Edits name lines and nodes by identity, so that they still fit after the numbers
have changed. -/
namespace TruthTrees

/-- A tree and the node at which work goes on. -/
structure Sheet where
  tree : Tree
  current : Nat
deriving DecidableEq, Repr

def Sheet.empty : Sheet := ⟨.empty, Tree.root⟩

def Sheet.currentNumber (s : Sheet) : Nat := s.tree.nodeNumber s.current

/-- A change of a sheet that can be taken back. -/
inductive Edit where
  /-- Puts a line into the tree. -/
  | insert (line : Nat)
  /-- Deletes a line. -/
  | remove (line : Nat)
  /-- Puts a pair of branches below a node. -/
  | graft (node : Nat) (pair : Nat × Nat)
  /-- Deletes the pair of branches below a node. -/
  | prune (node : Nat) (pair : Nat × Nat)
  /-- Changes what a line rests on. -/
  | justify (child : Nat) (before after : Option Nat)
  | checkmark (line : Nat) (checked : Bool)
  | close (node : Nat) (closed : Bool)
  | markOpen (node : Nat) (isOpen : Bool)
  /-- Changes the current node. -/
  | goTo (before after : Nat)
deriving DecidableEq, Repr

namespace Edit

def inverse : Edit → Edit
  | insert i => remove i
  | remove i => insert i
  | graft n pair => prune n pair
  | prune n pair => graft n pair
  | justify c before after => justify c after before
  | checkmark i checked => checkmark i !checked
  | close n closed => close n !closed
  | markOpen n isOpen => markOpen n !isOpen
  | goTo before after => goTo after before

def settle (s : Sheet) : Except Refusal Tree → Sheet × Except Refusal Unit
  | .ok t => ({ s with tree := t }, .ok ())
  | .error e => (s, .error e)

/-- Makes an edit. When the node at which work goes on is pruned, work goes on at its parent. What
was done before a refusal stays done. -/
def apply (s : Sheet) : Edit → Sheet × Except Refusal Unit
  | insert i => settle s (s.tree.restoreLine i)
  | remove i => settle s (s.tree.deleteLine i)
  | graft n pair =>
    let (t, result) := s.tree.restoreBranch n pair
    ({ s with tree := t }, result)
  | prune n pair =>
    match s.tree.deleteBranch n with
    | (t, .error e) => ({ s with tree := t }, .error e)
    | (t, .ok _) =>
      (⟨t, if s.current = pair.1 ∨ s.current = pair.2 then n else s.current⟩, .ok ())
  | justify c _ (some p) =>
    let (t, result) := s.tree.tryLink p c
    ({ s with tree := t }, result)
  | justify c _ none =>
    let (t, result) := s.tree.tryUnlink c
    ({ s with tree := t }, result)
  | checkmark i checked => ({ s with tree := s.tree.setCheckmarked i checked }, .ok ())
  | close n closed => ({ s with tree := s.tree.setClosed n closed }, .ok ())
  | markOpen n isOpen => ({ s with tree := s.tree.setOpen n isOpen }, .ok ())
  | goTo _ after => ({ s with current := after }, .ok ())

end Edit

end TruthTrees
