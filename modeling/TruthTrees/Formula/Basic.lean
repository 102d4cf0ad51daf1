/-! Propositional formulas, their operators and their two written forms. -/
namespace TruthTrees

inductive Operator where
  | not
  | and
  | or
  | imp
  | iff
deriving DecidableEq, Repr

namespace Operator

def name : Operator → String
  | not => "not"
  | and => "and"
  | or => "or"
  | imp => "if"
  | iff => "iff"

def arity : Operator → Nat
  | not => 1
  | _ => 2

/-- The operator with the given name, whatever the case of its ASCII letters. -/
def ofName? (name : String) : Option Operator :=
  match name.toList.map Char.toLower with
  | ['n', 'o', 't'] => some not
  | ['a', 'n', 'd'] => some and
  | ['o', 'r'] => some or
  | ['i', 'f'] => some imp
  | ['i', 'f', 'f'] => some iff
  | _ => none

end Operator

/-- A propositional formula over named literals. -/
inductive Formula where
  | literal (name : String)
  | not (body : Formula)
  | and (left right : Formula)
  | or (left right : Formula)
  | imp (left right : Formula)
  | iff (left right : Formula)
deriving DecidableEq, Repr, Inhabited

namespace Formula

def operator? : Formula → Option Operator
  | literal _ => none
  | not _ => some .not
  | and _ _ => some .and
  | or _ _ => some .or
  | imp _ _ => some .imp
  | iff _ _ => some .iff

def kindName (φ : Formula) : String :=
  match φ.operator? with
  | some op => op.name
  | none => "literal"

def operands? : Formula → Option (Formula × Formula)
  | literal _ | not _ => none
  | and l r | or l r | imp l r | iff l r => some (l, r)

def depth : Formula → Nat
  | literal _ => 0
  | not φ => 1 + φ.depth
  | and l r | or l r | imp l r | iff l r => 1 + max l.depth r.depth

def size : Formula → Nat
  | literal _ => 1
  | not φ => 1 + φ.size
  | and l r | or l r | imp l r | iff l r => 1 + l.size + r.size

/-- Canonical text: operators are called by name, and no blank is written. -/
def text : Formula → String
  | literal name => name
  | not φ => "not(" ++ φ.text ++ ")"
  | and l r => "and(" ++ l.text ++ "," ++ r.text ++ ")"
  | or l r => "or(" ++ l.text ++ "," ++ r.text ++ ")"
  | imp l r => "if(" ++ l.text ++ "," ++ r.text ++ ")"
  | iff l r => "iff(" ++ l.text ++ "," ++ r.text ++ ")"

/-- Symbolic text: operators are signs, and every binary operation stands in brackets. -/
def symbolic : Formula → String
  | literal name => name
  | not φ => "¬" ++ φ.symbolic
  | and l r => "(" ++ l.symbolic ++ " ∧ " ++ r.symbolic ++ ")"
  | or l r => "(" ++ l.symbolic ++ " ∨ " ++ r.symbolic ++ ")"
  | imp l r => "(" ++ l.symbolic ++ " → " ++ r.symbolic ++ ")"
  | iff l r => "(" ++ l.symbolic ++ " ↔ " ++ r.symbolic ++ ")"

end Formula

end TruthTrees
