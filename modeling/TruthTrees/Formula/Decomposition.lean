import TruthTrees.Formula.Basic

/-! Taking a formula apart by one rule of the truth tree method, and by all of them in turn. Every
part weighs less than the formula it comes from, so that taking apart ends. -/
namespace TruthTrees

/-- How the two parts of a formula stand together: both hold, one of them holds, or exactly the
cases of a biconditional are listed. -/
inductive Junction where
  | and
  | or
  | iff
deriving DecidableEq, Repr

def Junction.name : Junction → String
  | and => "and"
  | or => "or"
  | iff => "iff"

/-- What one rule makes of a formula: a single part, or two parts with their junction. -/
inductive Decomposition where
  | alone (part : Formula)
  | split (junction : Junction) (left right : Formula)
deriving DecidableEq, Repr

namespace Decomposition

def junction? : Decomposition → Option Junction
  | alone _ => none
  | split j _ _ => some j

def left : Decomposition → Formula
  | alone φ => φ
  | split _ l _ => l

def right? : Decomposition → Option Formula
  | alone _ => none
  | split _ _ r => some r

/-- Whether the parts belong on two branches of the tree. -/
def branches : Decomposition → Bool
  | alone _ | split .and _ _ => false
  | split .or _ _ | split .iff _ _ => true

end Decomposition

namespace Formula

/-- Takes a formula apart by the one rule for its outermost operators. A literal and a negated
literal are their own part. -/
def decompose : Formula → Decomposition
  | literal a => .alone (literal a)
  | not (literal a) => .alone (not (literal a))
  | not (not a) => .alone a
  | not (and a b) => .split .or (not a) (not b)
  | not (or a b) => .split .and (not a) (not b)
  | not (imp a b) => .split .and a (not b)
  | not (iff a b) => .split .iff (and (not a) b) (and a (not b))
  | and a b => .split .and a b
  | or a b => .split .or a b
  | imp a b => .split .or (not a) b
  | iff a b => .split .iff (and a b) (and (not a) (not b))

/-- A biconditional or its negation, read as the conjunction of two disjunctions. -/
def conditionals? : Formula → Option (Formula × Formula)
  | iff a b => some (or (not a) b, or a (not b))
  | not (iff a b) => some (or a b, or (not a) (not b))
  | _ => none

/-- The measure that taking apart lowers. A biconditional counts for the negations that its rule
brings in. -/
def weight : Formula → Nat
  | literal _ => 1
  | not φ => φ.weight + 1
  | and l r | or l r | imp l r => l.weight + r.weight + 1
  | iff l r => l.weight + r.weight + 4

theorem weight_pos (φ : Formula) : 0 < φ.weight := by
  cases φ <;> simp [weight]

/-- Both parts of a formula that splits weigh less than the formula. -/
theorem weight_lt_of_split {φ l r : Formula} {j : Junction} (h : φ.decompose = .split j l r) :
    l.weight < φ.weight ∧ r.weight < φ.weight := by
  have pos := weight_pos
  fun_cases decompose φ <;> simp only [decompose, Decomposition.split.injEq, reduceCtorEq] at h <;>
    obtain ⟨_, rfl, rfl⟩ := h <;> grind [weight]

/-- A formula that does not split is its own part, or its part weighs less. -/
theorem eq_or_weight_lt_of_alone {φ ψ : Formula} (h : φ.decompose = .alone ψ) :
    ψ = φ ∨ ψ.weight < φ.weight := by
  fun_cases decompose φ <;> simp only [decompose, Decomposition.alone.injEq, reduceCtorEq] at h <;>
    subst h <;> grind [weight]

/-- Both conditionals of a biconditional weigh less than it does. -/
theorem weight_lt_of_conditionals {φ l r : Formula} (h : φ.conditionals? = some (l, r)) :
    l.weight < φ.weight ∧ r.weight < φ.weight := by
  fun_cases conditionals? φ <;> simp only [conditionals?, Option.some.injEq, Prod.mk.injEq,
    reduceCtorEq] at h <;> obtain ⟨rfl, rfl⟩ := h <;> simp only [weight] <;> omega

end Formula

/-- The result of taking a formula apart until only literals and negated literals are left. Each
formula on the way is kept. -/
inductive Expansion where
  | done (formula : Formula)
  | single (formula : Formula) (part : Expansion)
  | split (formula : Formula) (junction : Junction) (left right : Expansion)
deriving DecidableEq, Repr

namespace Expansion

/-- The formulas met on the way with the junction of their parts: a formula stands before its parts,
and the left part before the right one. -/
def listing : Expansion → List (Formula × Option Junction)
  | done φ => [(φ, none)]
  | single φ part => (φ, none) :: part.listing
  | split φ j l r => (φ, some j) :: (l.listing ++ r.listing)

end Expansion

def Formula.expand (φ : Formula) : Expansion :=
  match _h : φ.decompose with
  | .alone ψ => if _hψ : ψ = φ then .done φ else .single φ ψ.expand
  | .split j l r => .split φ j l.expand r.expand
termination_by φ.weight
decreasing_by
  · exact (Formula.eq_or_weight_lt_of_alone _h).resolve_left _hψ
  · exact (Formula.weight_lt_of_split _h).1
  · exact (Formula.weight_lt_of_split _h).2

end TruthTrees
