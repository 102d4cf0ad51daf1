import TruthTrees.Formula.Basic

/-! Truth of a formula under an assignment of truth values to the literals. -/
namespace TruthTrees

abbrev Valuation : Type := String → Bool

namespace Formula

def eval (v : Valuation) : Formula → Bool
  | literal name => v name
  | not φ => !φ.eval v
  | and l r => l.eval v && r.eval v
  | or l r => l.eval v || r.eval v
  | imp l r => !l.eval v || r.eval v
  | iff l r => l.eval v == r.eval v

def SameTruth (φ ψ : Formula) : Prop :=
  ∀ v : Valuation, φ.eval v = ψ.eval v

def Satisfiable (φs : List Formula) : Prop :=
  ∃ v : Valuation, ∀ φ ∈ φs, φ.eval v = true

end Formula

end TruthTrees
