import TruthTrees.Formula.Basic

/-! Conjunctions of lists of formulas. They are nested to the left: the list `a`, `b`, `c` has the
conjunction `(a ∧ b) ∧ c`. -/
namespace TruthTrees.Formula

def conjunction? : List Formula → Option Formula
  | [] => none
  | φ :: rest => some (rest.foldl and φ)

/-- The conjunctions of a formula with ever more formulas of a list, the shortest first. -/
def conjunctionsFrom (φ : Formula) : List Formula → List Formula
  | [] => [φ]
  | ψ :: rest => φ :: conjunctionsFrom (and φ ψ) rest

/-- The conjunctions of the nonempty initial parts of a list, the shortest first. -/
def conjunctions : List Formula → List Formula
  | [] => []
  | φ :: rest => conjunctionsFrom φ rest

end TruthTrees.Formula
