import TruthTrees.Proofs.Formula.Opposites
import TruthTrees.Proofs.Session.Contradictions

/-! The order of the two lines that close a node. The check negates the first line and compares it
with the second one. For formulas whose negations stand before literals this is as good as negating
the second line and comparing it with the first one, unless one of the two comparisons rests on
comparing chains. For a line and its negation it is not: a double negation is only taken for what it
negates twice if that is a literal or a negated literal. -/
namespace TruthTrees

namespace Formula

/-- If the negation of the first formula says the same as the second one, then this can be seen part
by part. -/
def DeniedByParts (φ ψ : Formula) : Prop :=
  (not φ).equivalent ψ = true → (not φ).matched ψ = true

instance (φ ψ : Formula) : Decidable (φ.DeniedByParts ψ) := inferInstanceAs (Decidable (_ → _))

theorem deniedByParts_of_direct {φ : Formula} (h : φ.direct = true) (ψ : Formula) :
    φ.DeniedByParts ψ := (Chainless.negated h).matched

/-- Which of two formulas is negated makes no difference. -/
theorem equivalent_not_of {φ ψ : Formula} (hφ : φ.negatesLiterals = true)
    (hψ : ψ.negatesLiterals = true) (hparts : φ.DeniedByParts ψ)
    (h : (not φ).equivalent ψ = true) : (not ψ).equivalent φ = true := by
  apply equivalent_of_matched
  rw [matched_not_comm hψ hφ]
  exact hparts h

end Formula

namespace Tree

variable {t : Tree} {n i j : Nat}

/-- Two lines clash in the other order, if the negation of the second one says the same as the first
one. -/
theorem Clash.swap (h : t.Clash n i j)
    (hnot : (Formula.not (t.line j).formula).equivalent (t.line i).formula = true) :
    t.Clash n j i :=
  ⟨h.right_valid, h.left_valid, h.right_above, h.left_above, hnot⟩

/-- Where either denial can be seen part by part, each of the two lines may be named first. -/
theorem isOk_checkClose_comm (hi : (t.line i).formula.negatesLiterals = true)
    (hj : (t.line j).formula.negatesLiterals = true)
    (hij : (t.line i).formula.DeniedByParts (t.line j).formula)
    (hji : (t.line j).formula.DeniedByParts (t.line i).formula) :
    (t.checkClose n i j).isOk = (t.checkClose n j i).isOk := by
  rw [Bool.eq_iff_iff, isOk_checkClose_iff_clash, isOk_checkClose_iff_clash]
  constructor
  · intro h
    exact h.swap (Formula.equivalent_not_of hi hj hij h.negation)
  · intro h
    exact h.swap (Formula.equivalent_not_of hj hi hji h.negation)

/-- Two lines close a node in both orders or in none, if negations stand before literals only and
chains need not be compared; they need not if all conditionals start with literals and there are no
biconditionals. A line and its negation close a node in one order, and in the other order only if
the line is a literal or a negated literal. -/
theorem isOk_checkClose_swap (t : Tree) (n i j : Nat) :
    ((t.line i).formula.negatesLiterals = true → (t.line j).formula.negatesLiterals = true →
      (t.line i).formula.DeniedByParts (t.line j).formula →
      (t.line j).formula.DeniedByParts (t.line i).formula →
      (t.checkClose n i j).isOk = (t.checkClose n j i).isOk) ∧
    ((t.line i).formula.direct = true → (t.line j).formula.direct = true →
      (t.checkClose n i j).isOk = (t.checkClose n j i).isOk) ∧
    ((t.line j).formula = .not (t.line i).formula → (t.line i).valid = true →
      (t.line j).valid = true → t.inAncestry n i = true → t.inAncestry n j = true →
      (t.checkClose n i j).isOk = true ∧
      ((t.checkClose n j i).isOk = true ↔ ∃ name,
        (t.line i).formula = .literal name ∨ (t.line i).formula = .not (.literal name))) := by
  refine ⟨isOk_checkClose_comm, ?_, ?_⟩
  · intro hi hj
    exact isOk_checkClose_comm (Formula.negatesLiterals_of_direct hi)
      (Formula.negatesLiterals_of_direct hj) (Formula.deniedByParts_of_direct hi _)
      (Formula.deniedByParts_of_direct hj _)
  · intro hnot hi hj hiabove hjabove
    have hclash : t.Clash n i j :=
      ⟨hi, hj, hiabove, hjabove, hnot ▸ Formula.equivalent_refl _⟩
    rw [isOk_checkClose_iff_clash, isOk_checkClose_iff_clash,
      ← Formula.equivalent_not_not_iff, ← hnot]
    exact ⟨hclash, fun h => h.negation, hclash.swap⟩

end Tree

namespace Session

/-- A biconditional and the cases in which it fails, a conditional and the case in which it fails,
and a conjunction and its negation. -/
theorem isOk_checkClose_swap_premises :
    let premises (x y : String) : Tree := ((start {}).runAll [.addPremise x, .addPremise y]).tree
    let t := premises "iff(a,b)" "or(and(not(a),b),and(a,not(b)))"
    let u := premises "if(a,b)" "and(a,not(b))"
    let v := premises "and(a,b)" "not(and(a,b))"
    ((t.checkClose 0 0 1).isOk = true ∧ (t.checkClose 0 0 1).isOk = (t.checkClose 0 1 0).isOk) ∧
      ((u.checkClose 0 0 1).isOk = true ∧ (u.checkClose 0 0 1).isOk = (u.checkClose 0 1 0).isOk) ∧
      (v.checkClose 0 0 1).isOk = true ∧ ((v.checkClose 0 1 0).isOk = true ↔ ∃ name,
        (v.line 0).formula = .literal name ∨ (v.line 0).formula = .not (.literal name)) := by
  intro premises t u v
  refine ⟨⟨by decide +kernel, ?_⟩, ⟨by decide +kernel, ?_⟩, ?_⟩
  · exact (Tree.isOk_checkClose_swap t 0 0 1).1 (by decide +kernel) (by decide +kernel)
      (by decide +kernel) (by decide +kernel)
  · exact (Tree.isOk_checkClose_swap u 0 0 1).2.1 (by decide +kernel) (by decide +kernel)
  · exact (Tree.isOk_checkClose_swap v 0 0 1).2.2 (by decide +kernel) (by decide +kernel)
      (by decide +kernel) (by decide +kernel) (by decide +kernel)

/-- Of two premises the first and the second one close the root, and the second and the first one do
not. -/
def ClosesOneWay (x y : String) : Prop :=
  let s := (start {}).runAll [.addPremise x, .addPremise y]
  (s.run (.close 1 2)).2.isOk = true ∧ (s.run (.close 2 1)).2.isOk = false

/-- Without one of the conditions the order counts: in the first two of these sessions something
else than a literal is negated, or a literal is negated three times; in the last two a chain has to
be compared with another one, which comes up before a conditional or among the cases of a
biconditional, and only if that is the line which is negated. -/
theorem closesOneWay_negations :
    ClosesOneWay "and(a,b)" "not(and(a,b))" ∧
    ClosesOneWay "a" "not(not(not(a)))" ∧
    ClosesOneWay "if(or(a,b),not(a))" "and(a,or(a,or(a,b)))" ∧
    ClosesOneWay "iff(a,b)" "or(and(and(not(a),b),b),and(a,not(b)))" := by
  refine ⟨⟨?_, ?_⟩, ⟨?_, ?_⟩, ⟨?_, ?_⟩, ⟨?_, ?_⟩⟩
  all_goals decide +kernel

end Session

end TruthTrees
