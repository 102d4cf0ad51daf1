import TruthTrees.Formula.Equivalence
import TruthTrees.Formula.Semantics

/-! What the parts of a formula say together: one step of taking apart keeps the truth value, in
either reading of a biconditional. -/
namespace TruthTrees

/-- The truth value of two parts that stand together in a junction. The cases of a biconditional are
alternatives. -/
def Junction.join : Junction → Bool → Bool → Bool
  | and, a, b => a && b
  | or, a, b | iff, a, b => a || b

theorem Junction.join_comm (j : Junction) (a b : Bool) : j.join a b = j.join b a := by
  cases j <;> cases a <;> cases b <;> rfl

def Decomposition.eval (v : Valuation) : Decomposition → Bool
  | alone φ => φ.eval v
  | split j l r => j.join (l.eval v) (r.eval v)

namespace Formula

/-- Taking a formula apart by one rule keeps its truth value. -/
theorem eval_decompose (v : Valuation) (φ : Formula) : φ.decompose.eval v = φ.eval v := by
  fun_cases decompose φ <;> simp only [Decomposition.eval, Junction.join, eval]
  all_goals grind

/-- A formula that decomposes into one has the truth value of that one. -/
theorem eval_of_alone {φ a : Formula} (h : φ.decompose = .alone a) (v : Valuation) :
    φ.eval v = a.eval v := by
  rw [← eval_decompose, h, Decomposition.eval]

/-- A formula that splits has the truth value of its parts joined. -/
theorem eval_of_split {φ l r : Formula} {j : Junction} (h : φ.decompose = .split j l r)
    (v : Valuation) : φ.eval v = j.join (l.eval v) (r.eval v) := by
  rw [← eval_decompose, h, Decomposition.eval]

/-- A biconditional has the truth value of the conjunction of its conditionals. -/
theorem eval_of_conditionals {φ l r : Formula} (h : φ.conditionals? = some (l, r))
    (v : Valuation) : φ.eval v = Junction.and.join (l.eval v) (r.eval v) := by
  fun_cases conditionals? φ <;>
    simp only [conditionals?, Option.some.injEq, Prod.mk.injEq, reduceCtorEq] at h
  all_goals
    obtain ⟨rfl, rfl⟩ := h
    simp only [eval, Junction.join]
    grind

/-- Formulas whose parts are laid beside each other are joined from them by one junction. -/
theorem eval_of_align_pairs {φ ψ l₁ r₁ l₂ r₂ : Formula} (h : align φ ψ = .pairs l₁ r₁ l₂ r₂) :
    ∃ j : Junction, ∀ v : Valuation, φ.eval v = j.join (l₁.eval v) (r₁.eval v) ∧
      ψ.eval v = j.join (l₂.eval v) (r₂.eval v) := by
  unfold align at h
  split at h
  all_goals try split at h
  all_goals simp only [Alignment.pairs.injEq, reduceCtorEq] at h
  all_goals obtain ⟨rfl, rfl, rfl, rfl⟩ := h
  · rename_i hφ hψ
    exact ⟨.or, fun v => ⟨eval_of_split hφ v, eval_of_split hψ v⟩⟩
  · rename_i hφ hψ
    exact ⟨.or, fun v => ⟨eval_of_split hφ v, eval_of_split hψ v⟩⟩
  · rename_i hψ _ _ _ hφ
    exact ⟨.and, fun v => ⟨eval_of_conditionals hφ v, eval_of_split hψ v⟩⟩
  · rename_i hφ _ _ _ _ hψ
    exact ⟨.and, fun v => ⟨eval_of_split hφ v, eval_of_conditionals hψ v⟩⟩
  · rename_i j _ _ _ _ _ _ _ _ _ hφ hψ same
    subst same
    exact ⟨j, fun v => ⟨eval_of_split hφ v, eval_of_split hψ v⟩⟩

theorem eval_of_align_single {φ ψ a b : Formula} (h : align φ ψ = .single a b) (v : Valuation) :
    φ.eval v = a.eval v ∧ ψ.eval v = b.eval v := by
  unfold align at h
  split at h
  all_goals try split at h
  all_goals simp only [Alignment.single.injEq, reduceCtorEq] at h
  obtain ⟨rfl, rfl⟩ := h
  exact ⟨eval_of_alone ‹_› v, eval_of_alone ‹_› v⟩

end Formula

end TruthTrees
