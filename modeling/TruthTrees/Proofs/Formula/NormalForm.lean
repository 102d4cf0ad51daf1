import Mathlib.Logic.Relation
import TruthTrees.Proofs.Formula.Meaning

/-! Taking a formula apart as far as possible gives a normal form: literals and negated literals,
joined by conjunctions and disjunctions. The parts of a biconditional are larger than the
biconditional itself, so that the walk ends is not a matter of size but of weight. -/
namespace TruthTrees

/-- The truth value of a formula that was taken apart, from the truth values of what is left of it.
A part that stands alone speaks for the formula. -/
def Expansion.eval (v : Valuation) : Expansion → Bool
  | done φ => φ.eval v
  | single _ part => part.eval v
  | split _ j l r => j.join (l.eval v) (r.eval v)

/-- The formulas that are left when a formula was taken apart, from left to right. -/
def Expansion.ends : Expansion → List Formula
  | done φ => [φ]
  | single _ part => part.ends
  | split _ _ l r => l.ends ++ r.ends

namespace Formula

/-- The walk that takes a formula apart goes on into its first part, unless that is the formula
itself, and into its second part, if there is one. -/
def GoesInto (φ part : Formula) : Prop :=
  (part = φ.decompose.left ∧ part ≠ φ) ∨ φ.decompose.right? = some part

def EndsWalk (φ ψ : Formula) : Prop :=
  Relation.ReflTransGen GoesInto φ ψ ∧ ∀ part, ¬ ψ.GoesInto part

variable {φ ψ l r part : Formula} {j : Junction}

theorem goesInto_of_alone (h : φ.decompose = .alone ψ) :
    φ.GoesInto part ↔ part = ψ ∧ part ≠ φ := by
  simp [GoesInto, h, Decomposition.left, Decomposition.right?]

theorem goesInto_of_split (h : φ.decompose = .split j l r) :
    φ.GoesInto part ↔ part = l ∨ part = r := by
  have hne : l ≠ φ := by
    rintro rfl
    exact Nat.lt_irrefl _ (weight_lt_of_split h).1
  simp only [GoesInto, h, Decomposition.left, Decomposition.right?, Option.some.injEq]
  constructor
  · rintro (⟨rfl, -⟩ | rfl)
    · exact Or.inl rfl
    · exact Or.inr rfl
  · rintro (rfl | rfl)
    · exact Or.inl ⟨rfl, hne⟩
    · exact Or.inr rfl

/-- Every step of the walk lowers the weight. -/
theorem GoesInto.weight_lt (h : φ.GoesInto part) : part.weight < φ.weight := by
  cases hd : φ.decompose with
  | alone ψ =>
    obtain ⟨rfl, hne⟩ := (goesInto_of_alone hd).mp h
    exact (eq_or_weight_lt_of_alone hd).resolve_left hne
  | split j l r =>
    have hw := weight_lt_of_split hd
    rcases (goesInto_of_split hd).mp h with rfl | rfl
    · exact hw.1
    · exact hw.2

/-- No walk goes on for ever. -/
theorem wellFounded_goesInto : WellFounded (fun part φ : Formula => φ.GoesInto part) :=
  Subrelation.wf GoesInto.weight_lt (measure weight).wf

/-- Only literals and negated literals are their own part. -/
theorem eq_literal_of_alone_self (h : φ.decompose = .alone φ) :
    ∃ a, φ = literal a ∨ φ = not (literal a) := by
  fun_cases decompose φ <;> simp only [decompose, Decomposition.alone.injEq, reduceCtorEq] at h
  case case1 a => exact ⟨a, Or.inl rfl⟩
  case case2 a => exact ⟨a, Or.inr rfl⟩
  case case3 a =>
    have hw := congrArg weight h
    simp only [weight] at hw
    omega

/-- A formula that the walk goes on from is no end of it. -/
theorem endsWalk_of_goesInto (hpart : φ.GoesInto part) :
    φ.EndsWalk ψ ↔ ∃ next, φ.GoesInto next ∧ next.EndsWalk ψ := by
  constructor
  · rintro ⟨hwalk, hend⟩
    rcases hwalk.cases_head with rfl | ⟨next, hnext, hrest⟩
    · exact absurd hpart (hend part)
    · exact ⟨next, hnext, hrest, hend⟩
  · rintro ⟨next, hnext, hwalk, hend⟩
    exact ⟨.head hnext hwalk, hend⟩

/-- What is left of a formula is where the walk comes to an end. -/
theorem mem_ends_expand : ψ ∈ φ.expand.ends ↔ φ.EndsWalk ψ := by
  fun_induction expand φ with
  | case1 φ h =>
    have hstop : ∀ part, ¬ φ.GoesInto part := fun part hpart =>
      ((goesInto_of_alone h).mp hpart).2 ((goesInto_of_alone h).mp hpart).1
    rw [Expansion.ends, List.mem_singleton]
    constructor
    · rintro rfl
      exact ⟨.refl, hstop⟩
    · rintro ⟨hwalk, -⟩
      rcases hwalk.cases_head with rfl | ⟨next, hnext, -⟩
      · rfl
      · exact absurd hnext (hstop next)
  | case2 φ χ h hne ih =>
    have hstep : φ.GoesInto χ := (goesInto_of_alone h).mpr ⟨rfl, hne⟩
    rw [Expansion.ends, ih, endsWalk_of_goesInto hstep]
    constructor
    · exact fun hend => ⟨χ, hstep, hend⟩
    · rintro ⟨next, hnext, hend⟩
      obtain rfl := ((goesInto_of_alone h).mp hnext).1
      exact hend
  | case3 φ j l r h ihl ihr =>
    have hleft : φ.GoesInto l := (goesInto_of_split h).mpr (Or.inl rfl)
    have hright : φ.GoesInto r := (goesInto_of_split h).mpr (Or.inr rfl)
    rw [Expansion.ends, List.mem_append, ihl, ihr, endsWalk_of_goesInto hleft]
    constructor
    · rintro (hend | hend)
      · exact ⟨l, hleft, hend⟩
      · exact ⟨r, hright, hend⟩
    · rintro ⟨next, hnext, hend⟩
      rcases (goesInto_of_split h).mp hnext with rfl | rfl
      · exact Or.inl hend
      · exact Or.inr hend

/-- A walk into a formula ends at a name or a negated name. -/
theorem EndsWalk.eq_literal (h : φ.EndsWalk ψ) : ∃ a, ψ = literal a ∨ ψ = not (literal a) := by
  cases hd : ψ.decompose with
  | alone χ =>
    by_cases hself : χ = ψ
    · exact eq_literal_of_alone_self (hself ▸ hd)
    · exact absurd ((goesInto_of_alone hd).mpr ⟨rfl, hself⟩) (h.2 χ)
  | split j l r => exact absurd ((goesInto_of_split hd).mpr (Or.inl rfl)) (h.2 l)

/-- Taking a formula apart as far as possible keeps its truth value. -/
theorem eval_expand (v : Valuation) (φ : Formula) : φ.expand.eval v = φ.eval v := by
  fun_induction expand φ with
  | case1 φ h => rfl
  | case2 φ χ h hne ih => rw [Expansion.eval, ih, eval_of_alone h]
  | case3 φ j l r h ihl ihr => rw [Expansion.eval, ihl, ihr, eval_of_split h]

/-- The walk that takes a formula apart ends, on every way and for every formula. It ends at literals
and negated literals, which are what is left of the formula, and joined as they were taken apart they
have its truth value. A biconditional or its negation has the truth value of the conjunction of its
conditionals. -/
theorem expand_normal_form :
    WellFounded (fun part φ : Formula => φ.GoesInto part) ∧
    ∀ φ : Formula,
      (∀ ψ, ψ ∈ φ.expand.ends ↔ φ.EndsWalk ψ) ∧
      (∀ ψ, φ.EndsWalk ψ → ∃ a, ψ = literal a ∨ ψ = not (literal a)) ∧
      (∀ v, φ.expand.eval v = φ.eval v) ∧
      ∀ l r, φ.conditionals? = some (l, r) → ∀ v, φ.eval v = (and l r).eval v := by
  refine ⟨wellFounded_goesInto, fun φ => ⟨fun _ => mem_ends_expand, fun _ => EndsWalk.eq_literal,
    fun v => eval_expand v φ, ?_⟩⟩
  intro l r h v
  rw [eval_of_conditionals h, Junction.join, eval]

/-- A negated biconditional under a double negation, with a conditional in it. -/
theorem expand_normal_form_biconditional :
    let φ := not (not (not (iff (imp (literal "a") (literal "b")) (literal "c"))))
    let χ := not (iff (imp (literal "a") (literal "b")) (literal "c"))
    let v : Valuation := fun name => name = "c"
    φ.expand.ends = [literal "a", not (literal "b"), literal "c", not (literal "a"), literal "b",
      not (literal "c")] ∧
    (∀ ψ ∈ φ.expand.ends, ∃ a, ψ = literal a ∨ ψ = not (literal a)) ∧ φ.expand.eval v = φ.eval v ∧
    χ.eval v = (and (or (imp (literal "a") (literal "b")) (literal "c"))
      (or (not (imp (literal "a") (literal "b"))) (not (literal "c")))).eval v := by
  intro φ χ v
  obtain ⟨hends, hliteral, heval, -⟩ := expand_normal_form.2 φ
  exact ⟨by decide +kernel, fun ψ hψ => hliteral ψ ((hends ψ).mp hψ), heval v,
    (expand_normal_form.2 χ).2.2.2 _ _ rfl v⟩

end Formula

end TruthTrees
