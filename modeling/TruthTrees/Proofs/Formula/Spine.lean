import TruthTrees.Proofs.Formula.Symmetry

/-! What is found in a conjunction, a disjunction or a conditional. Going into the parts of such a
formula as long as they are built by its own operator, one meets its spine. The search finds what is
equivalent to a formula of the spine and nothing else, as long as what it looks for cannot be taken
apart on the way. -/
namespace TruthTrees.Formula

/-- The spine of a formula: the formula, and both parts of every formula of the spine that is built
by the same operator. -/
inductive Spine (φ : Formula) : Formula → Prop
  | self : Spine φ φ
  | left {χ : Formula} (h : Spine φ χ) (hop : χ.operator? = φ.operator?) :
    Spine φ χ.decompose.left
  | right {χ r : Formula} (h : Spine φ χ) (hop : χ.operator? = φ.operator?)
      (hr : χ.decompose.right? = some r) : Spine φ r

variable {φ ψ χ l r : Formula} {j : Junction}

namespace Spine

theorem left_of_split (h : φ.Spine χ) (hop : χ.operator? = φ.operator?)
    (hχ : χ.decompose = .split j l r) : φ.Spine l := by
  have hleft := h.left hop
  rwa [hχ] at hleft

theorem right_of_split (h : φ.Spine χ) (hop : χ.operator? = φ.operator?)
    (hχ : χ.decompose = .split j l r) : φ.Spine r :=
  h.right hop (by rw [hχ, Decomposition.right?])

/-- The spine of a formula that goes on the spine of another one goes on that spine. -/
theorem trans (h : φ.Spine χ) (hop : χ.operator? = φ.operator?) (h' : χ.Spine ψ) : φ.Spine ψ := by
  induction h' with
  | self => exact h
  | left _ hop' ih => exact ih.left (hop'.trans hop)
  | right _ hop' hr ih => exact ih.right (hop'.trans hop) hr

end Spine

/-- A formula of one of these operators always splits. -/
theorem exists_split_of_operator?
    (hop : φ.operator? = some .and ∨ φ.operator? = some .or ∨ φ.operator? = some .imp) :
    ∃ j l r, φ.decompose = .split j l r := by
  cases φ <;> simp [operator?] at hop <;> exact ⟨_, _, _, rfl⟩

section Search

variable (hop : φ.operator? = some .and ∨ φ.operator? = some .or ∨ φ.operator? = some .imp)

include hop

/-- Nothing is missed: what is equivalent to a formula of the spine is found, and so is what is found
further down from there. -/
theorem Spine.contains (h : φ.Spine χ) :
    (ψ.equivalent χ = true → φ.contains ψ = true) ∧
      (χ.operator? = φ.operator? → χ.contains ψ = true → φ.contains ψ = true) := by
  induction h with
  | self => exact ⟨contains_of_equivalent, fun _ hc => hc⟩
  | @left χ _ hχ ih =>
    rw [← hχ] at hop
    obtain ⟨j, l, r, hsplit⟩ := exists_split_of_operator? hop
    rw [hsplit, Decomposition.left]
    constructor
    · intro he
      exact ih.2 hχ (contains_of_below ((containsBelow_iff hsplit).mpr (.left hsplit he)))
    · intro hl hc
      have hbelow := (containsBelow_iff hsplit).mpr (.inLeft hsplit (hl.trans hχ.symm) hc)
      exact ih.2 hχ (contains_of_below hbelow)
  | @right χ r _ hχ hr ih =>
    rw [← hχ] at hop
    obtain ⟨j, l, r', hsplit⟩ := exists_split_of_operator? hop
    obtain rfl : r' = r := by simpa [hsplit, Decomposition.right?] using hr
    constructor
    · intro he
      exact ih.2 hχ (contains_of_below ((containsBelow_iff hsplit).mpr (.right hsplit he)))
    · intro hl hc
      have hbelow := (containsBelow_iff hsplit).mpr (.inRight hsplit (hl.trans hχ.symm) hc)
      exact ih.2 hχ (contains_of_below hbelow)

/-- Nothing else is found: what is neither built by the same operator nor a biconditional is not
taken apart, so the search only goes along the spine. -/
theorem exists_spine_of_contains (hψ : ψ.operator? ≠ φ.operator?) (hiff : ψ.operator? ≠ some .iff)
    (h : φ.contains ψ = true) : ∃ χ, φ.Spine χ ∧ ψ.equivalent χ = true := by
  induction hn : φ.weight using Nat.strong_induction_on generalizing φ with
  | _ n ih =>
    obtain ⟨j, l, r, hsplit⟩ := exists_split_of_operator? hop
    have hw := weight_lt_of_split hsplit
    have hl := Spine.self.left_of_split rfl hsplit
    have hr := Spine.self.right_of_split rfl hsplit
    rcases contains_iff.mp h with he | hbelow
    · exact ⟨φ, .self, he⟩
    · cases (containsBelow_iff hsplit).mp hbelow with
      | left h' he =>
        cases hsplit.symm.trans h'
        exact ⟨l, hl, he⟩
      | right h' he =>
        cases hsplit.symm.trans h'
        exact ⟨r, hr, he⟩
      | inLeft h' hl' hc =>
        cases hsplit.symm.trans h'
        obtain ⟨χ, hχ, he⟩ := ih _ (by omega) (by rwa [hl']) (by rwa [hl']) hc rfl
        exact ⟨χ, hl.trans hl' hχ, he⟩
      | inRight h' hr' hc =>
        cases hsplit.symm.trans h'
        obtain ⟨χ, hχ, he⟩ := ih _ (by omega) (by rwa [hr']) (by rwa [hr']) hc rfl
        exact ⟨χ, hr.trans hr' hχ, he⟩
      | parts hop' => exact absurd hop' hψ
      | conditionals _ hiff' => simp [hiff'] at hop
      | cases _ hiff' => exact absurd hiff' hiff

end Search

/-- In a conjunction, a disjunction or a conditional a formula of another kind, biconditionals apart,
is found exactly if it is equivalent to a formula of the spine. -/
theorem contains_iff_exists_spine (φ ψ : Formula)
    (hop : φ.operator? = some .and ∨ φ.operator? = some .or ∨ φ.operator? = some .imp)
    (hψ : ψ.operator? ≠ φ.operator?) (hiff : ψ.operator? ≠ some .iff) :
    φ.contains ψ = true ↔ ∃ χ, φ.Spine χ ∧ ψ.equivalent χ = true :=
  ⟨exists_spine_of_contains hop hψ hiff, fun ⟨_, hχ, he⟩ => (hχ.contains hop).1 he⟩

/-- In a chain of disjunctions a conjunction is found that is an operand up to the order of its own
parts, and what stands in that conjunction or in a conditional of the chain is not. -/
theorem contains_iff_exists_spine_disjunctions :
    let conjunction := and (literal "b") (not (or (literal "c") (literal "d")))
    let φ := or (or (literal "a") conjunction) (or (imp (literal "e") (literal "f")) (literal "g"))
    let ψ := and (not (or (literal "d") (literal "c"))) (literal "b")
    φ.operator? = some .or ∧ ψ.operator? = some .and ∧ φ.contains ψ = true ∧
      φ.contains (literal "b") = false ∧ ¬ ∃ χ, φ.Spine χ ∧ (literal "b").equivalent χ = true := by
  intro conjunction φ ψ
  have hop : φ.operator? = some .or := rfl
  have hspine : φ.Spine conjunction := (Spine.self.left rfl).right rfl rfl
  obtain ⟨hequivalent, hmissed⟩ :
      ψ.equivalent conjunction = true ∧ φ.contains (literal "b") = false := by
    decide +kernel
  refine ⟨hop, rfl, ?_, hmissed, ?_⟩
  · rw [contains_iff_exists_spine φ ψ (Or.inr (Or.inl hop)) (by decide) (by decide)]
    exact ⟨conjunction, hspine, hequivalent⟩
  · rw [← contains_iff_exists_spine φ _ (Or.inr (Or.inl hop)) (by decide) (by decide), hmissed]
    decide

end TruthTrees.Formula
