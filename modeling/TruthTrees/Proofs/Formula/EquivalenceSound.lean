import Mathlib.Data.Nat.Init
import TruthTrees.Proofs.Formula.Meaning

/-! Structural equivalence is sound: formulas that say the same by their shape have the same truth
value under every valuation. Equivalence and containment call each other, so both are treated at
once. Containment in a conjunction means to follow from it, and containment in a disjunction or a
conditional means to imply it. -/
namespace TruthTrees.Formula

def Entails (φ ψ : Formula) : Prop :=
  ∀ v : Valuation, φ.eval v = true → ψ.eval v = true

theorem Entails.trans {φ ψ χ : Formula} (h : φ.Entails ψ) (h' : ψ.Entails χ) : φ.Entails χ :=
  fun v hv => h' v (h v hv)

theorem SameTruth.entails {φ ψ : Formula} (h : φ.SameTruth ψ) : φ.Entails ψ :=
  fun v hv => (h v).symm.trans hv

theorem SameTruth.symm {φ ψ : Formula} (h : φ.SameTruth ψ) : ψ.SameTruth φ :=
  fun v => (h v).symm

/-- What it means that a formula is reached by taking another one apart through its own operator. A
negation is built from operators of either kind, and nothing is said about it. -/
def Reaches : Formula → Formula → Prop
  | and l r, ψ => (and l r).Entails ψ
  | or l r, ψ => ψ.Entails (or l r)
  | imp l r, ψ => ψ.Entails (imp l r)
  | _, _ => True

/-- The formulas below are the operands of one chain: the parts of a conjunction are joined by
`and`, those of a disjunction or a conditional by `or`. -/
theorem junction_of_split {φ l r : Formula} {j : Junction} (h : φ.decompose = .split j l r) :
    (φ.operator? = some .and → j = .and) ∧
      (φ.operator? = some .or ∨ φ.operator? = some .imp → j = .or) := by
  cases φ <;> simp_all [decompose, operator?]

/-- A conjunction reaches what follows from it. -/
theorem reaches_iff_of_and {φ : Formula} (h : φ.operator? = some .and) (ψ : Formula) :
    φ.Reaches ψ ↔ φ.Entails ψ := by
  cases φ <;> simp_all [operator?, Reaches]

/-- A disjunction or a conditional reaches what it follows from. -/
theorem reaches_iff_of_or {φ : Formula} (h : φ.operator? = some .or ∨ φ.operator? = some .imp)
    (ψ : Formula) : φ.Reaches ψ ↔ ψ.Entails φ := by
  cases φ <;> simp_all [operator?, Reaches]

/-- Only conjunctions, disjunctions and conditionals have something to show. -/
theorem reaches_of_cases {φ ψ : Formula}
    (hand : φ.operator? = some .and → φ.Entails ψ)
    (hor : φ.operator? = some .or ∨ φ.operator? = some .imp → ψ.Entails φ) : φ.Reaches ψ := by
  cases φ <;> simp_all [operator?, Reaches]

theorem Reaches.of_sameTruth {φ ψ : Formula} (h : ψ.SameTruth φ) : φ.Reaches ψ :=
  reaches_of_cases (fun _ => h.symm.entails) (fun _ => h.entails)

/-- A part of a formula is reached from it. -/
theorem reaches_part {φ l r : Formula} {j : Junction} (h : φ.decompose = .split j l r) :
    φ.Reaches l ∧ φ.Reaches r := by
  have hv := eval_of_split h
  have hj := junction_of_split h
  constructor
  all_goals
    apply reaches_of_cases
    · intro hop v htrue
      rw [hv, hj.1 hop] at htrue
      simp_all [Junction.join]
    · intro hop v htrue
      rw [hv, hj.2 hop]
      simp [Junction.join, htrue]

/-- Along operands that are built by the same operator, reaching goes on. -/
theorem Reaches.trans {φ ψ χ : Formula} (h : φ.Reaches ψ) (hop : ψ.operator? = φ.operator?)
    (h' : ψ.Reaches χ) : φ.Reaches χ := by
  apply reaches_of_cases
  · intro hφ
    exact ((reaches_iff_of_and hφ ψ).mp h).trans
      ((reaches_iff_of_and (hop.trans hφ) χ).mp h')
  · intro hφ
    have hψ : ψ.operator? = some .or ∨ ψ.operator? = some .imp := by rwa [hop]
    exact ((reaches_iff_of_or hψ χ).mp h').trans ((reaches_iff_of_or hφ ψ).mp h)

/-- A formula that comes after the same formula, in the sense that both hold together. -/
theorem Reaches.congr {φ ψ χ : Formula} (h : φ.Reaches ψ) (he : χ.SameTruth ψ) : φ.Reaches χ := by
  apply reaches_of_cases
  · intro hφ
    exact ((reaches_iff_of_and hφ ψ).mp h).trans he.symm.entails
  · intro hφ
    exact he.entails.trans ((reaches_iff_of_or hφ ψ).mp h)

/-- A formula both parts of which are reached is reached, when its parts stand together as those of
the formula above do, and also when they are the cases of a biconditional. -/
theorem reaches_of_parts {φ ψ l r : Formula} {j : Junction} (h : ψ.decompose = .split j l r)
    (hop : ψ.operator? = φ.operator? ∨ ψ.operator? = some .iff)
    (hl : φ.Reaches l) (hr : φ.Reaches r) : φ.Reaches ψ := by
  have hv := eval_of_split h
  apply reaches_of_cases
  · intro hφ v htrue
    have hl' := (reaches_iff_of_and hφ l).mp hl v htrue
    have hr' := (reaches_iff_of_and hφ r).mp hr v htrue
    rw [hv, hl', hr']
    cases j <;> rfl
  · intro hφ v htrue
    have hj : j = .or ∨ j = .iff := by
      rcases hop with hop | hop
      · exact Or.inl ((junction_of_split h).2 (by rwa [hop]))
      · cases ψ <;> simp_all [operator?, decompose]
    have hlr : l.eval v = true ∨ r.eval v = true := by
      rw [hv] at htrue
      rcases hj with rfl | rfl <;> simpa [Junction.join] using htrue
    rcases hlr with hl' | hr'
    · exact (reaches_iff_of_or hφ l).mp hl v hl'
    · exact (reaches_iff_of_or hφ r).mp hr v hr'

/-- Two chains of one operator that reach each other entail each other. -/
theorem sameTruth_of_reaches {φ ψ : Formula} (h : φ.sameChain ψ = true) (hφψ : φ.Reaches ψ)
    (hψφ : ψ.Reaches φ) : φ.SameTruth ψ := by
  have hboth : φ.Entails ψ ∧ ψ.Entails φ := by
    cases φ <;> cases ψ <;> simp_all [sameChain, Reaches]
  intro v
  rw [Bool.eq_iff_iff]
  exact ⟨hboth.1 v, hboth.2 v⟩

/-- Nothing is said about what a biconditional contains. -/
theorem reaches_of_iff {φ : Formula} (h : φ.operator? = some .iff) (ψ : Formula) :
    φ.Reaches ψ := by
  cases φ <;> simp_all [operator?, Reaches]

/-- Both comparisons are sound: equivalent formulas have the same truth value, and a formula reaches
what it contains. -/
theorem comparisons_sound :
    (∀ φ ψ : Formula, φ.equivalent ψ = true → φ.SameTruth ψ) ∧
      (∀ φ ψ : Formula, φ.containsBelow ψ = true → φ.Reaches ψ) ∧
      (∀ φ ψ : Formula, φ.contains ψ = true → φ.Reaches ψ) := by
  apply equivalent.mutual_induct
  case case1 => exact fun ψ _ v => rfl
  case case2 =>
    intro φ ψ hne a b halign h v
    rw [equivalent, if_neg hne, halign] at h
    rw [(eval_of_align_single halign v).1, (eval_of_align_single halign v).2, of_decide_eq_true h]
  case case3 =>
    intro φ ψ hne l₁ r₁ l₂ r₂ halign hll hrr hlr hrl hbelow hbelow' h v
    obtain ⟨j, hj⟩ := eval_of_align_pairs halign
    rw [equivalent, if_neg hne, halign] at h
    simp only [Bool.or_eq_true, Bool.and_eq_true] at h
    rcases h with (⟨hl, hr⟩ | ⟨hl, hr⟩) | hchain
    · rw [(hj v).1, (hj v).2, hll hl v, hrr hr v]
    · rw [(hj v).1, (hj v).2, hlr hl v, hrl hr v, j.join_comm]
    · split at hchain
      · rename_i hsame
        rw [Bool.and_eq_true] at hchain
        exact sameTruth_of_reaches hsame (hbelow' hsame hchain.2) (hbelow hsame hchain.1) v
      · simp at hchain
  case case4 =>
    intro φ ψ hne halign h
    rw [equivalent, if_neg hne, halign] at h
    simp at h
  case case5 =>
    intro φ ψ a halone ih h
    rw [containsBelow, halone] at h
    apply Reaches.of_sameTruth
    intro v
    rw [ih h v, eval_of_alone halone]
  case case6 =>
    intro φ ψ j l r hsplit hl hr hinl hinr hpartl hpartr hcondl hcondr h
    have hparts := reaches_part hsplit
    rw [containsBelow, hsplit] at h
    simp only [Bool.or_eq_true, Bool.and_eq_true, decide_eq_true_eq] at h
    rcases h with (((h | h) | ⟨hop, h⟩) | ⟨hop, h⟩) | h
    · exact hparts.1.congr (hl h)
    · exact hparts.2.congr (hr h)
    · exact hparts.1.trans hop (hinl h)
    · exact hparts.2.trans hop (hinr h)
    · split at h
      · rename_i hop
        split at h
        · rename_i hψ
          rw [Bool.and_eq_true] at h
          exact reaches_of_parts hψ (Or.inl hop) (hpartl _ _ _ hψ h.1) (hpartr _ _ _ hψ h.2)
        · simp at h
      · split at h
        · rename_i hiff
          exact reaches_of_iff hiff ψ
        · split at h
          · rename_i hiff
            split at h
            · rename_i hψ
              rw [Bool.and_eq_true] at h
              exact reaches_of_parts hψ (Or.inr hiff) (hpartl _ _ _ hψ h.1) (hpartr _ _ _ hψ h.2)
            · simp at h
          · simp at h
  case case7 =>
    intro φ ψ hequiv hbelow h
    rw [contains, Bool.or_eq_true] at h
    rcases h with h | h
    · exact Reaches.of_sameTruth (hequiv h)
    · exact hbelow h

/-- Formulas that say the same by their shape have the same truth value under every valuation. -/
theorem equivalent_sound (φ ψ : Formula) (h : φ.equivalent ψ = true) (v : Valuation) :
    φ.eval v = ψ.eval v :=
  comparisons_sound.1 φ ψ h v

/-- A biconditional beside its cases, one of them a chain with other brackets and another order. -/
theorem equivalent_sound_biconditional :
    equivalent (iff (literal "a") (and (literal "b") (literal "c")))
        (or (and (not (literal "a")) (not (and (literal "b") (literal "c"))))
          (and (and (literal "c") (literal "a")) (literal "b"))) = true ∧
      ∀ v : Valuation,
        (iff (literal "a") (and (literal "b") (literal "c"))).eval v =
          (or (and (not (literal "a")) (not (and (literal "b") (literal "c"))))
            (and (and (literal "c") (literal "a")) (literal "b"))).eval v :=
  ⟨by cbv, equivalent_sound _ _ (by cbv)⟩

end TruthTrees.Formula
