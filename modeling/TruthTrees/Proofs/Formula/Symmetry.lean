import Mathlib.Data.Nat.Init
import TruthTrees.Formula.Equivalence

/-! The two comparisons one step at a time, and what follows from a single step: every formula is
equivalent to itself, and equivalence does not depend on which of the two formulas comes first. A
biconditional beside another formula is read as its neighbour asks on either side, so laying two
formulas beside each other in the other order only exchanges the parts. -/
namespace TruthTrees

def Alignment.swap : Alignment → Alignment
  | single a b => single b a
  | pairs l₁ r₁ l₂ r₂ => pairs l₂ r₂ l₁ r₁
  | apart => apart

namespace Formula

variable {φ ψ χ l r : Formula} {j : Junction}

/-- Two parts match two others in one of the two orders. -/
def PairUp (l₁ r₁ l₂ r₂ : Formula) : Prop :=
  (l₁.equivalent l₂ = true ∧ r₁.equivalent r₂ = true) ∨
    (l₁.equivalent r₂ = true ∧ r₁.equivalent l₂ = true)

/-- How two formulas can say the same by their shape. -/
inductive SameShape (φ ψ : Formula) : Prop
  | equal (h : φ = ψ)
  | single {a : Formula} (h : align φ ψ = .single a a)
  | pairs {l₁ r₁ l₂ r₂ : Formula} (h : align φ ψ = .pairs l₁ r₁ l₂ r₂)
      (hparts : PairUp l₁ r₁ l₂ r₂)
  | chains {l₁ r₁ l₂ r₂ : Formula} (h : align φ ψ = .pairs l₁ r₁ l₂ r₂)
      (hsame : φ.sameChain ψ = true) (hleft : ψ.containsBelow φ = true)
      (hright : φ.containsBelow ψ = true)

/-- Two formulas are equivalent exactly when one of the rules of shape relates them. -/
theorem equivalent_iff_sameShape : φ.equivalent ψ = true ↔ SameShape φ ψ := by
  rw [equivalent]
  constructor
  · intro h
    split at h
    · rename_i heq
      exact .equal heq
    · split at h
      · rename_i a b halign
        obtain rfl := of_decide_eq_true h
        exact .single halign
      · rename_i halign
        simp only [Bool.or_eq_true, Bool.and_eq_true] at h
        rcases h with h | h
        · exact .pairs halign h
        · split at h
          · rename_i hsame
            rw [Bool.and_eq_true] at h
            exact .chains halign hsame h.1 h.2
          · simp at h
      · simp at h
  · intro h
    split
    · rfl
    · rename_i hne
      cases h with
      | equal heq => exact absurd heq hne
      | single halign => rw [halign]; simp
      | pairs halign hparts =>
        rw [halign]
        simp only [Bool.or_eq_true, Bool.and_eq_true]
        exact Or.inl hparts
      | chains halign hsame hleft hright =>
        rw [halign]
        simp [hsame, hleft, hright]

theorem contains_iff : φ.contains ψ = true ↔ ψ.equivalent φ = true ∨ φ.containsBelow ψ = true := by
  rw [contains, Bool.or_eq_true]

/-- How a formula can be found below another one that splits. -/
inductive FoundBelow (φ ψ : Formula) : Prop
  | left {j : Junction} {l r : Formula} (h : φ.decompose = .split j l r)
      (hl : ψ.equivalent l = true)
  | right {j : Junction} {l r : Formula} (h : φ.decompose = .split j l r)
      (hr : ψ.equivalent r = true)
  | inLeft {j : Junction} {l r : Formula} (h : φ.decompose = .split j l r)
      (hop : l.operator? = φ.operator?) (hl : l.contains ψ = true)
  | inRight {j : Junction} {l r : Formula} (h : φ.decompose = .split j l r)
      (hop : r.operator? = φ.operator?) (hr : r.contains ψ = true)
  | parts {k : Junction} {l r : Formula} (hop : ψ.operator? = φ.operator?)
      (h : ψ.decompose = .split k l r) (hl : φ.contains l = true) (hr : φ.contains r = true)
  | conditionals {a b : Formula} (hop : ψ.operator? ≠ φ.operator?)
      (hiff : φ.operator? = some .iff) (h : φ.conditionals? = some (a, b))
      (hab : a.contains ψ = true ∨ b.contains ψ = true)
  | cases {k : Junction} {l r : Formula} (hop : ψ.operator? ≠ φ.operator?)
      (hiff : ψ.operator? = some .iff) (hne : φ.operator? ≠ some .iff)
      (h : ψ.decompose = .split k l r) (hl : φ.contains l = true) (hr : φ.contains r = true)

/-- A formula that splits is searched through its parts. -/
theorem containsBelow_iff (h : φ.decompose = .split j l r) :
    φ.containsBelow ψ = true ↔ FoundBelow φ ψ := by
  rw [containsBelow, h]
  simp only [Bool.or_eq_true, Bool.and_eq_true, decide_eq_true_eq]
  constructor
  · rintro ((((hl | hr) | ⟨hop, hl⟩) | ⟨hop, hr⟩) | hrest)
    · exact .left h hl
    · exact .right h hr
    · exact .inLeft h hop hl
    · exact .inRight h hop hr
    · split at hrest
      · rename_i hop
        split at hrest
        · rename_i hψ
          rw [Bool.and_eq_true] at hrest
          exact .parts hop hψ hrest.1 hrest.2
        · simp at hrest
      · rename_i hop
        split at hrest
        · rename_i hiff
          split at hrest
          · rename_i hφ
            rw [Bool.or_eq_true] at hrest
            exact .conditionals hop hiff hφ hrest
          · simp at hrest
        · rename_i hne
          split at hrest
          · rename_i hiff
            split at hrest
            · rename_i hψ
              rw [Bool.and_eq_true] at hrest
              exact .cases hop hiff hne hψ hrest.1 hrest.2
            · simp at hrest
          · simp at hrest
  · intro hfound
    cases hfound with
    | left h' hl => cases h.symm.trans h'; simp [hl]
    | right h' hr => cases h.symm.trans h'; simp [hr]
    | inLeft h' hop hl => cases h.symm.trans h'; simp [hop, hl]
    | inRight h' hop hr => cases h.symm.trans h'; simp [hop, hr]
    | parts hop hψ hl hr => right; rw [if_pos hop, hψ]; simp [hl, hr]
    | conditionals hop hiff hφ hab =>
      right
      rw [if_neg hop, if_pos hiff, hφ]
      simpa using hab
    | cases hop hiff hne hψ hl hr =>
      right
      rw [if_neg hop, if_neg hne, if_pos hiff, hψ]
      simp [hl, hr]

theorem equivalent_refl (φ : Formula) : φ.equivalent φ = true :=
  equivalent_iff_sameShape.mpr (.equal rfl)

theorem contains_of_equivalent (h : ψ.equivalent φ = true) : φ.contains ψ = true :=
  contains_iff.mpr (Or.inl h)

theorem contains_of_below (h : φ.containsBelow ψ = true) : φ.contains ψ = true :=
  contains_iff.mpr (Or.inr h)

/-- Exchanging two formulas exchanges what they are aligned to. -/
theorem align_swap (φ ψ : Formula) : align ψ φ = (align φ ψ).swap := by
  unfold align
  rcases φ.decompose with a | ⟨j, l₁, r₁⟩ <;> rcases ψ.decompose with b | ⟨k, l₂, r₂⟩
  case alone.alone => rfl
  case alone.split => cases k <;> rfl
  case split.alone => cases j <;> rfl
  case split.split =>
    rcases φ.conditionals? with _ | ⟨c₁, d₁⟩ <;> rcases ψ.conditionals? with _ | ⟨c₂, d₂⟩ <;>
      cases j <;> cases k <;> rfl

theorem sameChain_comm (φ ψ : Formula) : φ.sameChain ψ = ψ.sameChain φ := by
  cases φ <;> cases ψ <;> rfl

/-- Only the parts of the two formulas have to be exchanged: chains are compared both ways. -/
theorem equivalent_symm (h : φ.equivalent ψ = true) : ψ.equivalent φ = true := by
  induction hn : φ.weight + ψ.weight using Nat.strong_induction_on generalizing φ ψ with
  | _ n ih =>
    have hswap := align_swap φ ψ
    rw [equivalent_iff_sameShape] at h ⊢
    cases h with
    | equal heq => exact .equal heq.symm
    | single halign =>
      rw [halign] at hswap
      exact .single hswap
    | pairs halign hparts =>
      rw [halign] at hswap
      have hw := weight_lt_of_align halign
      apply SameShape.pairs hswap
      rcases hparts with ⟨hl, hr⟩ | ⟨hl, hr⟩
      · exact Or.inl ⟨ih _ (by omega) hl rfl, ih _ (by omega) hr rfl⟩
      · exact Or.inr ⟨ih _ (by omega) hr rfl, ih _ (by omega) hl rfl⟩
    | chains halign hsame hleft hright =>
      rw [halign] at hswap
      exact .chains hswap ((sameChain_comm ψ φ).trans hsame) hright hleft

/-- Equivalence does not depend on the order of the two formulas. -/
theorem equivalent_comm (φ ψ : Formula) : φ.equivalent ψ = ψ.equivalent φ := by
  rw [Bool.eq_iff_iff]
  exact ⟨equivalent_symm, equivalent_symm⟩

end Formula

end TruthTrees
