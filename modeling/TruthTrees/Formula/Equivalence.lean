import TruthTrees.Formula.Decomposition

/-! When two formulas say the same by their shape, and when one is reached by taking another apart.
Both are decided on the decompositions, up to the order of the parts. A biconditional is read as a
disjunction of its cases beside a disjunction, and as a conjunction of conditionals beside a
conjunction. Chains of one operator are compared by containment both ways. -/
namespace TruthTrees

/-- How the decompositions of two formulas lie beside each other. -/
inductive Alignment where
  | single (left right : Formula)
  | pairs (l₁ r₁ l₂ r₂ : Formula)
  | apart
deriving DecidableEq, Repr

namespace Formula

/-- Lays the decompositions of two formulas beside each other: single part beside single part, or two
parts beside two parts of the same junction once biconditionals are read as their neighbour asks. -/
def align (φ ψ : Formula) : Alignment :=
  match φ.decompose, ψ.decompose with
  | .alone a, .alone b => .single a b
  | .split .iff l₁ r₁, .split .or l₂ r₂ => .pairs l₁ r₁ l₂ r₂
  | .split .or l₁ r₁, .split .iff l₂ r₂ => .pairs l₁ r₁ l₂ r₂
  | .split .iff _ _, .split .and l₂ r₂ =>
    match φ.conditionals? with
    | some (l₁, r₁) => .pairs l₁ r₁ l₂ r₂
    | none => .apart
  | .split .and l₁ r₁, .split .iff _ _ =>
    match ψ.conditionals? with
    | some (l₂, r₂) => .pairs l₁ r₁ l₂ r₂
    | none => .apart
  | .split j l₁ r₁, .split k l₂ r₂ => if j = k then .pairs l₁ r₁ l₂ r₂ else .apart
  | _, _ => .apart

/-- Aligned parts weigh less than the formulas they come from. -/
theorem weight_lt_of_align {φ ψ l₁ r₁ l₂ r₂ : Formula} (h : align φ ψ = .pairs l₁ r₁ l₂ r₂) :
    (l₁.weight < φ.weight ∧ r₁.weight < φ.weight) ∧
      (l₂.weight < ψ.weight ∧ r₂.weight < ψ.weight) := by
  unfold align at h
  split at h
  all_goals try split at h
  all_goals simp only [Alignment.pairs.injEq, reduceCtorEq] at h
  all_goals obtain ⟨rfl, rfl, rfl, rfl⟩ := h
  all_goals first
    | exact ⟨weight_lt_of_split ‹_›, weight_lt_of_split ‹_›⟩
    | exact ⟨weight_lt_of_conditionals ‹_›, weight_lt_of_split ‹_›⟩
    | exact ⟨weight_lt_of_split ‹_›, weight_lt_of_conditionals ‹_›⟩

def sameChain : Formula → Formula → Bool
  | and _ _, and _ _ => true
  | or _ _, or _ _ => true
  | _, _ => false

theorem splits_of_sameChain {φ ψ : Formula} (h : sameChain φ ψ = true) :
    φ.decompose.junction?.isSome ∧ ψ.decompose.junction?.isSome := by
  cases φ <;> cases ψ <;> simp_all [sameChain, decompose, Decomposition.junction?]

mutual

/-- Whether two formulas say the same by their shape. -/
def equivalent (φ ψ : Formula) : Bool :=
  if φ = ψ then true
  else match _h : align φ ψ with
    | .single a b => a = b
    | .pairs l₁ r₁ l₂ r₂ =>
      (equivalent l₁ l₂ && equivalent r₁ r₂) || (equivalent l₁ r₂ && equivalent r₁ l₂) ||
        if _hc : sameChain φ ψ = true then containsBelow ψ φ && containsBelow φ ψ else false
    | .apart => false
termination_by 4 * (φ.weight + ψ.weight) + 1
decreasing_by
  all_goals first
    | have hw := weight_lt_of_align _h
      omega
    | have hs := splits_of_sameChain _hc
      simp only [hs, if_true]
      omega

/-- Whether the second formula is the first, or is reached by taking the first apart through its own
operator. -/
def contains (φ ψ : Formula) : Bool :=
  equivalent ψ φ || containsBelow φ ψ
termination_by 4 * (φ.weight + ψ.weight) + 3
decreasing_by
  · omega
  · split <;> omega

def containsBelow (φ ψ : Formula) : Bool :=
  match _h : φ.decompose with
  | .alone a => equivalent ψ a
  | .split _ l r =>
    equivalent ψ l || equivalent ψ r ||
      (l.operator? = φ.operator? && contains l ψ) ||
      (r.operator? = φ.operator? && contains r ψ) ||
      if ψ.operator? = φ.operator? then
        match _hψ : ψ.decompose with
        | .split _ l' r' => contains φ l' && contains φ r'
        | .alone _ => false
      else if φ.operator? = some .iff then
        match _hφ : φ.conditionals? with
        | some (a, b) => contains a ψ || contains b ψ
        | none => false
      else if ψ.operator? = some .iff then
        match _hψ : ψ.decompose with
        | .split _ l' r' => contains φ l' && contains φ r'
        | .alone _ => false
      else false
termination_by 4 * (φ.weight + ψ.weight) + (if φ.decompose.junction?.isSome then 0 else 2)
decreasing_by
  · have hw : a.weight ≤ φ.weight := by
      rcases eq_or_weight_lt_of_alone _h with rfl | hlt
      · exact Nat.le_refl _
      · exact Nat.le_of_lt hlt
    simp only [_h, Decomposition.junction?, Option.isSome_none, Bool.false_eq_true, if_false]
    omega
  all_goals first
    | have hw := weight_lt_of_split _h
      omega
    | have hw := weight_lt_of_split _hψ
      omega
    | have hw := weight_lt_of_conditionals _hφ
      omega

end

end Formula

end TruthTrees
