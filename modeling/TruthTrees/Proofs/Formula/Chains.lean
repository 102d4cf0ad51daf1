import TruthTrees.Proofs.Formula.Symmetry

/-! Chains of conjunctions and chains of disjunctions. A chain contains whatever is equivalent to
one of its operands, however deep the brackets hide it, and it contains another chain as soon as it
contains all operands of that one. Two chains of one operator are equivalent exactly when each is
found below the other, so the comparison sees the operands as a set. -/
namespace TruthTrees.Formula

/-- The operands of a chain of one operator, from the left to the right. A formula that is built by
another operator is its own operand. -/
def chainOperands (op : Operator) : Formula → List Formula
  | and l r =>
    if op = .and then l.chainOperands op ++ r.chainOperands op else [and l r]
  | or l r =>
    if op = .or then l.chainOperands op ++ r.chainOperands op else [or l r]
  | φ => [φ]

variable {op : Operator} {φ ψ x l r l' r' : Formula} {j : Junction}

theorem chainOperands_of_ne (h : φ.operator? ≠ some op) : φ.chainOperands op = [φ] := by
  cases φ <;> simp_all [chainOperands, operator?, eq_comm]

/-- A link of a chain splits into two parts, and its operands are theirs. -/
theorem split_of_chain (hop : op = .and ∨ op = .or) (h : φ.operator? = some op) :
    ∃ j l r, φ.decompose = .split j l r ∧
      φ.chainOperands op = l.chainOperands op ++ r.chainOperands op := by
  rcases hop with rfl | rfl
  · cases φ <;> simp [operator?] at h
    case and l r => exact ⟨.and, l, r, rfl, by simp [chainOperands]⟩
  · cases φ <;> simp [operator?] at h
    case or l r => exact ⟨.or, l, r, rfl, by simp [chainOperands]⟩

/-- Induction along a chain, from the operands to the whole. -/
theorem chain_induction (hop : op = .and ∨ op = .or) {P : Formula → Prop}
    (operand : ∀ φ, φ.operator? ≠ some op → P φ)
    (link : ∀ φ j l r, φ.operator? = some op → φ.decompose = .split j l r →
      φ.chainOperands op = l.chainOperands op ++ r.chainOperands op → P l → P r → P φ)
    (φ : Formula) : P φ := by
  induction hn : φ.weight using Nat.strong_induction_on generalizing φ with
  | _ n ih =>
    by_cases h : φ.operator? = some op
    · obtain ⟨j, l, r, hsplit, hoperands⟩ := split_of_chain hop h
      have hw := weight_lt_of_split hsplit
      exact link φ j l r h hsplit hoperands (ih _ (by omega) l rfl) (ih _ (by omega) r rfl)
    · exact operand φ h

/-- A chain is taken apart completely: no operand of it is the chain's own operator again. -/
theorem operator?_of_mem_chainOperands (hop : op = .and ∨ op = .or)
    (hx : x ∈ φ.chainOperands op) : x.operator? ≠ some op := by
  induction φ using chain_induction hop with
  | operand φ h =>
    rw [chainOperands_of_ne h, List.mem_singleton] at hx
    exact hx ▸ h
  | link φ j l r h hsplit hoperands ihl ihr =>
    rw [hoperands, List.mem_append] at hx
    exact hx.elim ihl ihr

/-- Two conjunctions, or two disjunctions, are always compared as chains. -/
theorem sameChain_of_operator? (hop : op = .and ∨ op = .or) (hφ : φ.operator? = some op)
    (hψ : ψ.operator? = some op) : φ.sameChain ψ = true := by
  rcases hop with rfl | rfl <;> cases φ <;> simp [operator?] at hφ <;>
    cases ψ <;> simp [operator?] at hψ <;> rfl

/-- Formulas of one junction are laid beside each other part by part. -/
theorem align_of_split (h : φ.decompose = .split j l r) (h' : ψ.decompose = .split j l' r') :
    align φ ψ = .pairs l r l' r' := by
  unfold align
  rw [h, h']
  cases j <;> rfl

/-- Below a chain is found whatever is equivalent to one of its operands. -/
theorem containsBelow_of_operand (hop : op = .and ∨ op = .or) (hφ : φ.operator? = some op)
    (hx : x ∈ φ.chainOperands op) (he : ψ.equivalent x = true) : φ.containsBelow ψ = true := by
  induction φ using chain_induction hop with
  | operand φ h => exact absurd hφ h
  | link φ j l r _ hsplit hoperands ihl ihr =>
    rw [hoperands, List.mem_append] at hx
    rw [containsBelow_iff hsplit]
    rcases hx with hx | hx
    · by_cases hl : l.operator? = some op
      · exact .inLeft hsplit (hl.trans hφ.symm) (contains_of_below (ihl hl hx))
      · rw [chainOperands_of_ne hl, List.mem_singleton] at hx
        exact .left hsplit (hx ▸ he)
    · by_cases hr : r.operator? = some op
      · exact .inRight hsplit (hr.trans hφ.symm) (contains_of_below (ihr hr hx))
      · rw [chainOperands_of_ne hr, List.mem_singleton] at hx
        exact .right hsplit (hx ▸ he)

/-- A link contains all that it contains both parts of. -/
theorem containsBelow_of_parts (hop : op = .and ∨ op = .or) (hφ : φ.operator? = some op)
    (hψ : ψ.operator? = some op) (h : ψ.decompose = .split j l r) (hl : φ.contains l = true)
    (hr : φ.contains r = true) : φ.containsBelow ψ = true := by
  obtain ⟨k, a, b, hsplit, -⟩ := split_of_chain hop hφ
  rw [containsBelow_iff hsplit]
  exact .parts (hψ.trans hφ.symm) h hl hr

/-- A chain contains what it contains all operands of. -/
theorem contains_of_operands (hop : op = .and ∨ op = .or) (hφ : φ.operator? = some op)
    (h : ∀ x ∈ ψ.chainOperands op, φ.contains x = true) : φ.contains ψ = true := by
  induction ψ using chain_induction hop with
  | operand ψ hψ =>
    apply h
    rw [chainOperands_of_ne hψ]
    exact List.mem_singleton_self ψ
  | link ψ j l r hψ hsplit hoperands ihl ihr =>
    rw [hoperands] at h
    apply contains_of_below
    apply containsBelow_of_parts hop hφ hψ hsplit
    · exact ihl fun x hx => h x (List.mem_append_left _ hx)
    · exact ihr fun x hx => h x (List.mem_append_right _ hx)

/-- A chain that contains all operands of another one has that one below it. -/
theorem containsBelow_of_operands (hop : op = .and ∨ op = .or) (hφ : φ.operator? = some op)
    (hψ : ψ.operator? = some op) (h : ∀ x ∈ ψ.chainOperands op, φ.contains x = true) :
    φ.containsBelow ψ = true := by
  obtain ⟨j, l, r, hsplit, hoperands⟩ := split_of_chain hop hψ
  rw [hoperands] at h
  apply containsBelow_of_parts hop hφ hψ hsplit
  · exact contains_of_operands hop hφ fun x hx => h x (List.mem_append_left _ hx)
  · exact contains_of_operands hop hφ fun x hx => h x (List.mem_append_right _ hx)

/-- Chains whose parts match are found below each other. -/
theorem containsBelow_of_pairUp (hop : op = .and ∨ op = .or) (hφ : φ.operator? = some op)
    (hψ : ψ.operator? = some op) (h : φ.decompose = .split j l r)
    (h' : ψ.decompose = .split j l' r') (hparts : PairUp l r l' r') :
    φ.containsBelow ψ = true := by
  have hfound : ∀ χ, χ.equivalent l = true ∨ χ.equivalent r = true → φ.contains χ = true := by
    rintro χ (hχ | hχ)
    · exact contains_of_below ((containsBelow_iff h).mpr (.left h hχ))
    · exact contains_of_below ((containsBelow_iff h).mpr (.right h hχ))
  apply containsBelow_of_parts hop hφ hψ h'
  · rcases hparts with ⟨hl, -⟩ | ⟨-, hr⟩
    · exact hfound l' (Or.inl (equivalent_symm hl))
    · exact hfound l' (Or.inr (equivalent_symm hr))
  · rcases hparts with ⟨-, hr⟩ | ⟨hl, -⟩
    · exact hfound r' (Or.inr (equivalent_symm hr))
    · exact hfound r' (Or.inl (equivalent_symm hl))

theorem PairUp.symm (h : PairUp l r l' r') : PairUp l' r' l r := by
  rcases h with ⟨hl, hr⟩ | ⟨hl, hr⟩
  · exact Or.inl ⟨equivalent_symm hl, equivalent_symm hr⟩
  · exact Or.inr ⟨equivalent_symm hr, equivalent_symm hl⟩

theorem PairUp.refl (l r : Formula) : PairUp l r l r :=
  Or.inl ⟨equivalent_refl l, equivalent_refl r⟩

/-- Two chains of one operator are equivalent if and only if each is found below the other. -/
theorem equivalent_iff_containsBelow (hop : op = .and ∨ op = .or) (hφ : φ.operator? = some op)
    (hψ : ψ.operator? = some op) :
    φ.equivalent ψ = true ↔ φ.containsBelow ψ = true ∧ ψ.containsBelow φ = true := by
  obtain ⟨j, l, r, hsplit, l', r', hsplit'⟩ : ∃ j l r, φ.decompose = .split j l r ∧
      ∃ l' r', ψ.decompose = .split j l' r' := by
    rcases hop with rfl | rfl <;> cases φ <;> simp [operator?] at hφ <;>
      cases ψ <;> simp [operator?] at hψ <;> simp [decompose]
  have halign := align_of_split hsplit hsplit'
  rw [equivalent_iff_sameShape]
  constructor
  · intro h
    cases h with
    | equal heq =>
      subst heq
      have hbelow := containsBelow_of_pairUp hop hφ hφ hsplit hsplit (PairUp.refl l r)
      exact ⟨hbelow, hbelow⟩
    | single h' => simp [halign] at h'
    | pairs h' hparts =>
      cases halign.symm.trans h'
      exact ⟨containsBelow_of_pairUp hop hφ hψ hsplit hsplit' hparts,
        containsBelow_of_pairUp hop hψ hφ hsplit' hsplit hparts.symm⟩
    | chains _ _ hleft hright => exact ⟨hright, hleft⟩
  · rintro ⟨hright, hleft⟩
    exact .chains halign (sameChain_of_operator? hop hφ hψ) hleft hright

/-- Two conjunctions, or two disjunctions, are equivalent when each operand of one of them is
equivalent to an operand of the other, whatever their brackets, order and repetitions. In
particular they are if they have the same operands. -/
theorem equivalent_of_chainOperands (hop : op = .and ∨ op = .or) (hφ : φ.operator? = some op)
    (hψ : ψ.operator? = some op) :
    ((∀ x ∈ φ.chainOperands op, ∃ y ∈ ψ.chainOperands op, x.equivalent y = true) →
      (∀ y ∈ ψ.chainOperands op, ∃ x ∈ φ.chainOperands op, y.equivalent x = true) →
        φ.equivalent ψ = true) ∧
    ((∀ x, x ∈ φ.chainOperands op ↔ x ∈ ψ.chainOperands op) → φ.equivalent ψ = true) := by
  have hmatch : (∀ x ∈ φ.chainOperands op, ∃ y ∈ ψ.chainOperands op, x.equivalent y = true) →
      (∀ y ∈ ψ.chainOperands op, ∃ x ∈ φ.chainOperands op, y.equivalent x = true) →
        φ.equivalent ψ = true := by
    intro hφψ hψφ
    rw [equivalent_iff_containsBelow hop hφ hψ]
    constructor
    · apply containsBelow_of_operands hop hφ hψ
      intro y hy
      obtain ⟨x, hx, he⟩ := hψφ y hy
      exact contains_of_below (containsBelow_of_operand hop hφ hx he)
    · apply containsBelow_of_operands hop hψ hφ
      intro x hx
      obtain ⟨y, hy, he⟩ := hφψ x hx
      exact contains_of_below (containsBelow_of_operand hop hψ hy he)
  refine ⟨hmatch, fun hsame => hmatch ?_ ?_⟩
  · exact fun x hx => ⟨x, (hsame x).mp hx, equivalent_refl x⟩
  · exact fun y hy => ⟨y, (hsame y).mpr hy, equivalent_refl y⟩

/-- Two conjunctions with other brackets, another order and a repetition; of their operands a
disjunction is commuted and a negated conjunction stands beside the disjunction of the negations. -/
theorem equivalent_of_chainOperands_conjunctions :
    let a := literal "a"
    let b := literal "b"
    let c := literal "c"
    let φ := and (and (or a b) (not (and b c))) (and c (not (and b c)))
    let ψ := and (and c (and c (or (not c) (not b)))) (or b a)
    (∀ x ∈ φ.chainOperands .and, ∃ y ∈ ψ.chainOperands .and, x.equivalent y = true) ∧
      (∀ y ∈ ψ.chainOperands .and, ∃ x ∈ φ.chainOperands .and, y.equivalent x = true) ∧
      φ.equivalent ψ = true := by
  intro a b c φ ψ
  have hφψ : ∀ x ∈ φ.chainOperands .and, ∃ y ∈ ψ.chainOperands .and, x.equivalent y = true := by
    decide +kernel
  have hψφ : ∀ y ∈ ψ.chainOperands .and, ∃ x ∈ φ.chainOperands .and, y.equivalent x = true := by
    decide +kernel
  exact ⟨hφψ, hψφ, (equivalent_of_chainOperands (Or.inl rfl) rfl rfl).1 hφψ hψφ⟩

end TruthTrees.Formula
