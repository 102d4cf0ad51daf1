import TruthTrees.Proofs.Formula.Chains

/-! Conjunctions in other words, and formulas whose conjuncts are none. A negated disjunction, a
negated conditional or a biconditional can say the same as a conjunction, but only as a whole. Where
none of the conjuncts of a conjunction is of that kind, all that counts for another conjunction
beside it are the operands of that one, and not how they are bracketed. -/
namespace TruthTrees.Formula

variable {op : Operator} {φ ψ χ S S' f x y l r : Formula} {xs ys : List Formula} {j : Junction}

/-- The two parts of a formula as they are laid beside a chain: beside a conjunction a biconditional
shows its conditionals, and beside a disjunction its cases. -/
def beside? (op : Operator) (φ : Formula) : Option (Formula × Formula) :=
  match op, φ.decompose with
  | .and, .split .and l r => some (l, r)
  | .and, .split .iff _ _ => φ.conditionals?
  | .or, .split .or l r => some (l, r)
  | .or, .split .iff l r => some (l, r)
  | _, _ => none

/-- A chain is aligned with what stands beside its operator in the other formula. -/
theorem align_chain (hop : op = .and ∨ op = .or) (hψ : ψ.operator? = some op)
    (h : ψ.decompose = .split j x y) (φ : Formula) : align ψ φ =
      match φ.beside? op with
      | some (l, r) => .pairs x y l r
      | none => .apart := by
  unfold align beside?
  rcases hop with rfl | rfl <;> cases ψ <;>
    simp only [operator?, Option.some.injEq, reduceCtorEq] at hψ
  all_goals
    cases h
    rcases φ.decompose with a | ⟨k, l, r⟩
    · rfl
    · cases k <;> rfl

/-- A formula that is equivalent to a chain shows two parts beside it. They match the parts of the
chain, or the formula is a chain of the same operator. -/
theorem beside_of_equivalent (hop : op = .and ∨ op = .or) (hψ : ψ.operator? = some op)
    (h : ψ.decompose = .split j x y) (he : ψ.equivalent φ = true) :
    ∃ l r, φ.beside? op = some (l, r) ∧ (PairUp x y l r ∨ φ.operator? = some op) := by
  have halign := align_chain hop hψ h
  cases equivalent_iff_sameShape.mp he with
  | equal heq =>
    have hself := (align_of_split h h).symm.trans (halign ψ)
    subst heq
    split at hself
    · rename_i hbeside
      exact ⟨_, _, hbeside, Or.inr hψ⟩
    · simp at hself
  | single h' =>
    have hpairs := h'.symm.trans (halign φ)
    split at hpairs <;> simp at hpairs
  | pairs h' hparts =>
    have hpairs := h'.symm.trans (halign φ)
    split at hpairs
    · rename_i hbeside
      cases hpairs
      exact ⟨_, _, hbeside, Or.inl hparts⟩
    · simp at hpairs
  | chains h' hsame _ _ =>
    have hpairs := h'.symm.trans (halign φ)
    split at hpairs
    · rename_i hbeside
      refine ⟨_, _, hbeside, Or.inr ?_⟩
      rw [← hψ]
      cases ψ <;> cases φ <;> simp_all [sameChain, operator?]
    · simp at hpairs

theorem PairUp.exchange {a b : Formula} (h : PairUp x y a b) : PairUp y x a b := by
  rcases h with ⟨hx, hy⟩ | ⟨hx, hy⟩
  · exact Or.inr ⟨hy, hx⟩
  · exact Or.inl ⟨hy, hx⟩

/-- A chain is equivalent to a formula whose parts pair up with its own, straight or crossed. -/
theorem equivalent_of_beside (hop : op = .and ∨ op = .or) (hψ : ψ.operator? = some op)
    (h : ψ.decompose = .split j x y) (hbeside : φ.beside? op = some (l, r))
    (hparts : PairUp x y l r) : ψ.equivalent φ = true := by
  have halign := align_chain hop hψ h φ
  rw [hbeside] at halign
  exact equivalent_iff_sameShape.mpr (.pairs halign hparts)

def Conjunctive (φ : Formula) : Prop := (φ.beside? .and).isSome = true

instance (φ : Formula) : Decidable φ.Conjunctive :=
  inferInstanceAs (Decidable (_ = true))

theorem eq_and_of_operator? (h : φ.operator? = some .and) : ∃ l r, φ = and l r := by
  cases φ <;> simp [operator?] at h
  exact ⟨_, _, rfl⟩

/-- Only conjunctive formulas are equivalent to a conjunction. -/
theorem conjunctive_of_equivalent (hS : S.operator? = some .and) (h : S.equivalent φ = true) :
    φ.Conjunctive := by
  obtain ⟨x, y, rfl⟩ := eq_and_of_operator? hS
  obtain ⟨l, r, hbeside, -⟩ := beside_of_equivalent (Or.inl rfl) rfl rfl h
  rw [Conjunctive, hbeside]
  rfl

theorem not_conjunctive_or (a b : Formula) : ¬ (or a b).Conjunctive := by
  simp [Conjunctive, beside?, decompose]

theorem conjunctive_of_iff (h : φ.operator? = some .iff) : φ.Conjunctive := by
  cases φ <;> simp [operator?] at h
  rfl

/-- The formulas that hold together in a formula. For a conjunction they are the operands of the
chain. -/
def conjuncts (φ : Formula) : List Formula :=
  match φ.decompose with
  | .split .and l r => if φ.operator? = some .and then φ.chainOperands .and else [l, r]
  | _ => []

/-- None of the formulas that hold together in a formula can say the same as a conjunction. -/
def Plain (φ : Formula) : Prop := ∀ c ∈ φ.conjuncts, ¬ c.Conjunctive

instance (φ : Formula) : Decidable φ.Plain := inferInstanceAs (Decidable (∀ _ ∈ _, _))

theorem conjuncts_of_and (h : φ.operator? = some .and) : φ.conjuncts = φ.chainOperands .and := by
  obtain ⟨l, r, rfl⟩ := eq_and_of_operator? h
  rfl

/-- Beside a plain formula that is no conjunction itself, the parts of a conjunction are matched by
formulas that are no conjunctions in any words. -/
theorem Plain.beside (hf : f.Plain) (hne : f.operator? ≠ some .and)
    (h : f.beside? .and = some (l, r)) : ¬ l.Conjunctive ∧ ¬ r.Conjunctive := by
  unfold beside? at h
  cases hd : f.decompose with
  | alone a => simp [hd] at h
  | split j a b =>
    cases j with
    | and =>
      obtain ⟨rfl, rfl⟩ : a = l ∧ b = r := by simpa [hd] using h
      have hconjuncts : f.conjuncts = [a, b] := by simp [conjuncts, hd, hne]
      exact ⟨hf a (by simp [hconjuncts]), hf b (by simp [hconjuncts])⟩
    | or => simp [hd] at h
    | iff =>
      simp only [hd] at h
      fun_cases conditionals? f <;>
        simp only [conditionals?, Option.some.injEq, Prod.mk.injEq, reduceCtorEq] at h
      all_goals
        obtain ⟨rfl, rfl⟩ := h
        exact ⟨not_conjunctive_or _ _, not_conjunctive_or _ _⟩

/-- Where no operand is a conjunction in other words, only links are conjunctions in any words. -/
theorem operator?_of_conjunctive (hplain : ∀ c ∈ φ.chainOperands .and, ¬ c.Conjunctive)
    (h : φ.Conjunctive) : φ.operator? = some .and := by
  by_cases hop : φ.operator? = some .and
  · exact hop
  · rw [chainOperands_of_ne hop] at hplain
    exact absurd h (hplain φ (List.mem_singleton_self φ))

/-- The formulas of a list add up to a conjunction: each operand, or a group of them that stands in
brackets, is equivalent to a formula of the list. -/
inductive CoveredBy (xs : List Formula) : Formula → Prop
  | whole {φ x : Formula} (hx : x ∈ xs) (he : φ.equivalent x = true) : CoveredBy xs φ
  | parts {l r : Formula} (hl : CoveredBy xs l) (hr : CoveredBy xs r) : CoveredBy xs (and l r)

theorem CoveredBy.mono (h : CoveredBy xs φ) (hsub : ∀ x ∈ xs, x ∈ ys) : CoveredBy ys φ := by
  induction h with
  | whole hx he => exact .whole (hsub _ hx) he
  | parts _ _ ihl ihr => exact .parts ihl ihr

/-- How a conjunction is found below a conjunction with plain operands: in one of its links, or part
by part. -/
theorem found_and_of_plain (hf : f.operator? = some .and) (hS : S.operator? = some .and)
    (hplain : ∀ c ∈ f.chainOperands .and, ¬ c.Conjunctive) (hsplit : f.decompose = .split j l r)
    (hoperands : f.chainOperands .and = l.chainOperands .and ++ r.chainOperands .and)
    (h : f.containsBelow S = true) :
    (l.operator? = some .and ∧ l.contains S = true) ∨
      (r.operator? = some .and ∧ r.contains S = true) ∨
      ∃ k a b, S.decompose = .split k a b ∧ f.contains a = true ∧ f.contains b = true := by
  rw [hoperands] at hplain
  cases (containsBelow_iff hsplit).mp h with
  | left h' he =>
    cases hsplit.symm.trans h'
    have hop := operator?_of_conjunctive (fun c hc => hplain c (List.mem_append_left _ hc))
      (conjunctive_of_equivalent hS he)
    exact Or.inl ⟨hop, contains_of_equivalent he⟩
  | right h' he =>
    cases hsplit.symm.trans h'
    have hop := operator?_of_conjunctive (fun c hc => hplain c (List.mem_append_right _ hc))
      (conjunctive_of_equivalent hS he)
    exact Or.inr (Or.inl ⟨hop, contains_of_equivalent he⟩)
  | inLeft h' hop hc =>
    cases hsplit.symm.trans h'
    exact Or.inl ⟨hop.trans hf, hc⟩
  | inRight h' hop hc =>
    cases hsplit.symm.trans h'
    exact Or.inr (Or.inl ⟨hop.trans hf, hc⟩)
  | parts _ hψ ha hb => exact Or.inr (Or.inr ⟨_, _, _, hψ, ha, hb⟩)
  | conditionals hop _ _ _ => exact absurd (hS.trans hf.symm) hop
  | cases hop _ _ _ _ _ => exact absurd (hS.trans hf.symm) hop

/-- What is contained in a link of a conjunction is contained in the conjunction. -/
theorem contains_of_link (hf : f.operator? = some .and) (hsplit : f.decompose = .split j l r)
    (h : (l.operator? = some .and ∧ l.contains ψ = true) ∨
      (r.operator? = some .and ∧ r.contains ψ = true)) : f.contains ψ = true := by
  apply contains_of_below
  rw [containsBelow_iff hsplit]
  rcases h with ⟨hop, hc⟩ | ⟨hop, hc⟩
  · exact .inLeft hsplit (hop.trans hf.symm) hc
  · exact .inRight hsplit (hop.trans hf.symm) hc

/-- A conjunction with plain operands that contains another conjunction contains its operands. -/
theorem contains_operand (hf : f.operator? = some .and)
    (hplain : ∀ c ∈ f.chainOperands .and, ¬ c.Conjunctive) (h : f.contains S = true) :
    ∀ s ∈ S.chainOperands .and, f.contains s = true := by
  induction hn : f.weight + S.weight using Nat.strong_induction_on generalizing f S with
  | _ n ih =>
    intro s hs
    by_cases hS : S.operator? = some .and
    · obtain ⟨j, l, r, hsplit, hoperands⟩ := split_of_chain (Or.inl rfl) hf
      have hw := weight_lt_of_split hsplit
      have hbelow : f.containsBelow S = true := by
        rcases contains_iff.mp h with he | hbelow
        · exact ((equivalent_iff_containsBelow (Or.inl rfl) hS hf).mp he).2
        · exact hbelow
      have hplain' := hplain
      rw [hoperands] at hplain'
      rcases found_and_of_plain hf hS hplain hsplit hoperands hbelow with
        ⟨hop, hc⟩ | ⟨hop, hc⟩ | ⟨k, a, b, hab, ha, hb⟩
      · apply contains_of_link hf hsplit
        exact Or.inl ⟨hop, ih _ (by omega) hop
          (fun c hc => hplain' c (List.mem_append_left _ hc)) hc rfl s hs⟩
      · apply contains_of_link hf hsplit
        exact Or.inr ⟨hop, ih _ (by omega) hop
          (fun c hc => hplain' c (List.mem_append_right _ hc)) hc rfl s hs⟩
      · have hw' := weight_lt_of_split hab
        obtain ⟨k', a', b', hab', hs'⟩ := split_of_chain (Or.inl rfl) hS
        cases hab.symm.trans hab'
        rw [hs', List.mem_append] at hs
        rcases hs with hs | hs
        · exact ih _ (by omega) hf hplain ha rfl s hs
        · exact ih _ (by omega) hf hplain hb rfl s hs
    · rw [chainOperands_of_ne hS, List.mem_singleton] at hs
      exact hs ▸ h

/-- The operands of a conjunction add up to every formula with plain operands that it contains. -/
theorem coveredBy_of_contains (hS : S.operator? = some .and)
    (hplain : ∀ c ∈ χ.chainOperands .and, ¬ c.Conjunctive) (h : S.contains χ = true) :
    CoveredBy (S.chainOperands .and) χ := by
  induction hn : S.weight + χ.weight using Nat.strong_induction_on generalizing S χ with
  | _ n ih =>
    obtain ⟨j, l, r, hsplit, hoperands⟩ := split_of_chain (Or.inl rfl) hS
    have hw := weight_lt_of_split hsplit
    have hbelow : S.containsBelow χ = true := by
      rcases contains_iff.mp h with he | hbelow
      · have hχ := operator?_of_conjunctive hplain
          (conjunctive_of_equivalent hS (equivalent_symm he))
        exact ((equivalent_iff_containsBelow (Or.inl rfl) hχ hS).mp he).2
      · exact hbelow
    rw [hoperands]
    have hleft : CoveredBy (l.chainOperands .and) χ →
        CoveredBy (l.chainOperands .and ++ r.chainOperands .and) χ :=
      fun hcov => hcov.mono fun x hx => List.mem_append_left _ hx
    have hright : CoveredBy (r.chainOperands .and) χ →
        CoveredBy (l.chainOperands .and ++ r.chainOperands .and) χ :=
      fun hcov => hcov.mono fun x hx => List.mem_append_right _ hx
    have hpart : ∀ part, part.weight < S.weight → χ.equivalent part = true →
        CoveredBy (part.chainOperands .and) χ := by
      intro part hlt he
      by_cases hop : part.operator? = some .and
      · exact ih _ (by omega) hop hplain (contains_of_equivalent he) rfl
      · rw [chainOperands_of_ne hop]
        exact .whole (List.mem_singleton_self part) he
    cases (containsBelow_iff hsplit).mp hbelow with
    | left h' he =>
      cases hsplit.symm.trans h'
      exact hleft (hpart l hw.1 he)
    | right h' he =>
      cases hsplit.symm.trans h'
      exact hright (hpart r hw.2 he)
    | inLeft h' hop hc =>
      cases hsplit.symm.trans h'
      exact hleft (ih _ (by omega) (hop.trans hS) hplain hc rfl)
    | inRight h' hop hc =>
      cases hsplit.symm.trans h'
      exact hright (ih _ (by omega) (hop.trans hS) hplain hc rfl)
    | parts hop hab ha hb =>
      have hw' := weight_lt_of_split hab
      obtain ⟨a, b, rfl⟩ := eq_and_of_operator? (hop.trans hS)
      obtain ⟨-, rfl, rfl⟩ := Decomposition.split.inj hab
      rw [← hoperands]
      have hplain' : ∀ c ∈ a.chainOperands .and ++ b.chainOperands .and, ¬ c.Conjunctive := hplain
      exact .parts (ih _ (by omega) hS (fun c hc => hplain' c (List.mem_append_left _ hc)) ha rfl)
        (ih _ (by omega) hS (fun c hc => hplain' c (List.mem_append_right _ hc)) hb rfl)
    | conditionals _ hiff _ _ => simp [hS] at hiff
    | cases _ hiff _ _ _ _ =>
      have hop := operator?_of_conjunctive hplain (conjunctive_of_iff hiff)
      simp [hop] at hiff

/-- What the operands of a conjunction add up to is found below it. -/
theorem containsBelow_of_coveredBy (hS : S.operator? = some .and)
    (h : CoveredBy (S.chainOperands .and) χ) : S.containsBelow χ = true := by
  induction h with
  | whole hx he => exact containsBelow_of_operand (Or.inl rfl) hS hx he
  | parts _ _ ihl ihr =>
    exact containsBelow_of_parts (Or.inl rfl) hS rfl rfl (contains_of_below ihl)
      (contains_of_below ihr)

/-- Whether a conjunction is equivalent to a plain conjunction can be read off its operands. -/
theorem equivalent_iff_coveredBy (hS : S.operator? = some .and) (hf : f.operator? = some .and)
    (hplain : f.Plain) : S.equivalent f = true ↔
      (∀ s ∈ S.chainOperands .and, f.contains s = true) ∧ CoveredBy (S.chainOperands .and) f := by
  rw [Plain, conjuncts_of_and hf] at hplain
  rw [equivalent_iff_containsBelow (Or.inl rfl) hS hf]
  constructor
  · rintro ⟨hSf, hfS⟩
    exact ⟨contains_operand hf hplain (contains_of_below hfS),
      coveredBy_of_contains hS hplain (contains_of_below hSf)⟩
  · rintro ⟨hall, hcovered⟩
    exact ⟨containsBelow_of_coveredBy hS hcovered,
      containsBelow_of_operands (Or.inl rfl) hf hS hall⟩

/-- Conjunctions with the same operands say the same beside a plain conjunction. -/
theorem equivalent_congr_operands (hS : S.operator? = some .and) (hS' : S'.operator? = some .and)
    (hsame : ∀ x, x ∈ S.chainOperands .and ↔ x ∈ S'.chainOperands .and)
    (hf : f.operator? = some .and) (hplain : f.Plain) (h : S.equivalent f = true) :
    S'.equivalent f = true := by
  rw [equivalent_iff_coveredBy hS hf hplain] at h
  rw [equivalent_iff_coveredBy hS' hf hplain]
  exact ⟨fun s hs => h.1 s ((hsame s).mpr hs), h.2.mono fun x hx => (hsame x).mp hx⟩

end TruthTrees.Formula
