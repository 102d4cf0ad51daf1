import Mathlib.Data.List.Permutation
import TruthTrees.Formula.Conjunction
import TruthTrees.Proofs.Formula.Containment
import TruthTrees.Proofs.Formula.Plain

/-! The order in which a list of formulas is folded into one conjunction. Before a plain formula the
conjunction of a list says the same in any order: beside a conjunction only the set of operands
counts, and beside any other formula only conjunctions of two formulas count, which may always be
exchanged. A formula all of whose pieces are plain does not tell the orders apart either when it is
searched for such a conjunction, or compared with a disjunction of two of them. -/
namespace TruthTrees.Formula

variable {op : Operator} {φ ψ S S' R R' T T' f g a b x y x' y' l r : Formula}
  {xs ys : List Formula} {j j' : Junction} {Q : Formula → Prop}

/-- One formula takes the place of another one in the search below a formula, if it does so in all
comparisons that the search is made of. -/
theorem foundBelow_congr (hop : T'.operator? = T.operator?) (hiff : T.operator? ≠ some .iff)
    (hd : f.decompose = .split j l r)
    (hequiv : ∀ g, g = l ∨ g = r → T.equivalent g = true → T'.equivalent g = true)
    (hcontains : ∀ g, g.weight < f.weight → (g = l ∨ g = r ∨ ∃ a b, f.conditionals? = some (a, b) ∧
      (g = a ∨ g = b)) → g.contains T = true → g.contains T' = true)
    (hparts : ∀ k x y, T.operator? = f.operator? → T.decompose = .split k x y →
      f.contains x = true → f.contains y = true → FoundBelow f T')
    (h : FoundBelow f T) : FoundBelow f T' := by
  have hw := weight_lt_of_split hd
  cases h with
  | left h' he =>
    cases hd.symm.trans h'
    exact .left hd (hequiv l (Or.inl rfl) he)
  | right h' he =>
    cases hd.symm.trans h'
    exact .right hd (hequiv r (Or.inr rfl) he)
  | inLeft h' hsame hc =>
    cases hd.symm.trans h'
    exact .inLeft hd hsame (hcontains l hw.1 (Or.inl rfl) hc)
  | inRight h' hsame hc =>
    cases hd.symm.trans h'
    exact .inRight hd hsame (hcontains r hw.2 (Or.inr (Or.inl rfl)) hc)
  | parts hsame h' hx hy => exact hparts _ _ _ hsame h' hx hy
  | conditionals hne hf h' hab =>
    have hw' := weight_lt_of_conditionals h'
    refine .conditionals (hop ▸ hne) hf h' (hab.imp ?_ ?_)
    · exact hcontains _ hw'.1 (Or.inr (Or.inr ⟨_, _, h', Or.inl rfl⟩))
    · exact hcontains _ hw'.2 (Or.inr (Or.inr ⟨_, _, h', Or.inr rfl⟩))
  | cases _ hT _ _ _ _ => exact absurd hT hiff

/-- A property that passes from a formula to all formulas that it is compared through. -/
structure Hereditary (Q : Formula → Prop) : Prop where
  alone : ∀ φ a, Q φ → φ.decompose = .alone a → Q a
  parts : ∀ φ j l r, Q φ → φ.decompose = .split j l r → Q l ∧ Q r
  conditionals : ∀ φ a b, Q φ → φ.conditionals? = some (a, b) → Q a ∧ Q b

/-- Two formulas can be replaced by two others as the parts of a chain, as far as formulas with a
property can see. -/
structure Interchange (Q : Formula → Prop) (op : Operator) (x y x' y' : Formula) : Prop where
  beside : ∀ g l r, Q g → g.beside? op = some (l, r) → PairUp x y l r → PairUp x' y' l r
  single : ∀ g, Q g → g.equivalent x = true ∨ g.equivalent y = true →
    g.equivalent x' = true ∨ g.equivalent y' = true
  inside : ∀ g, (x.operator? = some op ∧ x.contains g = true) ∨
      (y.operator? = some op ∧ y.contains g = true) →
    (x'.operator? = some op ∧ x'.contains g = true) ∨
      (y'.operator? = some op ∧ y'.contains g = true)
  found : ∀ g, Q g → g.operator? = some op → g.contains x = true → g.contains y = true →
    g.contains x' = true ∧ g.contains y' = true

section Replacing

variable (h : Interchange Q op x y x' y') (hop : op = .and ∨ op = .or)
  (hT : T.operator? = some op) (hTd : T.decompose = .split j x y)
  (hT' : T'.operator? = some op) (hTd' : T'.decompose = .split j' x' y')
include h hop hT hTd hT' hTd'

/-- Beside a formula that is no chain of the operator only the two parts are compared. -/
theorem Interchange.outside (hf : Q f) (hfop : f.operator? ≠ some op)
    (he : T.equivalent f = true) : T'.equivalent f = true := by
  obtain ⟨l, r, hbeside, hparts | hfop'⟩ := beside_of_equivalent hop hT hTd he
  · exact equivalent_of_beside hop hT' hTd' hbeside (h.beside f l r hf hbeside hparts)
  · exact absurd hfop' hfop

/-- A chain that is found below a formula is found there when its parts are replaced, if this holds
of all formulas of less weight. -/
theorem Interchange.below (hQ : Hereditary Q) (hf : Q f)
    (hequiv : ∀ g, g.weight < f.weight → Q g → T.equivalent g = true → T'.equivalent g = true)
    (hcontains : ∀ g, g.weight < f.weight → Q g → g.contains T = true → g.contains T' = true)
    (hb : f.containsBelow T = true) : f.containsBelow T' = true := by
  cases hd : f.decompose with
  | alone a =>
    have hfop : f.operator? ≠ some op := by
      intro hfop
      obtain ⟨k, l, r, hsplit, -⟩ := split_of_chain hop hfop
      simp [hd] at hsplit
    rw [containsBelow, hd] at hb ⊢
    rcases eq_or_weight_lt_of_alone hd with rfl | hlt
    · exact h.outside hop hT hTd hT' hTd' hf hfop hb
    · exact hequiv a hlt (hQ.alone f a hf hd) hb
  | split k l r =>
    have hw := weight_lt_of_split hd
    have hparts := hQ.parts f k l r hf hd
    have hne : T.operator? ≠ some .iff := by
      rw [hT]
      rcases hop with rfl | rfl <;> simp
    rw [containsBelow_iff hd] at hb ⊢
    apply foundBelow_congr (hT'.trans hT.symm) hne hd _ _ _ hb
    · rintro g (rfl | rfl)
      · exact hequiv g hw.1 hparts.1
      · exact hequiv g hw.2 hparts.2
    · rintro g hg (rfl | rfl | ⟨a, b, hab, rfl | rfl⟩)
      · exact hcontains g hg hparts.1
      · exact hcontains g hg hparts.2
      · exact hcontains g hg (hQ.conditionals f _ _ hf hab).1
      · exact hcontains g hg (hQ.conditionals f _ _ hf hab).2
    · intro k' u v hsame hTuv hu hv
      cases hTd.symm.trans hTuv
      obtain ⟨hx', hy'⟩ := h.found f hf (hsame.symm.trans hT) hu hv
      exact .parts (hT'.trans (hT.symm.trans hsame)) hTd' hx' hy'

/-- What is found below a chain is found there when its parts are replaced, if this holds of all
formulas of less weight. -/
theorem Interchange.above (hQ : Hereditary Q) (hf : Q f)
    (hcontained : ∀ g, g.weight < f.weight → Q g → T.contains g = true → T'.contains g = true)
    (ha : T.containsBelow f = true) : T'.containsBelow f = true := by
  have hne : T.operator? ≠ some .iff := by
    rw [hT]
    rcases hop with rfl | rfl <;> simp
  have hsame := hT'.trans hT.symm
  have hsingle : f.equivalent x = true ∨ f.equivalent y = true → FoundBelow T' f :=
    fun he => (h.single f hf he).elim (.left hTd') (.right hTd')
  have hinside : (x.operator? = some op ∧ x.contains f = true) ∨
      (y.operator? = some op ∧ y.contains f = true) → FoundBelow T' f := by
    intro hc
    rcases h.inside f hc with ⟨hx', hc'⟩ | ⟨hy', hc'⟩
    · exact .inLeft hTd' (hx'.trans hT'.symm) hc'
    · exact .inRight hTd' (hy'.trans hT'.symm) hc'
  rw [containsBelow_iff hTd']
  cases (containsBelow_iff hTd).mp ha with
  | left h' he =>
    cases hTd.symm.trans h'
    exact hsingle (Or.inl he)
  | right h' he =>
    cases hTd.symm.trans h'
    exact hsingle (Or.inr he)
  | inLeft h' hxop hc =>
    cases hTd.symm.trans h'
    exact hinside (Or.inl ⟨hxop.trans hT, hc⟩)
  | inRight h' hyop hc =>
    cases hTd.symm.trans h'
    exact hinside (Or.inr ⟨hyop.trans hT, hc⟩)
  | parts hfop hd hl hr =>
    have hw := weight_lt_of_split hd
    have hparts := hQ.parts f _ _ _ hf hd
    exact .parts (hfop.trans hsame.symm) hd (hcontained _ hw.1 hparts.1 hl)
      (hcontained _ hw.2 hparts.2 hr)
  | conditionals _ hiff _ _ => exact absurd hiff hne
  | cases hfop hiff _ hd hl hr =>
    have hw := weight_lt_of_split hd
    have hparts := hQ.parts f _ _ _ hf hd
    exact .cases (hsame ▸ hfop) hiff (hsame ▸ hne) hd (hcontained _ hw.1 hparts.1 hl)
      (hcontained _ hw.2 hparts.2 hr)

/-- Replacing the parts of a chain changes nothing: neither what it is equivalent to, nor what it is
found below, nor what is found below it. -/
theorem Interchange.congr (hQ : Hereditary Q) (hf : Q f) :
    (T.equivalent f = true → T'.equivalent f = true) ∧
      (f.containsBelow T = true → f.containsBelow T' = true) ∧
      (T.containsBelow f = true → T'.containsBelow f = true) := by
  induction hn : f.weight using Nat.strong_induction_on generalizing f with
  | _ n ih =>
    have hequiv : ∀ g : Formula, g.weight < f.weight → Q g →
        T.equivalent g = true → T'.equivalent g = true :=
      fun g hg hQg => (ih _ (hn ▸ hg) hQg rfl).1
    have hbelow : f.containsBelow T = true → f.containsBelow T' = true := by
      apply h.below hop hT hTd hT' hTd' hQ hf hequiv
      intro g hg hQg hc
      exact contains_iff.mpr ((contains_iff.mp hc).imp (hequiv g hg hQg)
        (ih _ (hn ▸ hg) hQg rfl).2.1)
    have habove : T.containsBelow f = true → T'.containsBelow f = true := by
      apply h.above hop hT hTd hT' hTd' hQ hf
      intro g hg hQg hc
      refine contains_iff.mpr ((contains_iff.mp hc).imp ?_ (ih _ (hn ▸ hg) hQg rfl).2.2)
      exact fun he => equivalent_symm (hequiv g hg hQg (equivalent_symm he))
    refine ⟨fun he => ?_, hbelow, habove⟩
    by_cases hfop : f.operator? = some op
    · rw [equivalent_iff_containsBelow hop hT hfop] at he
      rw [equivalent_iff_containsBelow hop hT' hfop]
      exact ⟨habove he.1, hbelow he.2⟩
    · exact h.outside hop hT hTd hT' hTd' hf hfop he

end Replacing

/-- The two formulas of a conjunction can be exchanged before every formula. -/
theorem interchange_exchange (x y : Formula) : Interchange (fun _ => True) .and x y y x := by
  constructor
  case beside => exact fun _ _ _ _ _ h => h.exchange
  case single => exact fun _ _ h => h.symm
  case inside => exact fun _ h => h.symm
  case found => exact fun _ _ _ hx hy => ⟨hy, hx⟩

theorem hereditary_true : Hereditary (fun _ => True) := ⟨by simp, by simp, by simp⟩

/-- The two sides of a conjunction may be exchanged, whatever it is compared with. -/
theorem exchange (x y f : Formula) :
    ((and x y).equivalent f = true → (and y x).equivalent f = true) ∧
      (f.contains (and x y) = true → f.contains (and y x) = true) := by
  obtain ⟨hequiv, hbelow, -⟩ := (interchange_exchange x y).congr (Or.inl rfl)
    (rfl : (and x y).operator? = _) rfl (rfl : (and y x).operator? = _) rfl hereditary_true
    (f := f) trivial
  exact ⟨hequiv, fun h => contains_iff.mpr ((contains_iff.mp h).imp hequiv hbelow)⟩

theorem conjunction?_concat (h : conjunction? xs = some S) (x : Formula) :
    conjunction? (xs ++ [x]) = some (and S x) := by
  cases xs with
  | nil => simp [conjunction?] at h
  | cons y rest =>
    obtain rfl := Option.some.inj h
    simp [conjunction?]

/-- A conjunction of at least two formulas ends with the last one of them. -/
theorem conjunction?_eq_and (h : conjunction? xs = some S) (hlen : 2 ≤ xs.length) :
    ∃ init S₀ x, xs = init ++ [x] ∧ conjunction? init = some S₀ ∧ S = and S₀ x := by
  obtain ⟨init, x, rfl⟩ : ∃ init x, xs = init ++ [x] :=
    ⟨xs.dropLast, xs.getLast (by rintro rfl; simp at hlen), (List.dropLast_append_getLast _).symm⟩
  cases hinit : conjunction? init with
  | none =>
    cases init with
    | nil => simp at hlen
    | cons y rest => simp [conjunction?] at hinit
  | some S₀ =>
    rw [conjunction?_concat hinit] at h
    exact ⟨init, S₀, x, rfl, hinit, (Option.some.inj h).symm⟩

theorem operator?_conjunction? (h : conjunction? xs = some S) (hlen : 2 ≤ xs.length) :
    S.operator? = some .and := by
  obtain ⟨init, S₀, x, -, -, rfl⟩ := conjunction?_eq_and h hlen
  rfl

/-- A conjunction folded from the left has the operands of its members, in their order. -/
theorem chainOperands_foldl (φ : Formula) (rest : List Formula) :
    (rest.foldl and φ).chainOperands .and =
      φ.chainOperands .and ++ rest.flatMap (chainOperands .and) := by
  induction rest generalizing φ with
  | nil => simp
  | cons ψ rest ih => simp [ih, chainOperands]

/-- The operands of the conjunction of a list are those of its formulas. -/
theorem chainOperands_conjunction? (h : conjunction? xs = some S) :
    S.chainOperands .and = xs.flatMap (chainOperands .and) := by
  cases xs with
  | nil => simp [conjunction?] at h
  | cons y rest =>
    obtain rfl := Option.some.inj h
    simpa using chainOperands_foldl y rest

/-- Beside a plain formula that is no conjunction, no conjunction of three or more formulas says the
same. -/
theorem not_equivalent_of_three (h : conjunction? xs = some S) (hlen : 3 ≤ xs.length)
    (hf : f.Plain) (hne : f.operator? ≠ some .and) : S.equivalent f ≠ true := by
  intro he
  obtain ⟨init, S₀, x, rfl, hinit, rfl⟩ := conjunction?_eq_and h (by omega)
  rw [List.length_append, List.length_singleton] at hlen
  have hS₀ : S₀.operator? = some .and := operator?_conjunction? hinit (by omega)
  obtain ⟨l, r, hbeside, hparts | hop⟩ := beside_of_equivalent (Or.inl rfl) rfl rfl he
  · have hplain := hf.beside hne hbeside
    rcases hparts with ⟨hl, -⟩ | ⟨hr, -⟩
    · exact hplain.1 (conjunctive_of_equivalent hS₀ hl)
    · exact hplain.2 (conjunctive_of_equivalent hS₀ hr)
  · exact hne hop

theorem exists_conjunction?_of_perm (hperm : xs.Perm ys) (hS : conjunction? xs = some S) :
    ∃ S', conjunction? ys = some S' := by
  cases ys with
  | nil =>
    obtain rfl := List.perm_nil.mp hperm
    exact ⟨S, hS⟩
  | cons y rest => exact ⟨_, rfl⟩

/-- Two orders of at most two formulas give the same conjunction, or one with the two exchanged. -/
theorem conjunction?_of_short (hperm : xs.Perm ys) (hS : conjunction? xs = some S)
    (hS' : conjunction? ys = some S') (hlen : xs.length ≤ 2) :
    S = S' ∨ ∃ x y, S = and x y ∧ S' = and y x := by
  match xs, hperm with
  | [], _ => simp [conjunction?] at hS
  | [x], hperm =>
    obtain rfl := List.singleton_perm.mp hperm
    exact Or.inl (Option.some.inj (hS.symm.trans hS'))
  | [x, y], hperm =>
    rcases List.pair_perm.mp hperm with rfl | rfl
    · exact Or.inl (Option.some.inj (hS.symm.trans hS'))
    · exact Or.inr ⟨x, y, (Option.some.inj hS).symm, (Option.some.inj hS').symm⟩
  | x :: y :: z :: rest, _ => simp at hlen

/-- The conjunction of a list says the same in another order, before a plain formula and whenever
the list has at most two formulas. -/
theorem equivalent_of_perm (hperm : xs.Perm ys) (hS : conjunction? xs = some S)
    (hS' : conjunction? ys = some S') (hf : f.Plain ∨ xs.length ≤ 2)
    (h : S.equivalent f = true) : S'.equivalent f = true := by
  by_cases hlen : xs.length ≤ 2
  · rcases conjunction?_of_short hperm hS hS' hlen with rfl | ⟨x, y, rfl, rfl⟩
    · exact h
    · exact (exchange x y f).1 h
  · have hplain := hf.resolve_right hlen
    by_cases hop : f.operator? = some .and
    · have hand : S.operator? = some .and := operator?_conjunction? hS (by omega)
      have hand' : S'.operator? = some .and :=
        operator?_conjunction? hS' (by rw [← hperm.length_eq]; omega)
      apply equivalent_congr_operands hand hand' _ hop hplain h
      intro s
      rw [chainOperands_conjunction? hS, chainOperands_conjunction? hS']
      exact (hperm.flatMap_right _).mem_iff
    · exact absurd h (not_equivalent_of_three hS (by omega) hplain hop)

theorem mem_conjunctionsFrom {T : Formula} {rest : List Formula} :
    T ∈ conjunctionsFrom φ rest ↔ ∃ ys zs, rest = ys ++ zs ∧ ys.foldl and φ = T := by
  induction rest generalizing φ with
  | nil =>
    rw [conjunctionsFrom, List.mem_singleton]
    constructor
    · rintro rfl
      exact ⟨[], [], rfl, rfl⟩
    · rintro ⟨ys, zs, hnil, rfl⟩
      obtain ⟨rfl, -⟩ := List.append_eq_nil_iff.mp hnil.symm
      rfl
  | cons ψ rest ih =>
    rw [conjunctionsFrom, List.mem_cons, ih]
    constructor
    · rintro (rfl | ⟨ys, zs, rfl, rfl⟩)
      · exact ⟨[], ψ :: rest, rfl, rfl⟩
      · exact ⟨ψ :: ys, zs, rfl, rfl⟩
    · rintro ⟨ys, zs, hcons, rfl⟩
      cases ys with
      | nil => exact Or.inl rfl
      | cons y ys =>
        obtain ⟨rfl, hrest⟩ := List.cons.inj hcons
        exact Or.inr ⟨ys, zs, hrest, rfl⟩

/-- The conjunctions of a list are those of its beginnings. -/
theorem mem_conjunctions {T : Formula} :
    T ∈ conjunctions xs ↔ ∃ ys zs, xs = ys ++ zs ∧ conjunction? ys = some T := by
  cases xs with
  | nil =>
    constructor
    · intro h
      simp [conjunctions] at h
    · rintro ⟨ys, zs, hnil, h⟩
      obtain ⟨rfl, -⟩ := List.append_eq_nil_iff.mp hnil.symm
      simp [conjunction?] at h
  | cons φ rest =>
    rw [conjunctions, mem_conjunctionsFrom]
    constructor
    · rintro ⟨ys, zs, rfl, rfl⟩
      exact ⟨φ :: ys, zs, rfl, rfl⟩
    · rintro ⟨ys, zs, hcons, h⟩
      cases ys with
      | nil => simp [conjunction?] at h
      | cons y ys =>
        obtain ⟨rfl, hrest⟩ := List.cons.inj hcons
        exact ⟨ys, zs, hrest, Option.some.inj h⟩

/-- Once the first formulas of a list add up to a plain conjunction, more formulas that it contains
do no harm. -/
theorem equivalent_of_initial (hop : f.operator? = some .and) (hf : f.Plain)
    (hall : ∀ x ∈ xs ++ ys, f.contains x = true) (hT : conjunction? xs = some T)
    (he : T.equivalent f = true) (hS : conjunction? (xs ++ ys) = some S) :
    S.equivalent f = true := by
  by_cases hys : ys = []
  · subst hys
    rw [List.append_nil] at hS
    obtain rfl := Option.some.inj (hT.symm.trans hS)
    exact he
  · have hxs : xs ≠ [] := by
      rintro rfl
      simp [conjunction?] at hT
    have hlen : 2 ≤ (xs ++ ys).length := by
      have := List.length_pos_iff.mpr hxs
      have := List.length_pos_iff.mpr hys
      rw [List.length_append]
      omega
    rw [equivalent_iff_coveredBy (operator?_conjunction? hS hlen) hop hf,
      chainOperands_conjunction? hS]
    constructor
    · intro s hs
      obtain ⟨x, hx, hs⟩ := List.mem_flatMap.mp hs
      rw [Plain, conjuncts_of_and hop] at hf
      exact contains_operand hop hf (hall x hx) s hs
    · have hcovered : CoveredBy (T.chainOperands .and) f := by
        by_cases hTop : T.operator? = some .and
        · exact ((equivalent_iff_coveredBy hTop hop hf).mp he).2
        · rw [chainOperands_of_ne hTop]
          exact .whole (List.mem_singleton_self T) (equivalent_symm he)
      rw [chainOperands_conjunction? hT] at hcovered
      apply hcovered.mono
      intro x hx
      rw [List.flatMap_append]
      exact List.mem_append_left _ hx

/-- What the beginnings of a list add up to does not depend on its order: for a plain conjunction
that contains all formulas of the list, or if there are at most two of them and neither says by
itself what they should add up to. -/
def Orderless (f : Formula) (xs : List Formula) : Prop :=
  (f.operator? = some .and ∧ f.Plain ∧ ∀ x ∈ xs, f.contains x = true) ∨
    (xs.length ≤ 2 ∧ ∀ x ∈ xs, x.equivalent f = false)

/-- What does not depend on the order of a list does not depend on that of a permuted one. -/
theorem Orderless.perm (h : Orderless f xs) (hperm : xs.Perm ys) : Orderless f ys := by
  rcases h with ⟨hop, hf, hall⟩ | ⟨hlen, hnone⟩
  · exact Or.inl ⟨hop, hf, fun x hx => hall x (hperm.mem_iff.mpr hx)⟩
  · exact Or.inr ⟨hperm.length_eq ▸ hlen, fun x hx => hnone x (hperm.mem_iff.mpr hx)⟩

/-- A permuted list adds up to the same formulas. -/
theorem Orderless.conjunctions (h : Orderless f xs) (hperm : xs.Perm ys)
    (hadds : ∃ T ∈ conjunctions xs, T.equivalent f = true) :
    ∃ T ∈ conjunctions ys, T.equivalent f = true := by
  obtain ⟨T, hT, he⟩ := hadds
  obtain ⟨first, rest, rfl, hfirst⟩ := mem_conjunctions.mp hT
  obtain ⟨S, hS⟩ : ∃ S, conjunction? (first ++ rest) = some S := by
    cases first with
    | nil => simp [conjunction?] at hfirst
    | cons x xs => exact ⟨_, rfl⟩
  obtain ⟨S', hS'⟩ := exists_conjunction?_of_perm hperm hS
  refine ⟨S', mem_conjunctions.mpr ⟨ys, [], (List.append_nil ys).symm, hS'⟩, ?_⟩
  rcases h with ⟨hop, hf, hall⟩ | ⟨hlen, hnone⟩
  · exact equivalent_of_perm hperm hS hS' (Or.inl hf)
      (equivalent_of_initial hop hf hall hfirst he hS)
  · have hwhole : rest = [] := by
      match first, rest with
      | [], _ => simp [conjunction?] at hfirst
      | [x], _ =>
        obtain rfl := Option.some.inj hfirst
        exact absurd he (by simp [hnone x (by simp)])
      | _ :: _ :: _, [] => rfl
      | _ :: _ :: _, _ :: _ => simp at hlen
    subst hwhole
    rw [List.append_nil] at hperm hlen
    exact equivalent_of_perm hperm hfirst hS' (Or.inr hlen) he

def Clear (φ : Formula) : Prop := ∀ χ ∈ φ.pieces, χ.Plain

instance (φ : Formula) : Decidable φ.Clear := inferInstanceAs (Decidable (∀ _ ∈ _, _))

theorem Clear.plain (h : φ.Clear) : φ.Plain := h φ (mem_pieces_self φ)

/-- The parts of a clear formula are clear. -/
theorem Clear.parts (h : φ.Clear) (hsplit : φ.decompose = .split j l r) : l.Clear ∧ r.Clear := by
  have hpieces : ∀ χ, χ ∈ l.pieces ∨ χ ∈ r.pieces → χ ∈ φ.pieces := by
    intro χ hχ
    rw [pieces_of_split hsplit]
    exact List.mem_cons_of_mem _ (List.mem_append.mpr hχ)
  exact ⟨fun χ hχ => h χ (hpieces χ (Or.inl hχ)), fun χ hχ => h χ (hpieces χ (Or.inr hχ))⟩

theorem Clear.alone (h : φ.Clear) (halone : φ.decompose = .alone a) : a.Clear := by
  by_cases heq : a = φ
  · exact heq ▸ h
  · intro χ hχ
    apply h
    unfold pieces at hχ ⊢
    rw [expand]
    split
    · rename_i b hb
      obtain rfl := Decomposition.alone.inj (halone.symm.trans hb)
      rw [dif_neg heq]
      exact List.mem_cons_of_mem _ hχ
    · rename_i hsplit
      simp [halone] at hsplit

theorem clear_or (hl : l.Clear) (hr : r.Clear) : (or l r).Clear := by
  intro χ hχ
  rw [pieces_of_split rfl, List.mem_cons, List.mem_append] at hχ
  rcases hχ with rfl | hχ | hχ
  · simp [Plain, conjuncts, decompose]
  · exact hl χ hχ
  · exact hr χ hχ

/-- The sides of a biconditional and their negations are pieces of it, and these are what its
conditionals are made of. -/
theorem Clear.conditionals (h : φ.Clear) (hcond : φ.conditionals? = some (a, b)) :
    a.Clear ∧ b.Clear := by
  fun_cases conditionals? φ <;>
    simp only [conditionals?, Option.some.injEq, Prod.mk.injEq, reduceCtorEq] at hcond
  all_goals
    obtain ⟨rfl, rfl⟩ := hcond
    obtain ⟨hfirst, hsecond⟩ := h.parts rfl
    obtain ⟨hp, hq⟩ := hfirst.parts rfl
    obtain ⟨hp', hq'⟩ := hsecond.parts rfl
  · exact ⟨clear_or hp' hq, clear_or hp hq'⟩
  · exact ⟨clear_or hp' hq, clear_or hp hq'⟩

theorem hereditary_clear : Hereditary Clear :=
  ⟨fun _ _ h => h.alone, fun _ _ _ _ h => h.parts, fun _ _ _ h => h.conditionals⟩

/-- Before a plain conjunction the conjunction of a list is found in any order. -/
theorem contains_and_of_perm (hperm : xs.Perm ys) (hS : conjunction? xs = some S)
    (hS' : conjunction? ys = some S') (hop : f.operator? = some .and) (hf : f.Plain)
    (h : f.contains S = true) : f.contains S' = true := by
  rw [Plain, conjuncts_of_and hop] at hf
  apply contains_of_operands (Or.inl rfl) hop
  intro s hs
  apply contains_operand hop hf h
  rw [chainOperands_conjunction? hS'] at hs
  rw [chainOperands_conjunction? hS]
  exact (hperm.flatMap_right _).mem_iff.mpr hs

/-- The conjunction of a list is found in any order in a formula whose pieces are plain. -/
theorem contains_clear_of_perm (hperm : xs.Perm ys) (hS : conjunction? xs = some S)
    (hS' : conjunction? ys = some S') (hand : S.operator? = some .and)
    (hand' : S'.operator? = some .and) (hf : f.Clear) (h : f.contains S = true) :
    f.contains S' = true := by
  have hequiv : ∀ g : Formula, g.Plain → S.equivalent g = true → S'.equivalent g = true :=
    fun g hg => equivalent_of_perm hperm hS hS' (Or.inl hg)
  induction hn : f.weight using Nat.strong_induction_on generalizing f with
  | _ n ih =>
    by_cases hop : f.operator? = some .and
    · exact contains_and_of_perm hperm hS hS' hop hf.plain h
    rcases contains_iff.mp h with he | hbelow
    · exact contains_of_equivalent (hequiv f hf.plain he)
    · apply contains_of_below
      cases hd : f.decompose with
      | alone a =>
        rw [containsBelow, hd] at hbelow ⊢
        exact hequiv a (hf.alone hd).plain hbelow
      | split j l r =>
        have hparts := hf.parts hd
        rw [containsBelow_iff hd] at hbelow ⊢
        apply foundBelow_congr (hand'.trans hand.symm) (by simp [hand]) hd _ _ _ hbelow
        · rintro g (rfl | rfl)
          · exact hequiv g hparts.1.plain
          · exact hequiv g hparts.2.plain
        · rintro g hg (rfl | rfl | ⟨a, b, hab, rfl | rfl⟩) hc
          · exact ih _ (hn ▸ hg) hparts.1 hc rfl
          · exact ih _ (hn ▸ hg) hparts.2 hc rfl
          · exact ih _ (hn ▸ hg) (hf.conditionals hab).1 hc rfl
          · exact ih _ (hn ▸ hg) (hf.conditionals hab).2 hc rfl
        · exact fun _ _ _ hsame _ _ _ => absurd (hsame.symm.trans hand) hop

/-- A formula can be replaced by another one before formulas with a property. Both are conjunctions,
unless they are the same. -/
structure Replaceable (Q : Formula → Prop) (S S' : Formula) : Prop where
  kind : S = S' ∨ (S.operator? = some .and ∧ S'.operator? = some .and)
  equivalent : ∀ f : Formula, Q f → S.equivalent f = true → S'.equivalent f = true
  contains : ∀ f : Formula, Q f → f.contains S = true → f.contains S' = true

/-- The conjunction of at most two formulas may be replaced by that of the same two exchanged. -/
theorem replaceable_of_short (hperm : xs.Perm ys) (hS : conjunction? xs = some S)
    (hS' : conjunction? ys = some S') (hlen : xs.length ≤ 2) :
    Replaceable (fun _ => True) S S' := by
  rcases conjunction?_of_short hperm hS hS' hlen with rfl | ⟨x, y, rfl, rfl⟩
  · exact ⟨Or.inl rfl, fun _ _ h => h, fun _ _ h => h⟩
  · exact ⟨Or.inr ⟨rfl, rfl⟩, fun f _ => (exchange x y f).1, fun f _ => (exchange x y f).2⟩

/-- Against clear formulas, a conjunction may be replaced by that of its members in another order.
-/
theorem replaceable_of_perm (hperm : xs.Perm ys) (hS : conjunction? xs = some S)
    (hS' : conjunction? ys = some S') : Replaceable Clear S S' := by
  by_cases hlen : xs.length ≤ 2
  · obtain ⟨hkind, hequiv, hcontains⟩ := replaceable_of_short hperm hS hS' hlen
    exact ⟨hkind, fun f _ => hequiv f trivial, fun f _ => hcontains f trivial⟩
  · have hand : S.operator? = some .and := operator?_conjunction? hS (by omega)
    have hand' : S'.operator? = some .and :=
      operator?_conjunction? hS' (by rw [← hperm.length_eq]; omega)
    exact ⟨Or.inr ⟨hand, hand'⟩, fun f hf => equivalent_of_perm hperm hS hS' (Or.inl hf.plain),
      fun f hf => contains_clear_of_perm hperm hS hS' hand hand' hf⟩

/-- The conjunction of a list is found in a formula in any order, if the pieces of the formula are
plain or the list has at most two formulas. -/
theorem contains_of_perm (hperm : xs.Perm ys) (hS : conjunction? xs = some S)
    (hS' : conjunction? ys = some S') (hf : f.Clear ∨ xs.length ≤ 2) (h : f.contains S = true) :
    f.contains S' = true := by
  rcases hf with hf | hlen
  · exact (replaceable_of_perm hperm hS hS').contains f hf h
  · exact (replaceable_of_short hperm hS hS' hlen).contains f trivial h

/-- Both sides of a disjunction can be replaced. -/
theorem Replaceable.interchange (hQ : Hereditary Q) (hS : Replaceable Q S S')
    (hR : Replaceable Q R R') : Interchange Q .or S R S' R' := by
  have hside : ∀ {U U' : Formula}, Replaceable Q U U' → ∀ g : Formula, Q g →
      g.equivalent U = true → g.equivalent U' = true :=
    fun hU g hg he => equivalent_symm (hU.equivalent g hg (equivalent_symm he))
  have hin : ∀ {U U' : Formula}, Replaceable Q U U' → ∀ g : Formula,
      U.operator? = some .or ∧ U.contains g = true →
        U'.operator? = some .or ∧ U'.contains g = true := by
    rintro U U' hU g ⟨hop, hc⟩
    rcases hU.kind with rfl | ⟨hand, -⟩
    · exact ⟨hop, hc⟩
    · simp [hand] at hop
  constructor
  case beside =>
    intro g l r hg hbeside hparts
    obtain ⟨k, hd⟩ : ∃ k, g.decompose = .split k l r := by
      unfold beside? at hbeside
      split at hbeside <;> simp_all
    obtain ⟨hl, hr⟩ := hQ.parts g k l r hg hd
    exact hparts.imp
      (fun h => ⟨hS.equivalent l hl h.1, hR.equivalent r hr h.2⟩)
      (fun h => ⟨hS.equivalent r hr h.1, hR.equivalent l hl h.2⟩)
  case single => exact fun g hg he => he.imp (hside hS g hg) (hside hR g hg)
  case inside => exact fun g hc => hc.imp (hin hS g) (hin hR g)
  case found => exact fun g hg _ hl hr => ⟨hS.contains g hg hl, hR.contains g hg hr⟩

/-- Both sides of a disjunction may be replaced at once. -/
theorem Replaceable.equivalent_or (hQ : Hereditary Q) (hS : Replaceable Q S S')
    (hR : Replaceable Q R R') (hf : Q f) (h : (or S R).equivalent f = true) :
    (or S' R').equivalent f = true :=
  ((hS.interchange hQ hR).congr (Or.inr rfl) (rfl : (or S R).operator? = _) rfl
    (rfl : (or S' R').operator? = _) rfl hQ hf).1 h

/-- Two conjunctions of lists are the cases of a formula in any order, if the pieces of the formula
are plain or the lists have at most two formulas each. -/
theorem equivalent_or_of_perm {zs ws : List Formula} (hperm : xs.Perm ys) (hperm' : zs.Perm ws)
    (hS : conjunction? xs = some S) (hS' : conjunction? ys = some S')
    (hR : conjunction? zs = some R) (hR' : conjunction? ws = some R')
    (hf : f.Clear ∨ (xs.length ≤ 2 ∧ zs.length ≤ 2)) (h : (or S R).equivalent f = true) :
    (or S' R').equivalent f = true := by
  rcases hf with hf | ⟨hlen, hlen'⟩
  · exact (replaceable_of_perm hperm hS hS').equivalent_or hereditary_clear
      (replaceable_of_perm hperm' hR hR') hf h
  · exact (replaceable_of_short hperm hS hS' hlen).equivalent_or hereditary_true
      (replaceable_of_short hperm' hR hR' hlen') trivial h

end TruthTrees.Formula
