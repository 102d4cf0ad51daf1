import TruthTrees.Proofs.Formula.Chains

/-! Formulas that are opposites of each other by their shape. Negating a formula turns its junctions
around: what was joined is split into cases, and what was split into cases is joined; and what the
cases of a biconditional were are the conditionals of its negation. So as long as two formulas are
compared part by part only, and negations stand before literals only, the negation of the first says
the same as the second exactly when the negation of the second says the same as the first. -/
namespace TruthTrees.Formula

variable {φ φ' ψ ψ' a b l r l₁ r₁ l₂ r₂ l₁' r₁' l₂' r₂' : Formula}
  {j : Junction}

/-- Whether two formulas say the same by their shape, as far as this can be seen part by part:
chains are not compared by containment. -/
def matched (φ ψ : Formula) : Bool :=
  match _h : align φ ψ with
  | .single a b => a = b
  | .pairs l₁ r₁ l₂ r₂ => (matched l₁ l₂ && matched r₁ r₂) || (matched l₁ r₂ && matched r₁ l₂)
  | .apart => false
termination_by φ.weight + ψ.weight
decreasing_by
  all_goals
    have hw := weight_lt_of_align _h
    omega

theorem matched_of_single (h : align φ ψ = .single a b) : φ.matched ψ = decide (a = b) := by
  rw [matched, h]

theorem matched_of_pairs (h : align φ ψ = .pairs l₁ r₁ l₂ r₂) :
    φ.matched ψ = (l₁.matched l₂ && r₁.matched r₂ || l₁.matched r₂ && r₁.matched l₂) := by
  rw [matched, h]

theorem matched_of_apart (h : align φ ψ = .apart) : φ.matched ψ = false := by
  rw [matched, h]

/-- Matching does not depend on which of two formulas comes first. -/
theorem matched_comm (φ ψ : Formula) : φ.matched ψ = ψ.matched φ := by
  induction hn : φ.weight + ψ.weight using Nat.strong_induction_on generalizing φ ψ with
  | _ n ih =>
    have hswap := align_swap φ ψ
    cases halign : align φ ψ with
    | single a b =>
      rw [halign] at hswap
      rw [matched_of_single halign, matched_of_single hswap, decide_eq_decide]
      exact eq_comm
    | pairs l₁ r₁ l₂ r₂ =>
      rw [halign] at hswap
      have hw := weight_lt_of_align halign
      rw [matched_of_pairs halign, matched_of_pairs hswap, ih _ (by omega) l₁ l₂ rfl,
        ih _ (by omega) r₁ r₂ rfl, ih _ (by omega) l₁ r₂ rfl, ih _ (by omega) r₁ l₂ rfl]
      congr 1
      exact Bool.and_comm _ _
    | apart =>
      rw [halign] at hswap
      rw [matched_of_apart halign, matched_of_apart hswap]

/-- What matches part by part says the same. -/
theorem equivalent_of_matched (h : φ.matched ψ = true) : φ.equivalent ψ = true := by
  induction hn : φ.weight + ψ.weight using Nat.strong_induction_on generalizing φ ψ with
  | _ n ih =>
    rw [equivalent_iff_sameShape]
    cases halign : align φ ψ with
    | single a b =>
      rw [matched_of_single halign] at h
      obtain rfl := of_decide_eq_true h
      exact .single halign
    | pairs l₁ r₁ l₂ r₂ =>
      have hw := weight_lt_of_align halign
      rw [matched_of_pairs halign] at h
      simp only [Bool.or_eq_true, Bool.and_eq_true] at h
      apply SameShape.pairs halign
      exact h.imp
        (And.imp (fun h => ih _ (by omega) h rfl) (fun h => ih _ (by omega) h rfl))
        (And.imp (fun h => ih _ (by omega) h rfl) (fun h => ih _ (by omega) h rfl))
    | apart =>
      rw [matched_of_apart halign] at h
      simp at h

def ofLiteral : Formula → Bool
  | literal _ | not (literal _) | not (not (literal _)) => true
  | _ => false

theorem exists_of_ofLiteral (h : φ.ofLiteral = true) :
    ∃ name, φ = literal name ∨ φ = not (literal name) ∨ φ = not (not (literal name)) := by
  fun_cases ofLiteral φ
  · exact ⟨_, Or.inl rfl⟩
  · exact ⟨_, Or.inr (Or.inl rfl)⟩
  · exact ⟨_, Or.inr (Or.inr rfl)⟩
  · simp_all [ofLiteral]

def negatesLiterals : Formula → Bool
  | and l r | or l r | imp l r | iff l r => l.negatesLiterals && r.negatesLiterals
  | φ => φ.ofLiteral

/-- Two formulas that are opposites of each other: a formula and its negation, or a conjunction and
a disjunction of opposites. -/
inductive Opposite : Formula → Formula → Prop
  | negated {φ : Formula} (h : φ.negatesLiterals = true) : Opposite φ (not φ)
  | plain {φ : Formula} (h : φ.negatesLiterals = true) : Opposite (not φ) φ
  | and {p p' q q' : Formula} (hp : Opposite p p') (hq : Opposite q q') :
    Opposite (and p q) (or p' q')
  | or {p p' q q' : Formula} (hp : Opposite p p') (hq : Opposite q q') :
    Opposite (or p q) (and p' q')

theorem Opposite.symm (h : Opposite φ φ') : Opposite φ' φ := by
  induction h with
  | negated h => exact .plain h
  | plain h => exact .negated h
  | and _ _ hp hq => exact .or hp hq
  | or _ _ hp hq => exact .and hp hq

def signed (name : String) : Bool → Formula
  | true => literal name
  | false => not (literal name)

theorem signed_inj {x y : String} {s s' : Bool} : signed x s = signed y s' ↔ x = y ∧ s = s' := by
  cases s <;> cases s' <;> simp [signed]

/-- How two opposites are taken apart: into opposite literals; into opposite parts, which are joined
on one side and cases on the other side; or as a biconditional and its negation, the cases of each
of which are opposites of the conditionals of the other one. -/
inductive OppositeParts (φ φ' : Formula) : Prop
  | literals (name : String) (s : Bool) (h : φ.decompose = .alone (signed name s))
    (h' : φ'.decompose = .alone (signed name !s))
  | joint {p p' q q' : Formula} (hp : Opposite p p') (hq : Opposite q q')
    (h : φ.decompose = .split .and p q) (h' : φ'.decompose = .split .or p' q')
  | cases {p p' q q' : Formula} (hp : Opposite p p') (hq : Opposite q q')
    (h : φ.decompose = .split .or p q) (h' : φ'.decompose = .split .and p' q')
  | biconditional {a a' b b' : Formula} (ha : Opposite a a') (hb : Opposite b b')
    (h : φ.decompose = .split .iff (and a b) (and a' b'))
    (hc : φ.conditionals? = some (or a' b, or a b'))
    (h' : φ'.decompose = .split .iff (and a' b) (and a b'))
    (hc' : φ'.conditionals? = some (or a b, or a' b'))

theorem OppositeParts.symm (h : OppositeParts φ φ') : OppositeParts φ' φ := by
  cases h with
  | literals name s h h' => exact .literals name (!s) h' (by rw [Bool.not_not]; exact h)
  | joint hp hq h h' => exact .cases hp.symm hq.symm h' h
  | cases hp hq h h' => exact .joint hp.symm hq.symm h' h
  | biconditional ha hb h hc h' hc' => exact .biconditional ha.symm hb h' hc' h hc

/-- A formula and its negation are taken apart in opposite ways. -/
theorem oppositeParts_negated (h : φ.negatesLiterals = true) : OppositeParts φ (not φ) := by
  cases φ with
  | literal name => exact .literals name true rfl rfl
  | not φ =>
    rcases exists_of_ofLiteral h with ⟨name, hliteral | hliteral | hliteral⟩
    · simp at hliteral
    · rw [hliteral]
      exact .literals name false rfl rfl
    · rw [hliteral]
      exact .literals name true rfl rfl
  | and l r =>
    obtain ⟨hl, hr⟩ := Bool.and_eq_true_iff.mp h
    exact .joint (.negated hl) (.negated hr) rfl rfl
  | or l r =>
    obtain ⟨hl, hr⟩ := Bool.and_eq_true_iff.mp h
    exact .cases (.negated hl) (.negated hr) rfl rfl
  | imp l r =>
    obtain ⟨hl, hr⟩ := Bool.and_eq_true_iff.mp h
    exact .cases (.plain hl) (.negated hr) rfl rfl
  | iff l r =>
    obtain ⟨hl, hr⟩ := Bool.and_eq_true_iff.mp h
    exact .biconditional (.negated hl) (.negated hr) rfl rfl rfl rfl

/-- Opposite formulas have opposite parts. -/
theorem Opposite.parts (h : Opposite φ φ') : OppositeParts φ φ' := by
  cases h with
  | negated h => exact oppositeParts_negated h
  | plain h => exact (oppositeParts_negated h).symm
  | and hp hq => exact .joint hp hq rfl rfl
  | or hp hq => exact .cases hp hq rfl rfl

theorem align_of_alone (h : φ.decompose = .alone a) (h' : ψ.decompose = .alone b) :
    align φ ψ = .single a b := by
  unfold align
  rw [h, h']

theorem align_apart (h : φ.decompose = .alone a) (h' : ψ.decompose = .split j l r) :
    align φ ψ = .apart := by
  unfold align
  rw [h, h']

theorem not_matched_of_alone (h : φ.decompose = .alone a) (h' : ψ.decompose = .split j l r) :
    φ.matched ψ = false := matched_of_apart (align_apart h h')

/-- A conjunction and a disjunction never match. -/
theorem not_matched_of_junctions (h : φ.decompose = .split .and l₁ r₁)
    (h' : ψ.decompose = .split .or l₂ r₂) : φ.matched ψ = false := by
  apply matched_of_apart
  unfold align
  rw [h, h']
  rfl

/-- Beside a conjunction a biconditional is read as its conditionals. -/
theorem align_conditionals (h : φ.decompose = .split .and l₁ r₁)
    (h' : ψ.decompose = .split .iff l r) (hc : ψ.conditionals? = some (l₂, r₂)) :
    align φ ψ = .pairs l₁ r₁ l₂ r₂ := by
  unfold align
  rw [h, h', hc]

/-- Beside a disjunction a biconditional is read as its cases. -/
theorem align_cases (h : φ.decompose = .split .or l₁ r₁) (h' : ψ.decompose = .split .iff l₂ r₂) :
    align φ ψ = .pairs l₁ r₁ l₂ r₂ := by
  unfold align
  rw [h, h']

theorem matched_eq_of_pairs (h : align φ ψ = .pairs l₁ r₁ l₂ r₂)
    (h' : align φ' ψ' = .pairs l₁' r₁' l₂' r₂') (hll : l₁.matched l₂ = l₁'.matched l₂')
    (hrr : r₁.matched r₂ = r₁'.matched r₂') (hlr : l₁.matched r₂ = l₁'.matched r₂')
    (hrl : r₁.matched l₂ = r₁'.matched l₂') : φ.matched ψ = φ'.matched ψ' := by
  rw [matched_of_pairs h, matched_of_pairs h', hll, hrr, hlr, hrl]

theorem matched_eq_of_crossed (h : align φ ψ = .pairs l₁ r₁ l₂ r₂)
    (h' : align φ' ψ' = .pairs l₁' r₁' r₂' l₂') (hll : l₁.matched l₂ = l₁'.matched l₂')
    (hrr : r₁.matched r₂ = r₁'.matched r₂') (hlr : l₁.matched r₂ = l₁'.matched r₂')
    (hrl : r₁.matched l₂ = r₁'.matched l₂') : φ.matched ψ = φ'.matched ψ' := by
  rw [matched_of_pairs h, matched_of_pairs h', hll, hrr, hlr, hrl]
  exact Bool.or_comm _ _

def MatchBelow (φ ψ : Formula) : Prop :=
  ∀ ⦃x x' y y' : Formula⦄, Opposite x x' → Opposite y y' → x.weight < φ.weight →
    y.weight < ψ.weight → x.matched y = x'.matched y'

theorem MatchBelow.symm (h : MatchBelow φ ψ) : MatchBelow ψ φ := by
  intro x x' y y' hx hy hxw hyw
  rw [matched_comm x, matched_comm x']
  exact h hy hx hyw hxw

section Steps

variable (hbelow : MatchBelow φ ψ)
include hbelow

/-- The opposites of a conjunction and of a biconditional are a disjunction and a biconditional, so
that the parts of the first lie beside the cases of the second one. -/
theorem matched_eq_of_joint_biconditional {a a' b b' p p' q q' : Formula} (hp : Opposite p p')
    (hq : Opposite q q') (h : φ.decompose = .split .and p q) (h' : φ'.decompose = .split .or p' q')
    (ha : Opposite a a') (hb : Opposite b b') (k : ψ.decompose = .split .iff l r)
    (kc : ψ.conditionals? = some (or a' b, or a b'))
    (k' : ψ'.decompose = .split .iff (and a' b) (and a b')) : φ.matched ψ = φ'.matched ψ' := by
  have hw := weight_lt_of_split h
  have hw' := weight_lt_of_conditionals kc
  have hleft : Opposite (or a' b) (and a b') := .or ha.symm hb
  have hright : Opposite (or a b') (and a' b) := .or ha hb.symm
  exact matched_eq_of_crossed (align_conditionals h k kc) (align_cases h' k')
    (hbelow hp hleft hw.1 hw'.1) (hbelow hq hright hw.2 hw'.2) (hbelow hp hright hw.1 hw'.2)
    (hbelow hq hleft hw.2 hw'.1)

/-- And the other way round. -/
theorem matched_eq_of_cases_biconditional {a a' b b' p p' q q' : Formula} (hp : Opposite p p')
    (hq : Opposite q q') (h : φ.decompose = .split .or p q)
    (h' : φ'.decompose = .split .and p' q') (ha : Opposite a a') (hb : Opposite b b')
    (k : ψ.decompose = .split .iff (and a b) (and a' b')) (k' : ψ'.decompose = .split .iff l r)
    (kc' : ψ'.conditionals? = some (or a b, or a' b')) : φ.matched ψ = φ'.matched ψ' := by
  have hw := weight_lt_of_split h
  have hw' := weight_lt_of_split k
  have hleft : Opposite (and a b) (or a' b') := .and ha hb
  have hright : Opposite (and a' b') (or a b) := .and ha.symm hb.symm
  exact matched_eq_of_crossed (align_cases h k) (align_conditionals h' k' kc')
    (hbelow hp hleft hw.1 hw'.1) (hbelow hq hright hw.2 hw'.2) (hbelow hp hright hw.1 hw'.2)
    (hbelow hq hleft hw.2 hw'.1)

/-- Parts of one junction lie beside parts of one junction, also after it is turned around. -/
theorem matched_eq_of_splits {j' : Junction} {p p' q q' r r' s s' : Formula} (hp : Opposite p p')
    (hq : Opposite q q') (hr : Opposite r r') (hs : Opposite s s')
    (h : φ.decompose = .split j p q) (h' : φ'.decompose = .split j' p' q')
    (k : ψ.decompose = .split j r s) (k' : ψ'.decompose = .split j' r' s') :
    φ.matched ψ = φ'.matched ψ' := by
  have hw := weight_lt_of_split h
  have hw' := weight_lt_of_split k
  exact matched_eq_of_pairs (align_of_split h k) (align_of_split h' k')
    (hbelow hp hr hw.1 hw'.1) (hbelow hq hs hw.2 hw'.2) (hbelow hp hs hw.1 hw'.2)
    (hbelow hq hr hw.2 hw'.1)

/-- Two biconditionals match if their sides do, up to negating one side of each of them; so do their
negations. -/
theorem matched_eq_of_biconditionals {a a' b b' c c' d d' : Formula} (ha : Opposite a a')
    (hb : Opposite b b') (hc : Opposite c c') (hd : Opposite d d')
    (h : φ.decompose = .split .iff (and a b) (and a' b'))
    (h' : φ'.decompose = .split .iff (and a' b) (and a b'))
    (k : ψ.decompose = .split .iff (and c d) (and c' d'))
    (k' : ψ'.decompose = .split .iff (and c' d) (and c d')) : φ.matched ψ = φ'.matched ψ' := by
  have hw := weight_lt_of_split h
  have hw' := weight_lt_of_split k
  simp only [weight] at hw hw'
  have hac : a.matched c = a'.matched c' := hbelow ha hc (by omega) (by omega)
  have hac' : a.matched c' = a'.matched c := hbelow ha hc.symm (by omega) (by omega)
  have had : a.matched d = a'.matched d' := hbelow ha hd (by omega) (by omega)
  have had' : a.matched d' = a'.matched d := hbelow ha hd.symm (by omega) (by omega)
  have hbc : b.matched c = b'.matched c' := hbelow hb hc (by omega) (by omega)
  have hbc' : b.matched c' = b'.matched c := hbelow hb hc.symm (by omega) (by omega)
  have hbd : b.matched d = b'.matched d' := hbelow hb hd (by omega) (by omega)
  have hbd' : b.matched d' = b'.matched d := hbelow hb hd.symm (by omega) (by omega)
  have hand : ∀ x y z w : Formula, (and x y).matched (and z w) =
      (x.matched z && y.matched w || x.matched w && y.matched z) :=
    fun x y z w => matched_of_pairs rfl
  have hbool : ∀ ac ac' ad ad' bc bc' bd bd' : Bool,
      ((ac && bd || ad && bc) && (ac && bd || ad && bc) ||
        (ac' && bd' || ad' && bc') && (ac' && bd' || ad' && bc')) =
      ((ac && bd || ad' && bc') && (ac && bd || ad' && bc') ||
        (ac' && bd' || ad && bc) && (ac' && bd' || ad && bc)) := by decide
  rw [matched_of_pairs (align_of_split h k), matched_of_pairs (align_of_split h' k')]
  simp only [hand, ← hac, ← hac', ← had, ← had', ← hbc, ← hbc', ← hbd, ← hbd']
  exact hbool _ _ _ _ _ _ _ _

/-- Two formulas match when the ones opposite to them do. -/
theorem OppositeParts.matched_eq (hφ : OppositeParts φ φ') (hψ : OppositeParts ψ ψ') :
    φ.matched ψ = φ'.matched ψ' := by
  cases hφ with
  | literals x s h h' =>
    cases hψ with
    | literals y s' k k' =>
      rw [matched_of_single (align_of_alone h k), matched_of_single (align_of_alone h' k'),
        decide_eq_decide, signed_inj, signed_inj, Bool.not_inj_iff]
    | joint _ _ k k' | cases _ _ k k' | biconditional _ _ k _ k' _ =>
      rw [not_matched_of_alone h k, not_matched_of_alone h' k']
  | joint hp hq h h' =>
    cases hψ with
    | literals y s' k k' =>
      rw [matched_comm φ, matched_comm φ', not_matched_of_alone k h, not_matched_of_alone k' h']
    | joint hr hs k k' => exact matched_eq_of_splits hbelow hp hq hr hs h h' k k'
    | cases _ _ k k' =>
      rw [not_matched_of_junctions h k, matched_comm φ', not_matched_of_junctions k' h']
    | biconditional ha hb k kc k' _ =>
      exact matched_eq_of_joint_biconditional hbelow hp hq h h' ha hb k kc k'
  | cases hp hq h h' =>
    cases hψ with
    | literals y s' k k' =>
      rw [matched_comm φ, matched_comm φ', not_matched_of_alone k h, not_matched_of_alone k' h']
    | joint _ _ k k' =>
      rw [matched_comm φ, not_matched_of_junctions k h, not_matched_of_junctions h' k']
    | cases hr hs k k' => exact matched_eq_of_splits hbelow hp hq hr hs h h' k k'
    | biconditional ha hb k _ k' kc' =>
      exact matched_eq_of_cases_biconditional hbelow hp hq h h' ha hb k k' kc'
  | biconditional ha hb h hc h' hc' =>
    cases hψ with
    | literals y s' k k' =>
      rw [matched_comm φ, matched_comm φ', not_matched_of_alone k h, not_matched_of_alone k' h']
    | joint hp hq k k' =>
      rw [matched_comm φ, matched_comm φ']
      exact matched_eq_of_joint_biconditional hbelow.symm hp hq k k' ha hb h hc h'
    | cases hp hq k k' =>
      rw [matched_comm φ, matched_comm φ']
      exact matched_eq_of_cases_biconditional hbelow.symm hp hq k k' ha hb h h' hc'
    | biconditional hr hs k _ k' _ =>
      exact matched_eq_of_biconditionals hbelow ha hb hr hs h h' k k'

end Steps

/-- Two formulas match part by part exactly when their opposites do. -/
theorem Opposite.matched_eq (hφ : Opposite φ φ') (hψ : Opposite ψ ψ') :
    φ.matched ψ = φ'.matched ψ' := by
  induction hn : φ.weight + ψ.weight using Nat.strong_induction_on generalizing φ φ' ψ ψ' with
  | _ n ih =>
    have hbelow : MatchBelow φ ψ := fun x x' y y' hx hy hxw hyw => ih _ (by omega) hx hy rfl
    exact hφ.parts.matched_eq hbelow hψ.parts

/-- Part by part, a formula is the negation of another one if that one is the negation of it. -/
theorem matched_not_comm (hφ : φ.negatesLiterals = true) (hψ : ψ.negatesLiterals = true) :
    (not φ).matched ψ = (not ψ).matched φ :=
  calc (not φ).matched ψ = φ.matched (not ψ) := (Opposite.plain hφ).matched_eq (.negated hψ)
    _ = (not ψ).matched φ := matched_comm _ _

/-- A formula matches itself. -/
theorem matched_refl (φ : Formula) : φ.matched φ = true := by
  induction hn : φ.weight using Nat.strong_induction_on generalizing φ with
  | _ n ih =>
    cases hd : φ.decompose with
    | alone a => simp [matched_of_single (align_of_alone hd hd)]
    | split j l r =>
      have hw := weight_lt_of_split hd
      rw [matched_of_pairs (align_of_split hd hd), ih _ (by omega) l rfl, ih _ (by omega) r rfl]
      rfl

/-- Whether a formula is built by conjunction, disjunction and conditionals from literals, with
nothing but literals before the conditionals. -/
def direct : Formula → Bool
  | and l r | or l r => l.direct && r.direct
  | imp l r => l.ofLiteral && r.direct
  | φ => φ.ofLiteral

theorem negatesLiterals_of_ofLiteral (h : φ.ofLiteral = true) : φ.negatesLiterals = true := by
  obtain ⟨name, rfl | rfl | rfl⟩ := exists_of_ofLiteral h <;> rfl

theorem negatesLiterals_of_direct (h : φ.direct = true) : φ.negatesLiterals = true := by
  induction φ with
  | literal | not => exact h
  | and l r ihl ihr | or l r ihl ihr =>
    rw [direct, Bool.and_eq_true] at h
    rw [negatesLiterals, ihl h.1, ihr h.2]
    rfl
  | imp l r _ ihr =>
    rw [direct, Bool.and_eq_true] at h
    rw [negatesLiterals, negatesLiterals_of_ofLiteral h.1, ihr h.2]
    rfl
  | iff => simp [direct, ofLiteral] at h

/-- The formulas that are met when the negation of such a formula is taken apart. -/
inductive Chainless : Formula → Prop
  | ofLiteral {φ : Formula} (h : φ.ofLiteral = true) : Chainless φ
  | negated {φ : Formula} (h : φ.direct = true) : Chainless (not φ)

/-- They are never conjunctions or disjunctions themselves, and neither are their parts. -/
theorem Chainless.parts (h : Chainless φ) (hd : φ.decompose = .split j l r) :
    j ≠ .iff ∧ Chainless l ∧ Chainless r := by
  cases h with
  | ofLiteral h =>
    obtain ⟨name, rfl | rfl | rfl⟩ := exists_of_ofLiteral h <;> simp [decompose] at hd
  | @negated χ h =>
    cases χ with
    | literal => simp [decompose] at hd
    | not χ =>
      obtain ⟨name, hχ | hχ | hχ⟩ := exists_of_ofLiteral h <;> simp_all [decompose]
    | and p q | or p q =>
      rw [direct, Bool.and_eq_true] at h
      obtain ⟨rfl, rfl, rfl⟩ := Decomposition.split.inj hd
      exact ⟨by simp, .negated h.1, .negated h.2⟩
    | imp p q =>
      rw [direct, Bool.and_eq_true] at h
      obtain ⟨rfl, rfl, rfl⟩ := Decomposition.split.inj hd
      exact ⟨by simp, .ofLiteral h.1, .negated h.2⟩
    | iff => simp [direct, Formula.ofLiteral] at h

theorem Chainless.sameChain (h : Chainless φ) (ψ : Formula) : φ.sameChain ψ = false := by
  cases h with
  | ofLiteral h => obtain ⟨name, rfl | rfl | rfl⟩ := exists_of_ofLiteral h <;> rfl
  | negated => rfl

/-- The parts of a formula that is no biconditional lie beside other parts as they are. -/
theorem split_of_align (h : align φ ψ = .pairs l₁ r₁ l₂ r₂)
    (hne : ∀ l r, φ.decompose ≠ .split .iff l r) : ∃ j, φ.decompose = .split j l₁ r₁ := by
  unfold align at h
  cases hd : φ.decompose with
  | alone a => cases hψ : ψ.decompose <;> simp [hd, hψ] at h
  | split j l r =>
    cases hψ : ψ.decompose with
    | alone b => cases j <;> simp [hd, hψ] at h
    | split k l' r' =>
      cases j with
      | iff => exact absurd hd (hne l r)
      | and => cases k <;> cases hc : ψ.conditionals? <;> simp_all
      | or => cases k <;> simp_all

/-- Beside such formulas only parts are compared. -/
theorem Chainless.matched (h : Chainless φ) (he : φ.equivalent ψ = true) :
    φ.matched ψ = true := by
  induction hn : φ.weight using Nat.strong_induction_on generalizing φ ψ with
  | _ n ih =>
    rw [equivalent_iff_sameShape] at he
    cases he with
    | equal heq => exact heq ▸ matched_refl φ
    | single halign => simp [matched_of_single halign]
    | chains _ hsame _ _ => simp [h.sameChain] at hsame
    | pairs halign hparts =>
      obtain ⟨j, hd⟩ := split_of_align halign (fun l r hd => (h.parts hd).1 rfl)
      obtain ⟨-, hl, hr⟩ := h.parts hd
      have hw := weight_lt_of_split hd
      rw [matched_of_pairs halign, Bool.or_eq_true, Bool.and_eq_true, Bool.and_eq_true]
      exact hparts.imp
        (And.imp (fun h => ih _ (by omega) hl h rfl) (fun h => ih _ (by omega) hr h rfl))
        (And.imp (fun h => ih _ (by omega) hl h rfl) (fun h => ih _ (by omega) hr h rfl))

theorem not_not_ne (φ : Formula) : not (not φ) ≠ φ := by
  intro h
  have hw := congrArg weight h
  simp only [weight] at hw
  omega

/-- A formula is its own part exactly if it is a literal or a negated literal. -/
theorem decompose_eq_alone_self_iff :
    φ.decompose = .alone φ ↔ ∃ name, φ = literal name ∨ φ = not (literal name) := by
  constructor
  · intro h
    fun_cases decompose φ
    · exact ⟨_, Or.inl rfl⟩
    · exact ⟨_, Or.inr rfl⟩
    · rename_i a
      exact absurd (Decomposition.alone.inj h).symm (not_not_ne a)
    all_goals simp [decompose] at h
  · rintro ⟨name, rfl | rfl⟩ <;> rfl

/-- A double negation says the same as what it negates twice only before a literal or a negated
literal. -/
theorem equivalent_not_not_iff :
    (not (not φ)).equivalent φ = true ↔ ∃ name, φ = literal name ∨ φ = not (literal name) := by
  rw [equivalent_iff_sameShape, ← decompose_eq_alone_self_iff]
  constructor
  · intro h
    cases hd : φ.decompose with
    | alone b =>
      have halign := align_of_alone (rfl : (not (not φ)).decompose = .alone φ) hd
      cases h with
      | equal h => exact absurd h (not_not_ne φ)
      | single h =>
        obtain ⟨rfl, rfl⟩ := Alignment.single.inj (halign.symm.trans h)
        rfl
      | pairs h _ | chains h _ _ _ => simp [halign] at h
    | split j l r =>
      have halign := align_apart (rfl : (not (not φ)).decompose = .alone φ) hd
      cases h with
      | equal h => exact absurd h (not_not_ne φ)
      | single h | pairs h _ | chains h _ _ _ => simp [halign] at h
  · intro h
    exact .single (align_of_alone rfl h)

end TruthTrees.Formula
