import TruthTrees.Proofs.Formula.Symmetry
import TruthTrees.Proofs.Session.Invariants

/-! Taking a biconditional apart in place. A line whose formula is one of the two conditionals of a
biconditional may rest on it, in any node. The conditionals of a negated biconditional are not
searched for, so a line with one of them is refused, unless it says the same by its shape. -/
namespace TruthTrees

namespace Formula

variable {φ ψ l r : Formula}

/-- Both conditionals of a biconditional are found below it. -/
theorem containsBelow_of_conditionals (hiff : φ.operator? = some .iff)
    (h : φ.conditionals? = some (l, r)) (hψ : ψ = l ∨ ψ = r) : φ.containsBelow ψ = true := by
  obtain ⟨a, b, rfl⟩ : ∃ a b, φ = iff a b := by
    cases φ <;> simp_all [operator?]
  obtain ⟨rfl, rfl⟩ : or (not a) b = l ∧ or a (not b) = r := by
    simpa [conditionals?] using h
  refine (containsBelow_iff rfl).mpr (.conditionals ?_ rfl rfl ?_)
  · rcases hψ with rfl | rfl <;> simp [operator?]
  · rcases hψ with rfl | rfl
    · exact .inl (contains_of_equivalent (equivalent_refl _))
    · exact .inr (contains_of_equivalent (equivalent_refl _))

/-- A disjunction and a conjunction do not say the same by their shape. -/
theorem not_equivalent_or_and (a b c d : Formula) : (or a b).equivalent (and c d) = false := by
  rw [equivalent]
  simp [align, decompose]

/-- No disjunction is found below a negated biconditional. -/
theorem not_containsBelow_or (a b c d : Formula) :
    (not (iff a b)).containsBelow (or c d) ≠ true := by
  intro hbelow
  cases (containsBelow_iff rfl).mp hbelow with
  | left h hl =>
    obtain ⟨-, rfl, rfl⟩ := Decomposition.split.inj h
    simp [not_equivalent_or_and] at hl
  | right h hr =>
    obtain ⟨-, rfl, rfl⟩ := Decomposition.split.inj h
    simp [not_equivalent_or_and] at hr
  | inLeft h hop =>
    obtain ⟨-, rfl, rfl⟩ := Decomposition.split.inj h
    simp [operator?] at hop
  | inRight h hop =>
    obtain ⟨-, rfl, rfl⟩ := Decomposition.split.inj h
    simp [operator?] at hop
  | parts hop => simp [operator?] at hop
  | conditionals _ hiff => simp [operator?] at hiff
  | cases _ hiff => simp [operator?] at hiff

/-- A negated biconditional contains one of its conditionals only if the two say the same. -/
theorem contains_conditional_iff (hiff : φ.operator? ≠ some .iff)
    (h : φ.conditionals? = some (l, r)) (hψ : ψ = l ∨ ψ = r) :
    φ.contains ψ = true ↔ φ.equivalent ψ = true := by
  obtain ⟨a, b, rfl, hl, hr⟩ : ∃ a b, φ = not (iff a b) ∧ l = or a b ∧ r = or (not a) (not b) := by
    fun_cases conditionals? φ <;> simp_all [conditionals?, operator?]
  obtain ⟨c, d, rfl⟩ : ∃ c d, ψ = or c d := by
    rcases hψ with hψ | hψ
    · exact ⟨a, b, hψ.trans hl⟩
    · exact ⟨not a, not b, hψ.trans hr⟩
  rw [contains_iff, equivalent_comm]
  exact or_iff_left (not_containsBelow_or a b c d)

end Formula

namespace Tree

variable {t : Tree} {c p : Nat} {l r : Formula}

/-- A biconditional is taken apart in place into its conditionals. -/
theorem needsBranch_conditional {φ ψ : Formula} (hiff : φ.operator? = some .iff)
    (h : φ.conditionals? = some (l, r)) (hψ : ψ = l ∨ ψ = r) : needsBranch φ ψ = false := by
  have hjunction : φ.decompose.junction? = some .iff := by
    cases φ <;> simp_all [Formula.operator?, Formula.decompose, Decomposition.junction?]
  have hcontains : (Formula.and l r).contains ψ = true := by
    rw [Formula.contains_iff, Formula.containsBelow_iff (by rfl)]
    rcases hψ with rfl | rfl
    · exact .inr (.left rfl (Formula.equivalent_refl ψ))
    · exact .inr (.right rfl (Formula.equivalent_refl ψ))
  simp [needsBranch, hjunction, h, hcontains]

/-- A biconditional warrants its two conditionals; any other formula that has them warrants one only
if it is equivalent to it. -/
theorem warrants_conditional_iff (h : (t.line p).formula.conditionals? = some (l, r))
    (hc : (t.line c).formula = l ∨ (t.line c).formula = r) :
    t.Warrants p c ↔ (t.line p).formula.operator? = some .iff ∨
      (t.line p).formula.equivalent (t.line c).formula = true := by
  by_cases hiff : (t.line p).formula.operator? = some .iff
  · have hcontains := Formula.contains_of_below (Formula.containsBelow_of_conditionals hiff h hc)
    simp [Warrants, hiff, hcontains, needsBranch_conditional hiff h hc]
  · have hcontains := Formula.contains_conditional_iff hiff h hc
    simp only [Warrants, hcontains, hiff, false_or]
    exact or_iff_left_of_imp And.left

/-- What the rule says of a line with a conditional of a biconditional, or of a negated one, that is
displayed behind it. -/
theorem checkJustify_conditional (hpremise : t.support c ≠ .premise)
    (hbehind : t.lineNumber p < t.lineNumber c)
    (h : (t.line p).formula.conditionals? = some (l, r))
    (hc : (t.line c).formula = l ∨ (t.line c).formula = r) :
    t.checkJustify c p =
      if (t.line p).formula.operator? = some .iff ∨
          (t.line p).formula.equivalent (t.line c).formula = true then .ok ()
      else .error (.doesNotDecompose (t.lineNumber c) (t.lineNumber p)) := by
  split_ifs with haccepted
  · exact checkJustify_ok_iff.mpr ⟨hpremise, hbehind, (warrants_conditional_iff h hc).mpr haccepted⟩
  · obtain ⟨hiff, hequivalent⟩ := not_or.mp haccepted
    have hcontains := mt (Formula.contains_conditional_iff hiff h hc).mp hequivalent
    have hpremise' : (t.line c).justification ≠ .premise := hpremise
    simp [checkJustify, hpremise', Nat.not_le.mpr hbehind, hequivalent, hcontains]

end Tree

namespace Session

variable {config : Config} {s : Session} {child parent c p : Nat}

/-- Of lines that there are, only the rule decides whether one may rest on the other. -/
theorem run_justify (hs : s.sheet.Coherent) (hchild : s.tree.lines.withNumber? child = some c)
    (hparent : s.tree.lines.withNumber? parent = some p) : (s.run (.justify child parent)).2 =
      ((s.tree.checkJustify c p).mapError .violation).map (fun _ => .done) := by
  have hordered := hs.tree.store.holding.ordered
  have hlink : s.tree.link p c = .ok (((s.tree.sever c).hook p c).revalidate c) :=
    Tree.link_ok_iff.mpr ⟨isLive_of_withNumber? hordered hparent,
      isLive_of_withNumber? hordered hchild, rfl⟩
  simp only [run, justify_eq_settle, justified, justifiable, lineWithNumber_ok_iff.mpr hchild,
    lineWithNumber_ok_iff.mpr hparent, Bind.bind, Except.bind]
  cases s.tree.checkJustify c p with
  | error violation => rfl
  | ok =>
    simp only [Except.mapError, pure, Except.pure, hlink]
    rfl

/-- A line with one of the conditionals of a biconditional may rest on it, in whatever node it is. A
line with one of the conditionals of a negated biconditional may not, unless it says the same by its
shape. -/
theorem run_justify_conditional (hs : Reachable config s) {l r : Formula}
    (hchild : s.tree.lines.withNumber? child = some c)
    (hparent : s.tree.lines.withNumber? parent = some p)
    (hpremise : s.tree.support c ≠ .premise) (hbehind : parent < child)
    (hconditionals : (s.tree.line p).formula.conditionals? = some (l, r))
    (hpart : (s.tree.line c).formula = l ∨ (s.tree.line c).formula = r) :
    (s.run (.justify child parent)).2 =
      if (s.tree.line p).formula.operator? = some .iff ∨
          (s.tree.line p).formula.equivalent (s.tree.line c).formula = true then .ok .done
      else .error (.violation (.doesNotDecompose child parent)) := by
  obtain ⟨-, past, future, htimeline⟩ := hs.timeline
  have hsheet := htimeline.coherent
  have hordered := hsheet.tree.store.holding.ordered
  have hc : s.tree.lineNumber c = child := number_of_withNumber? hordered hchild
  have hp : s.tree.lineNumber p = parent := number_of_withNumber? hordered hparent
  have hcheck := Tree.checkJustify_conditional hpremise (by rw [hc, hp]; exact hbehind)
    hconditionals hpart
  rw [run_justify hsheet hchild hparent, hcheck, hc, hp]
  split_ifs <;> rfl

/-- On a branch grown from another premise, a biconditional between compound formulas is taken apart
in place. -/
theorem run_justify_conditional_on_branch :
    let s := (start {}).runAll
      [.addPremise "iff(and(a,b),or(c,not(d)))", .addPremise "or(e,f)", .branch 2, .goTo 3,
        .addLine "or(not(and(a,b)),or(c,not(d)))", .addLine "or(and(a,b),not(or(c,not(d))))"]
    (s.tree.line 2).node = 2 ∧ (s.run (.justify 3 1)).2 = .ok .done ∧
      (s.run (.justify 4 1)).2 = .ok .done := by
  intro s
  have hs : Reachable {} s := reachable_iff_exists_runAll.mpr ⟨_, rfl⟩
  have hiff : (s.tree.line 0).formula.operator? = some .iff ∧
      (s.tree.line 0).formula.conditionals? =
        some ((s.tree.line 2).formula, (s.tree.line 3).formula) := by decide +kernel
  have hnumbers : s.tree.lines.withNumber? 1 = some 0 ∧ s.tree.lines.withNumber? 3 = some 2 ∧
      s.tree.lines.withNumber? 4 = some 3 := by decide +kernel
  have hlines : (s.tree.line 2).node = 2 ∧ s.tree.support 2 ≠ .premise ∧
      s.tree.support 3 ≠ .premise := by decide +kernel
  refine ⟨hlines.1, ?_, ?_⟩
  · rw [run_justify_conditional hs hnumbers.2.1 hnumbers.1 hlines.2.1 (by decide) hiff.2 (.inl rfl),
      if_pos (.inl hiff.1)]
  · rw [run_justify_conditional hs hnumbers.2.2 hnumbers.1 hlines.2.2 (by decide) hiff.2 (.inr rfl),
      if_pos (.inl hiff.1)]

/-- A session refuses to let a line rest on a premise, although the line has one of the two
conditionals of the premise. -/
def RefusesConditional (whole part : String) : Prop :=
  let s := (start {}).runAll [.addPremise whole, .addLine part]
  (s.tree.line 0).formula.conditionals?.any
      (fun c => (s.tree.line 1).formula = c.1 ∨ (s.tree.line 1).formula = c.2) = true ∧
    s.tree.support 1 ≠ .premise ∧
    (s.run (.justify 2 1)).2 = .error (.violation (.doesNotDecompose 2 1))

theorem refusesConditional_negated :
    RefusesConditional "not(iff(a,b))" "or(a,b)" ∧
      RefusesConditional "not(iff(a,b))" "or(not(a),not(b))" ∧
      RefusesConditional "not(iff(and(a,b),or(c,d)))" "or(and(a,b),or(c,d))" := by
  refine ⟨⟨?_, ?_, ?_⟩, ⟨?_, ?_, ?_⟩, ⟨?_, ?_, ?_⟩⟩ <;> decide +kernel

end Session

end TruthTrees
