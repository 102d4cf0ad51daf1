import TruthTrees.Proofs.Session.Timeline
import TruthTrees.Proofs.Tree.ClosedTrees

/-! What it means that all branches of a session are closed. The premises are inconsistent when the
tree is in order. Commands that come later can bring a closed tree out of order without opening it,
and some commands never bring it into order; then the premises can be true together. -/
namespace TruthTrees.Session

/-- When checkmarks are required, all branches are closed and the tree is in order, the premises
cannot be true together. -/
theorem not_satisfiable_of_checkAllClosed {config : Config} {s : Session}
    (hs : Reachable config s) (hmarks : config.requireCheckmarks = true) (ho : s.tree.InOrder)
    (hok : (s.run .checkAllClosed).2.isOk = true) : ¬ Formula.Satisfiable s.tree.premises := by
  obtain ⟨hconfig, past, future, ht⟩ := hs.timeline
  have hsheet := ht.coherent
  have hclosed : s.tree.unclosed? true (s.tree.shape Tree.root) = none := by
    cases hunclosed : s.tree.unclosed? true (s.tree.shape Tree.root) with
    | none => rfl
    | some violation =>
      simp [run, settle, checkAllClosed, Tree.checkAllClosed, hconfig, hmarks, hunclosed, bind,
        Except.bind, Except.mapError, Except.isOk, Except.toBool] at hok
  exact Tree.not_satisfiable_of_unclosed? hsheet.tree hsheet.forked hsheet.warranted ho hclosed

/-- A disjunction is split into its cases. One contradicts a premise, the other one a line that was
taken out of a negated disjunction. -/
theorem not_satisfiable_of_checkAllClosed_disjunction :
    let s := (start {}).runAll
      [.addPremise "or(a,b)", .addPremise "not(or(a,c))", .addPremise "not(b)",
        .addLine "not(a)", .justify 4 2, .branch 1, .goTo 2, .addLine "a", .justify 5 1,
        .goTo 3, .addLine "b", .justify 6 1, .checkmark 1, .close 6 3, .goTo 2, .close 5 4]
    s.tree.InOrder ∧ (s.run .checkAllClosed).2.isOk = true ∧
      ¬ Formula.Satisfiable s.tree.premises := by
  intro s
  have hs : Reachable {} s := reachable_iff_exists_runAll.mpr ⟨_, rfl⟩
  have hok : (s.run .checkAllClosed).2.isOk = true := by decide +kernel
  have ho : s.tree.InOrder := by
    refine ⟨by decide +kernel, ?_, by decide +kernel, by decide +kernel⟩
    have hline : ∀ c ∈ s.tree.lines.order, ∀ p ∈ (s.tree.support c).parent?,
        (s.tree.line p).formula.operator? = some .not →
        (s.tree.line p).formula = .not (.or (.literal "a") (.literal "c")) ∧
          (s.tree.line c).formula = .not (.literal "a") := by
      decide +kernel
    intro c hc _ p hp hnot _ v hv
    obtain ⟨hpφ, hcφ⟩ := hline c hc p hp hnot
    rw [hpφ] at hv
    rw [hcφ]
    simp only [Formula.eval, Bool.not_eq_true', Bool.or_eq_false_iff] at hv ⊢
    exact hv.1
  exact ⟨ho, hok, not_satisfiable_of_checkAllClosed hs rfl ho hok⟩

/-- After some commands of a new session all branches are closed, and yet the premises can be true
together. -/
def ClosesSatisfiable (cs : List Command) : Prop :=
  (((start {}).runAll cs).run .checkAllClosed).2.isOk = true ∧
    Formula.Satisfiable ((start {}).runAll cs).tree.premises

/-- Without one of the four conditions a closed tree proves nothing. In the first of these sessions
a line is deleted that closed a node; in the second one a line rests on a negation that it does not
follow from; in the third one a line above a fork rests on a line in one of its branches; in the
last one a branch takes over the case of its neighbour after the checkmark. -/
theorem closesSatisfiable_without_order :
    ClosesSatisfiable [.addPremise "a", .addPremise "not(a)", .close 1 2, .deleteLine 2] ∧
    ClosesSatisfiable [.addPremise "not(or(and(c,d),b))", .addPremise "c", .addLine "not(c)",
      .justify 3 1, .close 2 3] ∧
    ClosesSatisfiable [.addPremise "or(a,b)", .addPremise "not(a)", .branch 1, .goTo 2,
      .addLine "a", .justify 3 1, .goTo 3, .addLine "b", .justify 4 1, .checkmark 1, .goTo 1,
      .addLine "a", .justify 5 3, .goTo 2, .close 2 3, .goTo 3, .close 2 5] ∧
    ClosesSatisfiable [.addPremise "or(a,b)", .addPremise "not(a)", .branch 1, .goTo 2,
      .addLine "a", .justify 3 1, .goTo 3, .addLine "b", .justify 4 1, .checkmark 1, .addLine "a",
      .justify 5 1, .goTo 2, .close 2 3, .goTo 3, .close 2 5] := by
  refine ⟨⟨?_, fun name => name == "a", ?_⟩, ⟨?_, fun name => name == "c", ?_⟩,
    ⟨?_, fun name => name == "b", ?_⟩, ?_, fun name => name == "b", ?_⟩
  all_goals decide +kernel

end TruthTrees.Session
