import TruthTrees.Proofs.Session.Contradictions
import TruthTrees.Proofs.Tree.OpenBranches

/-! What it means that a branch of a session can be marked open. The premises can be true together
when the branch is exhausted and cannot be closed. The check does not see whether it is exhausted,
and then the premises can be inconsistent. -/
namespace TruthTrees

namespace Tree

variable {t u : Tree}

namespace PremisesInRoot

/-- Premises stay in the root when no new ones appear elsewhere. -/
theorem transfer (h : t.PremisesInRoot) (hline : ∀ i, u.lines.isLive i = true →
    u.support i = .premise → t.lines.isLive i = true ∧ t.support i = .premise ∧
      (u.line i).node = (t.line i).node) : u.PremisesInRoot := by
  intro i hi hs
  obtain ⟨hlive, hpremise, hnode⟩ := hline i hi hs
  exact hnode.trans (h i hlive hpremise)

theorem preserves (h : t.PremisesInRoot) (hp : Preserves t u)
    (hlive : ∀ i, u.lines.isLive i = true → t.lines.isLive i = true) : u.PremisesInRoot := by
  apply h.transfer
  intro i hi hs
  obtain ⟨-, branches, marked, parentMarked, hline⟩ := hp.line i (hlive i hi)
  rw [support, hline] at hs
  exact ⟨hlive i hi, hs, by rw [hline]⟩

theorem shed (h : t.PremisesInRoot) {gone : List Nat} (hshed : Shed t u gone) :
    u.PremisesInRoot := by
  apply h.transfer
  intro i hi hs
  exact ⟨((hshed.isLive i).mp hi).2, (hshed.premise i hi).mp hs, hshed.node i⟩

/-- A new line may be a premise if it stands in the root. -/
theorem insert (h : t.PremisesInRoot) (k : Nat) (l : Line) (m : Nat) (g : List Nat → List Nat)
    (hl : l.justification = .premise → l.node = root) : PremisesInRoot
      (({ t with lines := t.lines.insert k l } : Tree).modifyNode m
        (fun nd => { nd with lines := g nd.lines })) := by
  intro i hi hs
  rw [lines_modifyNode, Register.isLive_insert] at hi
  rw [support, line_modifyNode, line_insert] at hs
  rw [line_modifyNode, line_insert]
  by_cases hnew : i = t.lines.size
  · rw [if_pos hnew] at hs ⊢
    exact hl hs
  · rw [if_neg hnew] at hs ⊢
    exact h i (hi.resolve_left hnew) hs

end PremisesInRoot

/-- A node that has no contradiction in its ancestry cannot be closed. -/
theorem checkClose_of_not_contradicted {n : Nat} (h : ¬ t.Contradicted n) (i j : Nat) :
    (t.checkClose n i j).isOk = false := by
  rw [Bool.eq_false_iff]
  exact fun hok => h ⟨i, j, isOk_checkClose_iff_clash.mp hok⟩

end Tree

namespace Session

/-- Every command keeps the premises in the root. -/
theorem kept_premisesInRoot : Kept (fun _ _ => false) Tree.PremisesInRoot := by
  constructor
  case empty =>
    intro i hi
    exact absurd hi (by simp [Tree.empty, Register.empty, Register.isLive])
  case extend =>
    intro p r _ hr h
    exact h.preserves (Tree.Preserves.extend hr) (fun i hi => (hr.isLive_line i).symm.trans hi)
  case change =>
    intro s c u n hs _ hchange _ h
    have ht : s.tree.Coherent := hs.tree
    cases hchange with
    | addPremise φ => exact h.insert _ _ _ _ (fun _ => rfl)
    | addLine φ =>
      rw [Tree.withNewLine_eq]
      exact h.insert _ _ _ (fun ids => ids ++ [s.tree.lines.size]) (fun hl => by simp at hl)
    | deleteLine _ hlive _ => exact h.shed (Tree.Shed.withoutLine ht.linked hlive)
    | @justify child parent c p _ _ hsupport hbefore =>
      have hw := ht.linked.rewired_relink hbefore hsupport
      apply h.transfer
      intro i hi hpremise
      rw [hw.support] at hpremise
      split at hpremise
      · simp at hpremise
      · exact ⟨(hw.relinked.isLive i).symm.trans hi, hpremise, hw.relinked.node i⟩
    | @checkmark number i hlive _ =>
      have hr := (Tree.Relinked.refl s.tree).setCheckmarked i true
      exact h.preserves (Tree.Preserves.setCheckmarked ht.linked hlive true)
        (fun j hj => (hr.isLive j).symm.trans hj)
    | branch =>
      exact h.preserves (Tree.Preserves.withFork _ _ _)
        (fun i hi => (Register.isLive_modify _ _ _ _).symm.trans hi)
    | deleteBranch hdelete => exact h.shed (Tree.Shed.deleteBranch ht hdelete)
    | goTo => exact h
    | close | reopen | markOpen =>
      exact h.preserves (Tree.Preserves.modifyNode _ _ (fun _ => rfl)) (fun _ hi => hi)

/-- When the branch that ends in the current node can be marked open, cannot be closed and is
exhausted, some valuation makes all premises true. -/
theorem satisfiable_of_markOpen {config : Config} {s : Session} (hs : Reachable config s)
    (hok : (s.run .markOpen).2.isOk = true)
    (hno : ∀ i j, (s.tree.checkClose s.current i j).isOk = false)
    (he : s.tree.Exhausted s.current) : Formula.Satisfiable s.tree.premises := by
  obtain ⟨-, past, future, ht⟩ := hs.timeline
  have hsheet := ht.coherent
  obtain ⟨hn, hopen⟩ : s.tree.nodes.isLive s.current = true ∧
      s.tree.checkOpen s.current = .ok () := by
    rcases hrun : s.run .markOpen with ⟨s', e | reply⟩
    · rw [hrun] at hok
      simp [Except.isOk, Except.toBool] at hok
    · obtain ⟨t, hmark, -⟩ := markOpen_ok_iff.mp (settle_ok_iff.mp hrun)
      obtain ⟨hn, -, hopen, -⟩ := Tree.markOpen_ok_iff.mp hmark
      exact ⟨hn, hopen⟩
  have htrue := he.trueAbove hsheet.tree hsheet.forked hsheet.warranted hn hopen hno
  exact (kept_premisesInRoot.holds_of_reachable hs).satisfiable hsheet.tree hn htrue

/-- A double negation is taken apart, its body is checkmarked, and a biconditional is split into its
cases, one of which ends the branch. -/
theorem satisfiable_of_markOpen_biconditional :
    let s := (start {}).runAll
      [.addPremise "not(not(and(a,b)))", .addPremise "iff(a,c)", .addLine "and(a,b)", .justify 3 1,
        .addLine "a", .justify 4 3, .addLine "b", .justify 5 3, .checkmark 3, .branch 2, .goTo 2,
        .addLine "a", .justify 6 2, .addLine "c", .justify 7 2]
    (s.run .markOpen).2.isOk = true ∧ (∀ i j, (s.tree.checkClose s.current i j).isOk = false) ∧
      s.tree.Exhausted s.current ∧ Formula.Satisfiable s.tree.premises := by
  intro s
  have hs : Reachable {} s := reachable_iff_exists_runAll.mpr ⟨_, rfl⟩
  have hok : (s.run .markOpen).2.isOk = true := by decide +kernel
  have hno := Tree.checkClose_of_not_contradicted (t := s.tree) (n := s.current) (by decide +kernel)
  have he : s.tree.Exhausted s.current := by
    refine ⟨by decide +kernel, by decide +kernel, by decide +kernel, ?_⟩
    have hline : ∀ i ∈ s.tree.lines.order, (s.tree.line i).formula.loose = true →
        (s.tree.line i).formula = .iff (.literal "a") (.literal "c") ∧
          Formula.conjunction? (s.tree.childFormulas i (s.tree.path s.current)) =
            some (.and (.literal "a") (.literal "c")) := by
      decide +kernel
    intro i hi _ _ _ hloose φ hφ v hv
    obtain ⟨hformula, hfound⟩ := hline i hi hloose
    obtain rfl := Option.some.inj (hφ.symm.trans hfound)
    rw [hformula]
    simp only [Formula.eval, Bool.and_eq_true] at hv ⊢
    simp [hv.1, hv.2]
  exact ⟨hok, hno, he, satisfiable_of_markOpen hs hok hno he⟩

/-- After some commands of a new session a branch can be marked open and cannot be closed, and yet
the premises cannot be true together. -/
def OpensUnsatisfiable (cs : List Command) : Prop :=
  let s := (start {}).runAll cs
  (s.run .markOpen).2.isOk = true ∧ (∀ i j, (s.tree.checkClose s.current i j).isOk = false) ∧
    ¬ Formula.Satisfiable s.tree.premises

theorem opensUnsatisfiable_of_premises {cs : List Command} (premises : List Formula)
    (opens : (((start {}).runAll cs).run .markOpen).2.isOk = true)
    (uncontradicted :
      ¬ ((start {}).runAll cs).tree.Contradicted ((start {}).runAll cs).current)
    (same : ((start {}).runAll cs).tree.premises = premises)
    (contradictory : ∀ v : Valuation, premises.all (fun φ => φ.eval v) = false) :
    OpensUnsatisfiable cs := by
  refine ⟨opens, Tree.checkClose_of_not_contradicted uncontradicted, ?_⟩
  rintro ⟨v, hv⟩
  rw [same] at hv
  have htrue := List.all_eq_true.mpr hv
  rw [contradictory v] at htrue
  simp at htrue

/-- Without one of the conditions an open branch describes nothing. In the first of these sessions
the branch ends below a closed node, one of whose contradictory lines was deleted; in the second one
a checkmark was earned by a closed node that is open again; in the third one a double negation is
not taken apart; in the last two a negated conjunction and a biconditional are answered by half of
one of their cases. -/
theorem opensUnsatisfiable_unexhausted :
    OpensUnsatisfiable [.addPremise "and(b,not(b))", .addPremise "or(c,d)", .addPremise "a",
      .addPremise "not(a)", .branch 2, .close 3 4, .checkmark 1, .deleteLine 4, .goTo 2,
      .addLine "c", .justify 4 2] ∧
    OpensUnsatisfiable [.addPremise "and(b,not(b))", .addPremise "a", .addPremise "not(a)",
      .close 2 3, .checkmark 1, .reopen 1, .deleteLine 3] ∧
    OpensUnsatisfiable [.addPremise "not(not(and(a,not(a))))"] ∧
    OpensUnsatisfiable [.addPremise "not(and(or(c,d),b))", .addPremise "d", .addPremise "b",
      .branch 1, .goTo 2, .addLine "not(c)", .justify 4 1] ∧
    OpensUnsatisfiable [.addPremise "iff(a,b)", .addPremise "b", .addPremise "not(a)", .branch 1,
      .goTo 2, .addLine "not(a)", .justify 4 1] := by
  refine ⟨?_, ?_, ?_, ?_, ?_⟩
  · apply opensUnsatisfiable_of_premises
      [.and (.literal "b") (.not (.literal "b")), .or (.literal "c") (.literal "d"), .literal "a"]
    case contradictory => exact fun v => by cases hb : v "b" <;> simp [Formula.eval, hb]
    all_goals decide +kernel
  · apply opensUnsatisfiable_of_premises
      [.and (.literal "b") (.not (.literal "b")), .literal "a"]
    case contradictory => exact fun v => by cases hb : v "b" <;> simp [Formula.eval, hb]
    all_goals decide +kernel
  · apply opensUnsatisfiable_of_premises
      [.not (.not (.and (.literal "a") (.not (.literal "a"))))]
    case contradictory => exact fun v => by cases ha : v "a" <;> simp [Formula.eval, ha]
    all_goals decide +kernel
  · apply opensUnsatisfiable_of_premises
      [.not (.and (.or (.literal "c") (.literal "d")) (.literal "b")), .literal "d", .literal "b"]
    case contradictory =>
      exact fun v => by cases hb : v "b" <;> cases hd : v "d" <;> simp [Formula.eval, hb, hd]
    all_goals decide +kernel
  · apply opensUnsatisfiable_of_premises
      [.iff (.literal "a") (.literal "b"), .literal "b", .not (.literal "a")]
    case contradictory =>
      exact fun v => by cases ha : v "a" <;> cases hb : v "b" <;> simp [Formula.eval, ha, hb]
    all_goals decide +kernel

end Session

end TruthTrees
