import TruthTrees.Proofs.Session.Timeline

/-! Refused commands. Some commands work in stages, and what was done before a refusal stays done:
branches are deleted one after the other, and undo takes the newest step out before its edit is
taken back. No session that can come about gets into such a refusal, so whenever a command is
refused the session is as it was before. -/
namespace TruthTrees.Session

variable {s : Session} {past future : List Sheet}

/-- Undo is only refused when there is nothing to undo. -/
theorem Timeline.run_undo_of_refused (h : Timeline s past future) {e : Refusal}
    (herror : (s.run .undo).2 = .error e) : (s.run .undo).1 = s := by
  cases past with
  | nil => exact h.run_undo_nil
  | cons p past =>
    obtain ⟨hok, -, -, -⟩ := h.undo
    rw [show s.undo.2 = .error e from herror] at hok
    simp [Except.isOk, Except.toBool] at hok

/-- Redo is only refused when there is nothing to make again. -/
theorem Timeline.run_redo_of_refused (h : Timeline s past future) {e : Refusal}
    (herror : (s.run .redo).2 = .error e) : (s.run .redo).1 = s := by
  cases future with
  | nil => exact h.run_redo_nil
  | cons q future =>
    obtain ⟨hok, -, -, -⟩ := h.redo
    rw [show s.redo.2 = .error e from herror] at hok
    simp [Except.isOk, Except.toBool] at hok

/-- A refused command leaves a session as it was that goes back and forth along its trees. -/
theorem Timeline.run_of_refused (h : Timeline s past future) (c : Command) {e : Refusal}
    (herror : (s.run c).2 = .error e) : (s.run c).1 = s := by
  cases hc : c.records with
  | true => exact run_error h.coherent hc (Prod.ext rfl herror)
  | false =>
    cases c with
    | undo => exact h.run_undo_of_refused herror
    | redo => exact h.run_redo_of_refused herror
    | reset => simp [Session.run] at herror
    | checkAllClosed => exact run_checkAllClosed s
    | checkAnyOpen => exact run_checkAnyOpen s
    | _ => simp [Command.records] at hc

/-- Commands are carried out as a whole or not at all: however a session came about, a command that
is refused leaves the tree with its deleted lines and nodes, the current node and both sides of the
history as they were. -/
theorem run_unchanged_of_refused {config : Config} (hs : Reachable config s) (c : Command)
    {e : Refusal} (herror : (s.run c).2 = .error e) : (s.run c).1 = s := by
  obtain ⟨-, past, future, htimeline⟩ := hs.timeline
  exact htimeline.run_of_refused c herror

/-- One of the branches below the root has children of its own, so that neither is deleted, and the
line that was branched on stays as well. The history has forgotten its oldest steps, and one step is
undone. -/
theorem run_unchanged_of_refused_deleteBranch :
    let s := (start ⟨some 5, true⟩).runAll [.addPremise "or(a,b)", .addPremise "or(c,d)", .branch 1,
      .goTo 3, .branch 2, .goTo 1, .addLine "a", .undo]
    (s.run .deleteBranch).2 = .error (.notLeaves 1) ∧ (s.run .deleteBranch).1 = s ∧
      (s.run (.deleteLine 1)).2 = .error (.hasBranches 1 [2, 3]) ∧
      (s.run (.deleteLine 1)).1 = s ∧
      s.history.applied.length = 4 ∧ s.history.undone.length = 1 := by
  intro s
  have hs : Reachable ⟨some 5, true⟩ s := reachable_iff_exists_runAll.mpr ⟨_, rfl⟩
  have hbranch : (s.run .deleteBranch).2 = .error (.notLeaves 1) := by decide +kernel
  have hline : (s.run (.deleteLine 1)).2 = .error (.hasBranches 1 [2, 3]) := by decide +kernel
  exact ⟨hbranch, run_unchanged_of_refused hs _ hbranch, hline,
    run_unchanged_of_refused hs _ hline, by decide +kernel⟩

end TruthTrees.Session
