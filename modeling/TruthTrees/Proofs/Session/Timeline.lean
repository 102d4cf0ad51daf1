import TruthTrees.Proofs.Session.Commands

/-! The timeline of a session: the sheets that the applied steps of its history lead back to, and
the sheets that the undone ones lead forth to. Every command keeps a timeline, so every session that
can come about has one, and neither undo nor redo is ever refused for another reason than that the
history ends. -/
namespace TruthTrees

/-- The sheets that applied steps came from, the newest first. -/
inductive Behind : Sheet → List Step → List Sheet → Prop
  | nil {s : Sheet} : Behind s [] []
  | cons {s p : Sheet} {step : Step} {steps : List Step} {past : List Sheet}
    (coherent : p.Coherent) (leads : step.edit.Leads p s) (rest : Behind p steps past) :
    Behind s (step :: steps) (p :: past)

/-- The sheets that undone steps go to, the nearest first. -/
inductive Ahead : Sheet → List Step → List Sheet → Prop
  | nil {s : Sheet} : Ahead s [] []
  | cons {s q : Sheet} {step : Step} {steps : List Step} {future : List Sheet}
    (coherent : q.Coherent) (leads : step.edit.Leads s q) (rest : Ahead q steps future) :
    Ahead s (step :: steps) (q :: future)

/-- Remnants can be added to a whole history at once. -/
theorem Behind.extend {s : Sheet} {steps : List Step} {past : List Sheet}
    (h : Behind s steps past) (hs : s.Coherent) {r : Tree.Remnants} (hr : s.tree.Fits r) :
    Behind (s.extend r) steps (past.map (fun p => p.extend r)) := by
  induction h with
  | nil => exact .nil
  | cons coherent leads _ ih =>
    have hr' := hr.congr leads.size_nodes.symm
    exact .cons (coherent.extend hr') (leads.extend coherent hs hr') (ih coherent hr')

/-- What fits a sheet fits the sheets before it. -/
theorem Behind.fits {s p : Sheet} {steps : List Step} {past : List Sheet}
    (h : Behind s steps past) {r : Tree.Remnants} (hr : s.tree.Fits r) (hp : p ∈ past) :
    p.tree.Fits r := by
  induction h with
  | nil => simp at hp
  | cons _ leads _ ih =>
    have hr' := hr.congr leads.size_nodes.symm
    rcases List.mem_cons.mp hp with rfl | hp
    · exact hr'
    · exact ih hr' hp

theorem Behind.take {s : Sheet} {steps : List Step} {past : List Sheet} (h : Behind s steps past)
    (k : Nat) : Behind s (steps.take k) (past.take k) := by
  induction h generalizing k with
  | nil => simpa using Behind.nil
  | cons coherent leads _ ih =>
    cases k with
    | zero => exact .nil
    | succ k => exact .cons coherent leads (ih k)

/-- A history that is cut short is a history. -/
theorem Behind.keep {s : Sheet} {steps : List Step} {past : List Sheet} (h : Behind s steps past)
    (limit : Option Nat) : Behind s (History.keep limit steps) (History.keep limit past) := by
  cases limit with
  | none => exact h
  | some k => exact h.take k

theorem Behind.coherent {s p : Sheet} {steps : List Step} {past : List Sheet}
    (h : Behind s steps past) (hp : p ∈ past) : p.Coherent := by
  induction h with
  | nil => simp at hp
  | cons coherent _ _ ih =>
    rcases List.mem_cons.mp hp with rfl | hp
    · exact coherent
    · exact ih hp

/-- What is newer than the limit is kept. -/
theorem History.getElem?_keep {α : Type} {limit : Option Nat} {j : Nat}
    (h : ∀ k, limit = some k → j < k) (newestFirst : List α) :
    (keep limit newestFirst)[j]? = newestFirst[j]? := by
  cases limit with
  | none => rfl
  | some k => exact List.getElem?_take_of_lt (h k rfl)

namespace Session

/-- The sheets before and after the one that is worked on. -/
structure Timeline (s : Session) (past future : List Sheet) : Prop where
  coherent : s.sheet.Coherent
  behind : Behind s.sheet s.history.applied past
  ahead : Ahead s.sheet s.history.undone future
  limit : s.history.limit = s.config.historyLimit

variable {s s' : Session} {past future : List Sheet}

/-- At the start there is nothing before and nothing ahead. -/
theorem timeline_start (config : Config) : Timeline (start config) [] [] :=
  ⟨⟨Tree.coherent_empty, rfl, Tree.forked_empty, Tree.warranted_empty⟩, .nil, .nil, rfl⟩

/-- Undoing goes back to the sheet before and puts the present one ahead. -/
theorem Timeline.undo {p : Sheet} (h : Timeline s (p :: past) future) :
    s.undo.2.isOk = true ∧ s.undo.1.sheet = p ∧ s.undo.1.config = s.config ∧
      Timeline s.undo.1 past (s.sheet :: future) := by
  obtain ⟨hs, hbehind, hahead, hlimit⟩ := h
  obtain ⟨sheet, ⟨applied, undone, limit⟩, config⟩ := s
  cases hbehind with
  | cons coherent leads rest =>
    have hback := leads.inverse_apply_eq coherent hs
    simp only [Session.undo, History.takeApplied?, hback, History.pushUndone, Except.isOk,
      Except.toBool, true_and]
    exact ⟨coherent, rest, .cons hs leads hahead, hlimit⟩

/-- Redoing goes on to the sheet ahead and puts the present one behind. -/
theorem Timeline.redo {q : Sheet} (h : Timeline s past (q :: future)) :
    s.redo.2.isOk = true ∧ s.redo.1.sheet = q ∧ s.redo.1.config = s.config ∧
      Timeline s.redo.1 (History.keep s.config.historyLimit (s.sheet :: past)) future := by
  obtain ⟨hs, hbehind, hahead, hlimit⟩ := h
  obtain ⟨sheet, ⟨applied, undone, limit⟩, config⟩ := s
  cases hahead with
  | cons coherent leads rest =>
    have hforth := leads.apply_eq hs coherent
    simp only [Session.redo, History.takeUndone?, hforth, History.pushApplied, Except.isOk,
      Except.toBool, true_and]
    obtain rfl : limit = config.historyLimit := hlimit
    exact ⟨coherent, (Behind.cons hs leads hbehind).keep _, rest, rfl⟩

theorem Timeline.run_undo_nil (h : Timeline s [] future) : (s.run .undo).1 = s := by
  obtain ⟨-, hbehind, -, -⟩ := h
  obtain ⟨sheet, ⟨applied, undone, limit⟩, config⟩ := s
  cases hbehind
  rfl

theorem Timeline.run_redo_nil (h : Timeline s past []) : (s.run .redo).1 = s := by
  obtain ⟨-, -, hahead, -⟩ := h
  obtain ⟨sheet, ⟨applied, undone, limit⟩, config⟩ := s
  cases hahead
  rfl

/-- A recorded edit has the sheet before it, and all older ones, with remnants in its past. -/
theorem Timeline.advance (h : Timeline s past future) (ha : s.Advances s') :
    s'.config = s.config ∧ ∃ r : Tree.Remnants, s.tree.Fits r ∧
      Timeline s' (History.keep s.config.historyLimit
        (s.sheet.extend r :: past.map (fun p => p.extend r))) [] := by
  cases ha with
  | @intro sheet edit description r fits coherent leads =>
    refine ⟨rfl, r, fits, coherent, ?_, .nil, h.limit⟩
    rw [← h.limit]
    exact (Behind.cons (h.coherent.extend fits) leads (h.behind.extend h.coherent fits)).keep
      s.history.limit

/-- Every command keeps a timeline. -/
theorem Timeline.run (h : Timeline s past future) (c : Command) :
    (s.run c).1.config = s.config ∧ ∃ past' future', Timeline (s.run c).1 past' future' := by
  cases hc : c.records with
  | true =>
    rcases hrun : s.run c with ⟨s', reply | e⟩
    · obtain rfl := run_error h.coherent hc hrun
      exact ⟨rfl, past, future, h⟩
    · obtain ⟨hconfig, r, -, ht⟩ := h.advance (run_advances h.coherent hc hrun)
      exact ⟨hconfig, _, _, ht⟩
  | false =>
    cases c with
    | undo =>
      cases past with
      | nil => exact ⟨by rw [h.run_undo_nil], [], future, by rwa [h.run_undo_nil]⟩
      | cons p past =>
        obtain ⟨-, -, hconfig, ht⟩ := h.undo
        exact ⟨hconfig, _, _, ht⟩
    | redo =>
      cases future with
      | nil => exact ⟨by rw [h.run_redo_nil], past, [], by rwa [h.run_redo_nil]⟩
      | cons q future =>
        obtain ⟨-, -, hconfig, ht⟩ := h.redo
        exact ⟨hconfig, _, _, ht⟩
    | reset => exact ⟨rfl, [], [], timeline_start s.config⟩
    | checkAllClosed =>
      exact ⟨by rw [run_checkAllClosed], past, future, by rwa [run_checkAllClosed]⟩
    | checkAnyOpen => exact ⟨by rw [run_checkAnyOpen], past, future, by rwa [run_checkAnyOpen]⟩
    | _ => simp [Command.records] at hc

/-- Every session that can be reached has a past and a future of coherent sheets. -/
theorem Reachable.timeline {config : Config} (h : Reachable config s) :
    s.config = config ∧ ∃ past future, Timeline s past future := by
  induction h with
  | start => exact ⟨rfl, [], [], timeline_start config⟩
  | run _ c ih =>
    obtain ⟨hconfig, past, future, ht⟩ := ih
    obtain ⟨hconfig', ht'⟩ := ht.run c
    exact ⟨hconfig'.trans hconfig, ht'⟩

end Session

end TruthTrees
