import TruthTrees.Proofs.Session.Refusals
import TruthTrees.Proofs.Session.Snapshots

/-! Lines of a script that fail. Whether a line cannot be read or its command is refused, the
session stays as it was, so a script goes on as if the line were not there. Without all lines that
fail it shows what the other lines showed, and it ends in the same session. -/
namespace TruthTrees

namespace Text

/-- The lines of a script are what its line breaks separate. -/
theorem lines_eq_splitOn (cs : List Char) : lines cs = cs.splitOn '\n' := by
  induction cs with
  | nil => rfl
  | cons c cs ih =>
    rw [List.splitOn_eq_splitOnP] at ih
    rw [lines, List.splitOn_eq_splitOnP, List.splitOnP_cons_eq_if_modifyHead, ← ih]
    by_cases hc : c = '\n'
    · simp [hc]
    · simp only [hc, if_false, beq_iff_eq]
      cases hlines : lines cs with
      | nil => exact absurd (ih.symm.trans hlines) (List.splitOnP_ne_nil _ _)
      | cons piece rest => rfl

theorem newline_notMem_of_mem_lines {cs piece : List Char} (h : piece ∈ lines cs) :
    '\n' ∉ piece := by
  induction cs generalizing piece with
  | nil =>
    rw [lines, List.mem_singleton] at h
    simp [h]
  | cons c cs ih =>
    rw [lines] at h
    split at h
    · rcases List.mem_cons.mp h with rfl | h
      · simp
      · exact ih h
    · rename_i hc
      cases hlines : lines cs with
      | nil =>
        rw [hlines, List.mem_singleton] at h
        simp [h, Ne.symm hc]
      | cons first rest =>
        rw [hlines] at h ih
        rcases List.mem_cons.mp h with rfl | h
        · simp [Ne.symm hc, ih List.mem_cons_self]
        · exact ih (List.mem_cons_of_mem _ h)

end Text

namespace Script

/-- Lines, each with the session in which it is run when they are run one after another. -/
def moments (s : Session) : List (List Char) → List (Session × List Char)
  | [] => []
  | typed :: rest => (s, typed) :: moments (runTyped s typed).1 rest

def fails (moment : Session × List Char) : Bool :=
  isActive (Text.trim moment.2) && !(runLine moment.1 (Text.trim moment.2)).2.isOk

def shown (moment : Session × List Char) : String := (runTyped moment.1 moment.2).2

def course (config : Config) (script : String) : List (Session × List Char) :=
  moments (.start config) (Text.lines script.toList)

def withoutFailures (config : Config) (script : String) : String :=
  String.ofList (['\n'].intercalate (((course config script).filter (!fails ·)).map Prod.snd))

def outcome (config : Config) (script : String) : Session :=
  (runLines (.start config) (Text.lines script.toList)).1

variable {s : Session}

/-- A line that fails is answered by an error and nothing else. -/
theorem shown_of_fails {typed : List Char} (h : fails (s, typed) = true) :
    ∃ e, shown (s, typed) = transcript (Text.trim typed) (.error e) := by
  rw [fails, Bool.and_eq_true] at h
  obtain ⟨hactive, hfailed⟩ := h
  rw [shown, Session.runTyped_of_active s hactive]
  cases houtcome : (runLine s (Text.trim typed)).2 with
  | ok text => simp [houtcome, Except.isOk, Except.toBool] at hfailed
  | error e => exact ⟨e, rfl⟩

end Script

namespace Session

variable {s : Session} {past future : List Sheet}

/-- A line that cannot be read does nothing, and neither does one whose command is refused. -/
theorem Timeline.runLine_of_failed (h : Timeline s past future) {line : List Char}
    (hfailed : (Script.runLine s line).2.isOk = false) : (Script.runLine s line).1 = s := by
  unfold Script.runLine at hfailed ⊢
  cases hparse : Instruction.parse line with
  | error e => rfl
  | ok i =>
    rw [hparse] at hfailed
    cases i with
    | command c =>
      dsimp only at hfailed ⊢
      rw [run_command] at hfailed ⊢
      cases hreply : (s.run c).2 with
      | ok reply => simp [hreply, said, Except.isOk, Except.toBool] at hfailed
      | error e => exact h.run_of_refused c hreply
    | print | history | help => rfl

/-- A typed line that fails changes nothing. -/
theorem Reachable.runTyped_of_fails {config : Config} (hs : Reachable config s) {typed : List Char}
    (h : Script.fails (s, typed) = true) : (Script.runTyped s typed).1 = s := by
  obtain ⟨-, past, future, ht⟩ := hs.timeline
  rw [Script.fails, Bool.and_eq_true, Bool.not_eq_true'] at h
  rw [runTyped_of_active s h.1]
  exact ht.runLine_of_failed h.2

end Session

namespace Script

variable {s : Session}

theorem runLines_cons (s : Session) (line : List Char) (rest : List (List Char)) :
    runLines s (line :: rest) = ((runLines (runTyped s line).1 rest).1,
      shown (s, line) ++ (runLines (runTyped s line).1 rest).2) := rfl

/-- Lines show one after another what each of them shows in its session. -/
theorem runLines_eq_join (s : Session) (typed : List (List Char)) :
    (runLines s typed).2 = String.join ((moments s typed).map shown) := by
  induction typed generalizing s with
  | nil => rfl
  | cons line rest ih =>
    rw [moments, List.map_cons, String.join_cons, ← ih, runLines_cons]

/-- Lines that fail can be left out: the others are run in the same sessions, one after another. -/
theorem runLines_kept {config : Config} (hs : Session.Reachable config s)
    (typed : List (List Char)) :
    runLines s (((moments s typed).filter (!fails ·)).map Prod.snd) =
      ((runLines s typed).1, String.join (((moments s typed).filter (!fails ·)).map shown)) := by
  induction typed generalizing s with
  | nil => rfl
  | cons line rest ih =>
    have hrest := ih (hs.runTyped line)
    rw [runLines_cons, moments]
    by_cases hfail : fails (s, line) = true
    · rw [hs.runTyped_of_fails hfail] at hrest ⊢
      rw [List.filter_cons_of_neg (by simp [hfail])]
      exact hrest
    · rw [List.filter_cons_of_pos (by simp [hfail]), List.map_cons, List.map_cons,
        String.join_cons, runLines_cons, hrest]

/-- An empty text has one line, on which nothing happens, so it runs like no lines at all. -/
theorem runLines_lines_intercalate {typed : List (List Char)}
    (h : ∀ line ∈ typed, '\n' ∉ line) (s : Session) :
    runLines s (Text.lines (['\n'].intercalate typed)) = runLines s typed := by
  cases typed with
  | nil => rfl
  | cons line rest =>
    rw [Text.lines_eq_splitOn, List.splitOn_intercalate _ h (List.cons_ne_nil _ _)]

theorem mem_of_mem_moments {typed : List (List Char)} {moment : Session × List Char}
    (h : moment ∈ moments s typed) : moment.2 ∈ typed := by
  induction typed generalizing s with
  | nil => simp [moments] at h
  | cons line rest ih =>
    rcases List.mem_cons.mp h with rfl | h
    · exact List.mem_cons_self
    · exact List.mem_cons_of_mem _ (ih h)

/-- Without the lines that fail, each of which shows an error and nothing else, a script shows what
the others show in it, and ends in the same session. -/
theorem output_withoutFailures (config : Config) (script : String) :
    output config script = String.join ((course config script).map shown) ∧
      (∀ moment ∈ course config script, fails moment = true →
        ∃ e, shown moment = transcript (Text.trim moment.2) (.error e)) ∧
      output config (withoutFailures config script) =
        String.join (((course config script).filter (!fails ·)).map shown) ∧
      outcome config (withoutFailures config script) = outcome config script := by
  have hpieces : ∀ line ∈ ((course config script).filter (!fails ·)).map Prod.snd,
      '\n' ∉ line := by
    intro line hline
    obtain ⟨moment, hmoment, rfl⟩ := List.mem_map.mp hline
    exact Text.newline_notMem_of_mem_lines (mem_of_mem_moments (List.mem_of_mem_filter hmoment))
  have hrun : runLines (.start config) (Text.lines (withoutFailures config script).toList) =
      (outcome config script,
        String.join (((course config script).filter (!fails ·)).map shown)) := by
    rw [withoutFailures, String.toList_ofList, runLines_lines_intercalate hpieces]
    exact runLines_kept .start _
  refine ⟨runLines_eq_join _ _, fun _ _ hfail => shown_of_fails hfail, ?_, ?_⟩
  · exact congrArg Prod.snd hrun
  · rw [outcome, hrun]

end Script

end TruthTrees
