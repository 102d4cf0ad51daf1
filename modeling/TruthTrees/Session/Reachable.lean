import TruthTrees.Session

/-! The sessions that can come about. -/
namespace TruthTrees.Session

/-- The sessions that are reached from a new one by commands, refused ones included. -/
inductive Reachable (config : Config) : Session → Prop
  | start : Reachable config (start config)
  | run {s : Session} (h : Reachable config s) (c : Command) : Reachable config (s.run c).1

def runAll (s : Session) (cs : List Command) : Session :=
  cs.foldl (fun s c => (s.run c).1) s

/-- Reachable sessions are those that some list of commands leads to. -/
theorem reachable_iff_exists_runAll {config : Config} {s : Session} :
    Reachable config s ↔ ∃ cs, s = (start config).runAll cs := by
  constructor
  · intro h
    induction h with
    | start => exact ⟨[], rfl⟩
    | run _ c ih =>
      obtain ⟨cs, rfl⟩ := ih
      exact ⟨cs ++ [c], by simp [runAll]⟩
  · rintro ⟨cs, rfl⟩
    have step : ∀ s, Reachable config s → Reachable config (s.runAll cs) := by
      induction cs with
      | nil => exact fun _ h => h
      | cons c cs ih => exact fun s h => ih _ (h.run c)
    exact step _ .start

end TruthTrees.Session
