import TruthTrees.Proofs.Session.UndoRedo
import TruthTrees.Proofs.Tree.TwinOutcomes

/-! Sessions with a limit on their history. A limit makes a session forget its oldest steps and
does nothing else: beside a session that forgets nothing and is given the same commands, it shows
the same sheets and gives the same replies, up to the moment when there is nothing left to undo. -/
namespace TruthTrees

namespace History

/-- What is kept of a list is the beginning of a longer one, too. -/
theorem keep_prefix {α : Type} (limit : Option Nat) {l l' : List α} (h : l <+: l') :
    keep limit l <+: l' := by
  cases limit with
  | none => exact h
  | some k => exact (List.take_prefix k l).trans h

theorem length_keep_le {α : Type} (k : Nat) (l : List α) : (keep (some k) l).length ≤ k :=
  List.length_take_le k l

end History

/-- Computations that go on with the same choice. -/
theorem Agree.ite {ε α β : Type} {R : α → β → Prop} {p : Prop} [Decidable p]
    {x x' : Except ε α} {y y' : Except ε β} (h : Agree R x y) (h' : Agree R x' y') :
    Agree R (if p then x else x') (if p then y else y') := by
  split
  · exact h
  · exact h'

namespace Session

def replies (s : Session) : List Command → List (Except Refusal Reply)
  | [] => []
  | c :: cs => (s.run c).2 :: (s.run c).1.replies cs

/-- One session remembers its newest steps, `k` of them at most, where the other one remembers all
steps. In everything else they are the same. -/
structure Forgets (k : Nat) (s u : Session) : Prop where
  sheet : u.sheet = s.sheet
  config : ∃ require, s.config = ⟨some k, require⟩ ∧ u.config = ⟨none, require⟩
  limits : s.history.limit = some k ∧ u.history.limit = none
  undone : u.history.undone = s.history.undone
  applied : s.history.applied <+: u.history.applied
  length : s.history.applied.length ≤ k

variable {k : Nat} {s u : Session}

/-- At the start there is nothing to forget. -/
theorem forgets_start (k : Nat) (require : Bool) :
    Forgets k (start ⟨some k, require⟩) (start ⟨none, require⟩) :=
  ⟨rfl, ⟨require, rfl, rfl⟩, ⟨rfl, rfl⟩, rfl, List.prefix_refl [], Nat.zero_le k⟩

/-- A step that both sessions add to the applied ones. -/
theorem Forgets.pushApplied (h : Forgets k s u) (step : Step) :
    (s.history.pushApplied step).applied <+: (u.history.pushApplied step).applied ∧
      (s.history.pushApplied step).applied.length ≤ k := by
  unfold History.pushApplied
  rw [h.limits.1, h.limits.2]
  have hlonger : step :: s.history.applied <+: step :: u.history.applied :=
    List.cons_prefix_cons.mpr ⟨rfl, h.applied⟩
  exact ⟨History.keep_prefix (some k) hlonger, History.length_keep_le k _⟩

/-- A new step is recorded on both sides, and the limit drops the oldest. -/
theorem Forgets.recorded (h : Forgets k s u) (sheet : Sheet) (edit : Edit)
    (description : String) :
    Forgets k (s.recorded sheet edit description) (u.recorded sheet edit description) := by
  obtain ⟨happlied, hlength⟩ := h.pushApplied ⟨edit, description⟩
  exact ⟨rfl, h.config, h.limits, rfl, happlied, hlength⟩

def SameReply (k : Nat) (a b : Session × Reply) : Prop := Forgets k a.1 b.1 ∧ b.2 = a.2

theorem Forgets.settle (h : Forgets k s u) {x y : Except Refusal (Session × Reply)}
    (hxy : Agree (SameReply k) x y) :
    (u.settle y).2 = (s.settle x).2 ∧ Forgets k (s.settle x).1 (u.settle y).1 := by
  cases hxy with
  | ok hsame => exact ⟨congrArg Except.ok hsame.2, hsame.1⟩
  | error e => exact ⟨rfl, h⟩

/-- A command that is recorded looks at the sheet and at nothing else. -/
theorem Forgets.run_of_records (h : Forgets k s u) {c : Command} (hc : c.records = true) :
    (u.run c).2 = (s.run c).2 ∧ Forgets k (s.run c).1 (u.run c).1 := by
  obtain ⟨sheet, history, config⟩ := s
  obtain ⟨sheet', history', config'⟩ := u
  obtain rfl : sheet' = sheet := h.sheet
  cases c with
  | addPremise text =>
    refine h.settle (Agree.bind_of_eq rfl fun φ _ => Agree.bind_of_eq rfl fun _ _ => ?_)
    exact .ok ⟨h.recorded _ _ _, rfl⟩
  | addLine text =>
    refine h.settle (Agree.bind_of_eq rfl fun φ _ => Agree.bind_of_eq rfl fun _ _ =>
      Agree.bind_of_eq rfl fun added _ => ?_)
    exact .ok ⟨h.recorded _ _ _, rfl⟩
  | deleteLine number =>
    refine h.settle (Agree.bind_of_eq rfl fun i _ => Agree.bind_of_eq rfl fun t _ => ?_)
    exact .ok ⟨h.recorded _ _ _, rfl⟩
  | justify child parent =>
    dsimp only [Session.run]
    rw [justify_eq_settle, justify_eq_settle]
    refine h.settle (Agree.bind_of_eq rfl fun lines _ => Agree.bind_of_eq rfl fun t _ => ?_)
    exact .ok ⟨h.recorded _ _ _, rfl⟩
  | checkmark number =>
    refine h.settle (Agree.bind_of_eq rfl fun i _ => Agree.bind_of_eq rfl fun t _ => ?_)
    exact .ok ⟨h.recorded _ _ _, rfl⟩
  | branch number =>
    refine h.settle (Agree.bind_of_eq rfl fun i _ => Agree.bind_of_eq rfl fun _ _ => ?_)
    refine Agree.ite (.error _) (Agree.bind_of_eq rfl fun grown _ => ?_)
    exact .ok ⟨h.recorded _ _ _, rfl⟩
  | deleteBranch =>
    dsimp only [Session.run, Session.deleteBranch, Session.tree, Session.current]
    split
    · exact ⟨rfl, rfl, h.config, h.limits, h.undone, h.applied, h.length⟩
    · exact ⟨rfl, h.recorded _ _ _⟩
  | goTo number =>
    refine h.settle (Agree.bind_of_eq rfl fun n _ => ?_)
    exact .ok ⟨h.recorded _ _ _, rfl⟩
  | close first second =>
    refine h.settle (Agree.bind_of_eq rfl fun i _ => Agree.bind_of_eq rfl fun j _ =>
      Agree.bind_of_eq rfl fun _ _ => Agree.bind_of_eq rfl fun t _ => ?_)
    exact .ok ⟨h.recorded _ _ _, rfl⟩
  | reopen number =>
    refine h.settle (Agree.bind_of_eq rfl fun n _ => Agree.ite (.error _) ?_)
    exact .ok ⟨h.recorded _ _ _, rfl⟩
  | markOpen =>
    refine h.settle (Agree.bind_of_eq rfl fun t _ => ?_)
    exact .ok ⟨h.recorded _ _ _, rfl⟩
  | checkAllClosed | checkAnyOpen | undo | redo | reset => simp [Command.records] at hc

/-- Undo takes back the newest step, which both sessions remember as long as the limited one
remembers any. -/
theorem Forgets.undo (h : Forgets k s u) (hundo : s.undo.2 ≠ .error .nothingToUndo) :
    u.undo.2 = s.undo.2 ∧ Forgets k s.undo.1 u.undo.1 := by
  obtain ⟨sheet, ⟨applied, undone, limit⟩, config⟩ := s
  obtain ⟨sheet', ⟨applied', undone', limit'⟩, config'⟩ := u
  obtain ⟨hsheet, hconfig, ⟨hlimit, hlimit'⟩, hundone, happlied, hlength⟩ := h
  dsimp only at hsheet hlimit hlimit' hundone happlied hlength
  subst hsheet hlimit hlimit' hundone
  cases applied with
  | nil => exact absurd rfl hundo
  | cons step rest =>
    cases applied' with
    | nil => exact absurd happlied (by simp)
    | cons step' rest' =>
      obtain ⟨rfl, hrest⟩ := List.cons_prefix_cons.mp happlied
      have hle : rest.length ≤ k := Nat.le_of_succ_le hlength
      have hkeep : (step :: rest).take k = step :: rest := List.take_of_length_le hlength
      dsimp only [Session.undo, History.takeApplied?]
      split
      · refine ⟨rfl, rfl, hconfig, ⟨rfl, rfl⟩, rfl, ?_, ?_⟩
        · simpa only [History.pushApplied, History.keep, hkeep] using happlied
        · simpa only [History.pushApplied, History.keep, hkeep] using hlength
      · exact ⟨rfl, rfl, hconfig, ⟨rfl, rfl⟩, rfl, hrest, hle⟩

/-- What is ahead has not been forgotten. -/
theorem Forgets.redo (h : Forgets k s u) : u.redo.2 = s.redo.2 ∧ Forgets k s.redo.1 u.redo.1 := by
  have hpush := h.pushApplied
  obtain ⟨sheet, ⟨applied, undone, limit⟩, config⟩ := s
  obtain ⟨sheet', ⟨applied', undone', limit'⟩, config'⟩ := u
  obtain ⟨hsheet, hconfig, ⟨hlimit, hlimit'⟩, hundone, happlied, hlength⟩ := h
  dsimp only at hsheet hlimit hlimit' hundone happlied hlength
  subst hsheet hlimit hlimit' hundone
  cases undone' with
  | nil => exact ⟨rfl, rfl, hconfig, ⟨rfl, rfl⟩, rfl, happlied, hlength⟩
  | cons step rest =>
    dsimp only [Session.redo, History.takeUndone?]
    split
    · exact ⟨rfl, rfl, hconfig, ⟨rfl, rfl⟩, rfl, happlied, hlength⟩
    · obtain ⟨hkept, hle⟩ := hpush step
      exact ⟨rfl, rfl, hconfig, ⟨rfl, rfl⟩, rfl, hkept, hle⟩

/-- Every command turns out the same in both sessions, unless the limited one has nothing left to
undo. -/
theorem Forgets.run (h : Forgets k s u) {c : Command}
    (hundo : (s.run c).2 ≠ .error .nothingToUndo) :
    (u.run c).2 = (s.run c).2 ∧ Forgets k (s.run c).1 (u.run c).1 := by
  obtain ⟨require, hs, hu⟩ := h.config
  cases c with
  | undo => exact h.undo hundo
  | redo => exact h.redo
  | reset =>
    refine ⟨rfl, ?_⟩
    dsimp only [Session.run, Session.reset]
    rw [hs, hu]
    exact forgets_start k require
  | checkAllClosed =>
    refine h.settle (Agree.bind_of_eq ?_ fun _ _ => .ok ⟨h, rfl⟩)
    rw [Session.tree, Session.tree, h.sheet, hs, hu]
  | checkAnyOpen =>
    refine h.settle (Agree.bind_of_eq ?_ fun _ _ => .ok ⟨h, rfl⟩)
    rw [Session.tree, Session.tree, h.sheet]
  | _ => exact h.run_of_records rfl

/-- As long as nothing forgotten is asked for, the limit does not show. -/
theorem Forgets.runAll (h : Forgets k s u) {cs : List Command}
    (hundo : .error .nothingToUndo ∉ s.replies cs) :
    u.replies cs = s.replies cs ∧ Forgets k (s.runAll cs) (u.runAll cs) := by
  induction cs generalizing s u with
  | nil => exact ⟨rfl, h⟩
  | cons c cs ih =>
    rw [replies, List.mem_cons, not_or] at hundo
    obtain ⟨hreply, hnext⟩ := h.run (Ne.symm hundo.1)
    obtain ⟨hreplies, hrest⟩ := ih hnext hundo.2
    exact ⟨by rw [replies, replies, hreply, hreplies], hrest⟩

theorem replies_append (s : Session) (cs ds : List Command) :
    s.replies (cs ++ ds) = s.replies cs ++ (s.runAll cs).replies ds := by
  induction cs generalizing s with
  | nil => rfl
  | cons c cs ih =>
    rw [List.cons_append, replies, ih]
    rfl

/-- As long as a session with a limit always has something left to undo when it is asked to, it
gives the replies of a session that forgets nothing, shows what that one shows, and can make the
same steps again. Its history is the newest part of the other history, of at most the length that
the limit allows. -/
theorem limit_only_forgets (k : Nat) (require : Bool) (cs : List Command)
    (hundo : .error .nothingToUndo ∉ (start ⟨some k, require⟩).replies cs) :
    (start ⟨some k, require⟩).replies cs = (start ⟨none, require⟩).replies cs ∧
      ∀ ds, ds <+: cs →
        let s := (start ⟨some k, require⟩).runAll ds
        let u := (start ⟨none, require⟩).runAll ds
        s.view = u.view ∧ s.sheet = u.sheet ∧ s.history.undone = u.history.undone ∧
          s.history.steps <:+ u.history.steps ∧ s.history.steps.length ≤ k := by
  have hstart := forgets_start k require
  refine ⟨(hstart.runAll hundo).1.symm, ?_⟩
  rintro ds ⟨es, rfl⟩ s u
  rw [replies_append, List.mem_append, not_or] at hundo
  obtain ⟨-, h⟩ := hstart.runAll hundo.1
  have hview : s.view = u.view := by
    show s.sheet.view = u.sheet.view
    rw [h.sheet]
  refine ⟨hview, h.sheet.symm, h.undone.symm, List.reverse_suffix.mpr h.applied, ?_⟩
  rw [History.steps, List.length_reverse]
  exact h.length

/-- Two steps are remembered of the four that were made. Both are undone, one of them is made again,
and some commands are refused. -/
theorem limit_only_forgets_two :
    let cs : List Command := [.addPremise "or(a,b)", .branch 1, .goTo 2, .addLine "a",
      .justify 1 2, .undo, .undo, .goTo 7, .redo, .checkAllClosed, .addLine "c", .redo]
    let s := (start ⟨some 2, true⟩).runAll cs
    let u := (start ⟨none, true⟩).runAll cs
    .error .nothingToUndo ∉ (start ⟨some 2, true⟩).replies cs ∧
      s.history.steps.length = 2 ∧ u.history.steps.length = 4 ∧ s.view = u.view ∧
      s.history.steps <:+ u.history.steps := by
  intro cs s u
  have hundo : .error .nothingToUndo ∉ (start ⟨some 2, true⟩).replies cs := by decide +kernel
  obtain ⟨hview, -, -, hsuffix, -⟩ :=
    (limit_only_forgets 2 true cs hundo).2 cs (List.prefix_refl cs)
  exact ⟨hundo, by decide +kernel, by decide +kernel, hview, hsuffix⟩

end Session

end TruthTrees
