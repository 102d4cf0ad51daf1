import TruthTrees.Proofs.Session.Timeline

/-! Invariants of sessions. It is said once what each command that is recorded does to the tree.
A property that these changes keep, and that does not see remnants, holds in every session: undo and
redo only go to trees that had it before. Some properties are kept as long as certain commands are
avoided, and then only these have to be looked at. -/
namespace TruthTrees.Session

/-- What a command does to the tree when it is carried out and recorded, and what was checked
before. -/
inductive Changes (s : Session) : Command → Tree → Prop
  | addPremise {text : String} (φ : Formula) :
    Changes s (.addPremise text) (s.tree.addPremise φ).2
  | addLine {text : String} (φ : Formula) (hn : s.tree.nodes.isLive s.current = true) :
    Changes s (.addLine text) (s.tree.withNewLine s.current φ)
  | deleteLine {number i : Nat} (hi : s.tree.lines.withNumber? number = some i)
    (hlive : s.tree.lines.isLive i = true) (hb : (s.tree.line i).branches = []) :
    Changes s (.deleteLine number) (s.tree.withoutLine i)
  | justify {child parent c p : Nat} (hc : s.tree.lines.withNumber? child = some c)
    (hp : s.tree.lines.withNumber? parent = some p) (hsupport : s.tree.support c ≠ .premise)
    (hbefore : s.tree.Before p c) :
    Changes s (.justify child parent) (s.tree.relink p c)
  | checkmark {number i : Nat} (hlive : s.tree.lines.isLive i = true)
    (hi : s.tree.isDecomposed i = true) :
    Changes s (.checkmark number) (s.tree.setCheckmarked i true)
  | branch {number i : Nat} (hn : s.tree.nodes.isLive s.current = true)
    (hleaf : (s.tree.node s.current).children = [])
    (hclosed : (s.tree.node s.current).closed = false)
    (hi : s.tree.inAncestry s.current i = true) :
    Changes s (.branch number) (s.tree.withFork s.current i)
  | deleteBranch {u : Tree} {l r : Nat} (h : s.tree.deleteBranch s.current = (u, .ok (l, r))) :
    Changes s .deleteBranch u
  | goTo {number : Nat} : Changes s (.goTo number) s.tree
  | close {first second i j : Nat} (h : s.tree.checkClose s.current i j = .ok ()) :
    Changes s (.close first second) (s.tree.setClosed s.current true)
  | reopen {number n : Nat} (hn : s.tree.nodes.withNumber? number = some n) :
    Changes s (.reopen number) (s.tree.setClosed n false)
  | markOpen (hclosed : (s.tree.node s.current).closed = false) :
    Changes s .markOpen (s.tree.setOpen s.current true)

variable {s s' : Session}

theorem isDecomposed_of_checkCheckmark {t : Tree} {i : Nat} {x : Unit}
    (h : t.checkCheckmark i = .ok x) : t.isDecomposed i = true := by
  unfold Tree.checkCheckmark at h
  split at h
  · simp at h
  · split at h
    · assumption
    · simp at h

/-- A command that is carried out and recorded changes the tree in its own way. -/
theorem run_changes (h : s.sheet.Coherent) {c : Command} {reply : Reply} (hc : c.records = true)
    (hok : s.run c = (s', .ok reply)) : s.Changes c s'.tree := by
  cases c with
  | addPremise text =>
    obtain ⟨φ, i, t, -, -, ht, -, rfl⟩ := addPremise_ok_iff.mp (settle_ok_iff.mp hok)
    obtain ⟨rfl, rfl⟩ := Prod.mk.inj ht
    exact .addPremise φ
  | addLine text =>
    obtain ⟨φ, i, t, -, -, hadd, -, rfl⟩ := addLine_ok_iff.mp (settle_ok_iff.mp hok)
    obtain ⟨hn, -, rfl⟩ := Tree.addLine_ok_iff.mp hadd
    exact .addLine φ hn
  | deleteLine number =>
    obtain ⟨i, t, hi, hdelete, -, rfl⟩ := deleteLine_ok_iff.mp (settle_ok_iff.mp hok)
    obtain ⟨hlive, hb, rfl⟩ := Tree.deleteLine_ok_iff.mp hdelete
    exact .deleteLine hi hlive hb
  | justify child parent =>
    rw [run, justify_eq_settle] at hok
    obtain ⟨c, p, t, hc, hp, hcheck, hlink, -, rfl⟩ := justified_ok_iff.mp (settle_ok_iff.mp hok)
    obtain ⟨hplive, hclive, rfl⟩ := Tree.link_ok_iff.mp hlink
    obtain ⟨hsupport, hnumber, -⟩ := Tree.checkJustify_ok_iff.mp hcheck
    exact .justify hc hp hsupport
      ((h.tree.linked.ordered.number_lt_iff hplive hclive).mp hnumber)
  | checkmark number =>
    obtain ⟨i, t, -, hcheckmark, -, rfl⟩ := checkmark_ok_iff.mp (settle_ok_iff.mp hok)
    obtain ⟨hlive, hcheck, rfl⟩ := Tree.checkmark_ok_iff.mp hcheckmark
    exact .checkmark hlive (isDecomposed_of_checkCheckmark hcheck)
  | branch number =>
    obtain ⟨i, l, r, t, -, hclosed, hi, hbranch, -, rfl⟩ := branch_ok_iff.mp (settle_ok_iff.mp hok)
    obtain ⟨hn, hleaf, -, -, -, -, rfl⟩ := Tree.branch_ok_iff.mp hbranch
    exact .branch hn hleaf hclosed hi
  | deleteBranch =>
    obtain ⟨l, r, t, hdelete, -, rfl⟩ := deleteBranch_ok_iff.mp hok
    exact .deleteBranch hdelete
  | goTo number =>
    obtain ⟨n, -, -, rfl⟩ := goTo_ok_iff.mp (settle_ok_iff.mp hok)
    exact .goTo
  | close first second =>
    obtain ⟨i, j, t, -, -, -, hclose, -, rfl⟩ := close_ok_iff.mp (settle_ok_iff.mp hok)
    obtain ⟨-, -, -, hcheck, rfl⟩ := Tree.close_ok_iff.mp hclose
    exact .close hcheck
  | reopen number =>
    obtain ⟨n, hn, -, -, rfl⟩ := reopen_ok_iff.mp (settle_ok_iff.mp hok)
    exact .reopen hn
  | markOpen =>
    obtain ⟨t, hmark, -, rfl⟩ := markOpen_ok_iff.mp (settle_ok_iff.mp hok)
    obtain ⟨-, hclosed, -, rfl⟩ := Tree.markOpen_ok_iff.mp hmark
    exact .markOpen hclosed
  | checkAllClosed | checkAnyOpen | undo | redo | reset => simp [Command.records] at hc

def avoids (harm : Session → Command → Bool) (s : Session) : List Command → Bool
  | [] => true
  | c :: cs => !((s.run c).2.isOk && harm s c) && (s.run c).1.avoids harm cs

theorem avoids_take {harm : Session → Command → Bool} {cs : List Command}
    (h : s.avoids harm cs = true) (k : Nat) : s.avoids harm (cs.take k) = true := by
  induction cs generalizing s k with
  | nil => simpa using h
  | cons c cs ih =>
    cases k with
    | zero => rfl
    | succ k =>
      rw [avoids, Bool.and_eq_true] at h
      rw [List.take_succ_cons, avoids, Bool.and_eq_true]
      exact ⟨h.1, ih h.2 k⟩

/-- A property of trees that is kept by all commands that do no harm. -/
structure Kept (harm : Session → Command → Bool) (P : Tree → Prop) : Prop where
  empty : P Tree.empty
  extend : ∀ {p : Sheet} {r : Tree.Remnants}, p.Coherent → p.tree.Fits r → P p.tree →
    P (p.tree.extend r)
  change : ∀ {s : Session} {c : Command} {u : Tree} {n : Nat}, s.sheet.Coherent →
    Sheet.Coherent ⟨u, n⟩ → s.Changes c u → harm s c = false → P s.tree → P u

/-- The tree that is worked on has a property, and so have all trees that undo and redo lead to. -/
def Lasting (P : Tree → Prop) (s : Session) : Prop :=
  ∃ past future, Timeline s past future ∧ P s.tree ∧ (∀ p ∈ past, P p.tree) ∧
    ∀ q ∈ future, P q.tree

/-- The limit on the history only drops steps. -/
theorem mem_of_mem_keep {α : Type} {limit : Option Nat} {l : List α} {a : α}
    (h : a ∈ History.keep limit l) : a ∈ l := by
  cases limit with
  | none => exact h
  | some k => exact List.mem_of_mem_take h

namespace Kept

variable {harm : Session → Command → Bool} {P : Tree → Prop}

/-- A kept property holds at the start. -/
theorem lasting_start (h : Kept harm P) (config : Config) : Lasting P (start config) :=
  ⟨[], [], timeline_start config, h.empty, by simp, by simp⟩

/-- One command keeps the property, on the sheet and on every sheet of the history. -/
theorem lasting_run (h : Kept harm P) (hs : Lasting P s) {c : Command}
    (hharm : (s.run c).2.isOk = true → harm s c = false) : Lasting P (s.run c).1 := by
  obtain ⟨past, future, ht, hnow, hpast, hfuture⟩ := hs
  cases hc : c.records with
  | true =>
    rcases hrun : s.run c with ⟨s', e | reply⟩
    · obtain rfl := run_error ht.coherent hc hrun
      exact ⟨past, future, ht, hnow, hpast, hfuture⟩
    · obtain ⟨-, r, hr, ht'⟩ := ht.advance (run_advances ht.coherent hc hrun)
      have hnow' : P s'.tree :=
        h.change ht.coherent ht'.coherent (run_changes ht.coherent hc hrun)
          (hharm (by rw [hrun]; rfl)) hnow
      refine ⟨_, [], ht', hnow', ?_, by simp⟩
      -- The past has grown remnants, which the property does not see.
      intro p hp
      rcases List.mem_cons.mp (mem_of_mem_keep hp) with rfl | hp
      · exact h.extend ht.coherent hr hnow
      · obtain ⟨q, hq, rfl⟩ := List.mem_map.mp hp
        exact h.extend (ht.behind.coherent hq) (ht.behind.fits hr hq) (hpast q hq)
  | false =>
    cases c with
    | undo =>
      cases past with
      | nil => exact ⟨[], future, by rw [ht.run_undo_nil]; exact ⟨ht, hnow, hpast, hfuture⟩⟩
      | cons p past =>
        obtain ⟨-, hsheet, -, ht'⟩ := ht.undo
        rw [List.forall_mem_cons] at hpast
        refine ⟨past, s.sheet :: future, ht', ?_, hpast.2, List.forall_mem_cons.mpr ⟨hnow, hfuture⟩⟩
        rw [Session.tree, show (s.run .undo).1.sheet = p from hsheet]
        exact hpast.1
    | redo =>
      cases future with
      | nil => exact ⟨past, [], by rw [ht.run_redo_nil]; exact ⟨ht, hnow, hpast, hfuture⟩⟩
      | cons q future =>
        obtain ⟨-, hsheet, -, ht'⟩ := ht.redo
        rw [List.forall_mem_cons] at hfuture
        refine ⟨_, future, ht', ?_, ?_, hfuture.2⟩
        · rw [Session.tree, show (s.run .redo).1.sheet = q from hsheet]
          exact hfuture.1
        · intro p hp
          rcases List.mem_cons.mp (mem_of_mem_keep hp) with rfl | hp
          · exact hnow
          · exact hpast p hp
    | reset => exact h.lasting_start s.config
    | checkAllClosed =>
      rw [run_checkAllClosed]
      exact ⟨past, future, ht, hnow, hpast, hfuture⟩
    | checkAnyOpen =>
      rw [run_checkAnyOpen]
      exact ⟨past, future, ht, hnow, hpast, hfuture⟩
    | _ => simp [Command.records] at hc

/-- A run that avoids the harm keeps the property throughout. -/
theorem lasting_runAll (h : Kept harm P) (hs : Lasting P s) {cs : List Command}
    (hcs : s.avoids harm cs = true) : Lasting P (s.runAll cs) := by
  induction cs generalizing s with
  | nil => exact hs
  | cons c cs ih =>
    rw [avoids, Bool.and_eq_true, Bool.not_eq_true', Bool.and_eq_false_imp] at hcs
    exact ih (h.lasting_run hs hcs.1) hcs.2

/-- A property that is kept by all commands that do no harm holds in every session in which the
others were avoided. -/
theorem holds (h : Kept harm P) {config : Config} {cs : List Command}
    (hcs : (start config).avoids harm cs = true) : P ((start config).runAll cs).tree := by
  obtain ⟨-, -, -, hnow, -⟩ := h.lasting_runAll (h.lasting_start config) hcs
  exact hnow

/-- Where the property does not outlast harm, it holds all along a session exactly when harm is
avoided. -/
theorem avoids_iff (h : Kept harm P) {config : Config} {cs : List Command}
    (hharm : ∀ {s : Session} {c : Command}, s.sheet.Coherent → (s.run c).2.isOk = true →
      harm s c = true → ¬ P (s.run c).1.tree) :
    (start config).avoids harm cs = true ↔
      ∀ k, P ((start config).runAll (cs.take k)).tree := by
  refine ⟨fun hcs k => h.holds (avoids_take hcs k), fun hall => ?_⟩
  have step : ∀ s, Reachable config s → (∀ k, P (s.runAll (cs.take k)).tree) →
      s.avoids harm cs = true := by
    clear hall
    induction cs with
    | nil => exact fun _ _ _ => rfl
    | cons c cs ih =>
      intro s hs hall
      obtain ⟨-, past, future, ht⟩ := hs.timeline
      rw [avoids, Bool.and_eq_true, Bool.not_eq_true', Bool.and_eq_false_imp]
      refine ⟨fun hok => ?_, ih _ (hs.run c) (fun k => hall (k + 1))⟩
      rw [Bool.eq_false_iff]
      exact fun hc => hharm ht.coherent hok hc (hall 1)
  exact step _ .start hall

theorem avoids_none (s : Session) (cs : List Command) :
    s.avoids (fun _ _ => false) cs = true := by
  induction cs generalizing s with
  | nil => rfl
  | cons c cs ih => simp [avoids, ih]

/-- A property that is kept by all commands holds in every session. -/
theorem holds_of_reachable (h : Kept (fun _ _ => false) P) {config : Config}
    (hs : Reachable config s) : P s.tree := by
  obtain ⟨cs, rfl⟩ := reachable_iff_exists_runAll.mp hs
  exact h.holds (avoids_none _ cs)

end Kept

end TruthTrees.Session
