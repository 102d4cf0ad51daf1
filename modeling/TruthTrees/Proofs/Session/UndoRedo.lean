import Mathlib.Data.List.Induction
import TruthTrees.Proofs.Session.Timeline

/-! Undo and redo are exact. However a session came about, when recorded commands are carried out
one after another and the history can hold them all, then as many undos go back through what was
seen before each of them, and as many redos go forth through what was seen after each of them. -/
namespace TruthTrees.Session

def view (s : Session) : Snapshot × Nat := (s.snapshot, s.currentNumber)

def carriesOut (s : Session) : List Command → Bool
  | [] => true
  | c :: cs => (s.run c).2.isOk && (s.run c).1.carriesOut cs

variable {s : Session} {past future : List Sheet}

theorem runAll_append (s : Session) (cs ds : List Command) :
    s.runAll (cs ++ ds) = (s.runAll cs).runAll ds := by
  simp [runAll]

theorem carriesOut_append (s : Session) (cs ds : List Command) :
    s.carriesOut (cs ++ ds) = (s.carriesOut cs && (s.runAll cs).carriesOut ds) := by
  induction cs generalizing s with
  | nil => rfl
  | cons c cs ih =>
    rw [List.cons_append, carriesOut, carriesOut, ih, Bool.and_assoc]
    rfl

/-- Undo goes back along the past. -/
theorem Timeline.undos {k : Nat} (h : Timeline s past future) (hk : k ≤ past.length) :
    s.carriesOut (.replicate k .undo) = true ∧
      (s.sheet :: past)[k]? = some (s.runAll (.replicate k .undo)).sheet ∧
      Timeline (s.runAll (.replicate k .undo)) (past.drop k)
        (((s.sheet :: past).take k).reverse ++ future) := by
  induction k generalizing s past future with
  | zero => exact ⟨rfl, rfl, h⟩
  | succ k ih =>
    cases past with
    | nil => simp at hk
    | cons p past =>
      obtain ⟨hok, hsheet, -, ht⟩ := h.undo
      obtain ⟨hcarries, hget, htimeline⟩ := ih ht (Nat.le_of_succ_le_succ hk)
      rw [hsheet] at hget htimeline
      refine ⟨?_, hget, ?_⟩
      · rw [List.replicate_succ, carriesOut, Bool.and_eq_true]
        exact ⟨hok, hcarries⟩
      · rw [List.take_succ_cons, List.reverse_cons, List.append_assoc]
        exact htimeline

/-- Redo goes forth along the future. -/
theorem Timeline.redos {k : Nat} (h : Timeline s past future) (hk : k ≤ future.length) :
    s.carriesOut (.replicate k .redo) = true ∧
      (s.sheet :: future)[k]? = some (s.runAll (.replicate k .redo)).sheet := by
  induction k generalizing s past future with
  | zero => exact ⟨rfl, rfl⟩
  | succ k ih =>
    cases future with
    | nil => simp at hk
    | cons q future =>
      obtain ⟨hok, hsheet, -, ht⟩ := h.redo
      obtain ⟨hcarries, hget⟩ := ih ht (Nat.le_of_succ_le_succ hk)
      rw [hsheet] at hget
      refine ⟨?_, hget⟩
      rw [List.replicate_succ, carriesOut, Bool.and_eq_true]
      exact ⟨hok, hcarries⟩

/-- After going back some sheets, the nearest of the sheets ahead is the last that was left. -/
theorem getElem?_turn {sheets rest : List Sheet} {n k : Nat} {x : Sheet}
    (hx : sheets[n]? = some x) (hk : k ≤ n) :
    (x :: ((sheets.take n).reverse ++ rest))[k]? = sheets[n - k]? := by
  obtain ⟨hn, -⟩ := List.getElem?_eq_some_iff.mp hx
  have hlength : (sheets.take n).length = n := List.length_take_of_le (Nat.le_of_lt hn)
  cases k with
  | zero => exact hx.symm
  | succ j =>
    have hj : j < (sheets.take n).length := by omega
    rw [List.getElem?_cons_succ, List.getElem?_append_left (by rwa [List.length_reverse]),
      List.getElem?_reverse hj, hlength, List.getElem?_take_of_lt (by omega),
      Nat.sub_sub, Nat.add_comm 1 j]

/-- Sheets are seen alike with and without remnants. -/
theorem Timeline.view_extend (h : Timeline s past future) (r : Tree.Remnants) (j : Nat) :
    (s.sheet.extend r :: past.map (fun p => p.extend r))[j]?.map Sheet.view =
      (s.sheet :: past)[j]?.map Sheet.view := by
  have hcoherent : ∀ p ∈ s.sheet :: past, p.Coherent := by
    intro p hp
    rcases List.mem_cons.mp hp with rfl | hp
    · exact h.coherent
    · exact h.behind.coherent hp
  rw [show s.sheet.extend r :: past.map (fun p => p.extend r) =
    (s.sheet :: past).map (fun p => p.extend r) from rfl, List.getElem?_map, Option.map_map]
  cases hj : (s.sheet :: past)[j]? with
  | none => rfl
  | some p => exact congrArg some ((hcoherent p (List.mem_of_getElem? hj)).view_extend r)

/-- When recorded commands are carried out, the past shows what was seen before each of them, as far
as the history goes. -/
theorem Timeline.trail {cs : List Command} (h : Timeline s past future)
    (hrecords : ∀ c ∈ cs, c.records = true) (hok : s.carriesOut cs = true)
    (hlimit : ∀ k, s.config.historyLimit = some k → cs.length ≤ k) :
    (s.runAll cs).config = s.config ∧ ∃ past' future', Timeline (s.runAll cs) past' future' ∧
      ∀ k ≤ cs.length, ((s.runAll cs).sheet :: past')[k]?.map Sheet.view =
        some (s.runAll (cs.take (cs.length - k))).view := by
  -- Every command puts one sheet before the past that the commands before it have left.
  induction cs using List.reverseRecOn with
  | nil =>
    refine ⟨rfl, past, future, h, ?_⟩
    intro k hk
    obtain rfl : k = 0 := Nat.le_zero.mp hk
    rfl
  | append_singleton cs c ih =>
    rw [carriesOut_append, Bool.and_eq_true] at hok
    obtain ⟨hcs, hc⟩ := hok
    have hlength : (cs ++ [c]).length = cs.length + 1 := by simp
    have hlimit' : ∀ k, s.config.historyLimit = some k → cs.length + 1 ≤ k := by
      intro k hk
      rw [← hlength]
      exact hlimit k hk
    obtain ⟨hconfig, past', future', ht, hview⟩ := ih
      (fun d hd => hrecords d (List.mem_append_left _ hd)) hcs
      (fun k hk => Nat.le_of_succ_le (hlimit' k hk))
    set t := s.runAll cs with ht'
    have hrun : s.runAll (cs ++ [c]) = (t.run c).1 := by rw [runAll_append]; rfl
    rcases hstep : t.run c with ⟨t', e | reply⟩
    · simp [carriesOut, hstep, Except.isOk, Except.toBool] at hc
    have hadvances := run_advances ht.coherent (hrecords c (by simp)) hstep
    obtain ⟨hconfig', r, -, htimeline⟩ := ht.advance hadvances
    rw [hrun, hstep]
    refine ⟨hconfig'.trans hconfig, _, [], htimeline, ?_⟩
    intro k hk
    rw [hlength] at hk ⊢
    cases k with
    | zero =>
      rw [Nat.sub_zero, List.take_of_length_le (Nat.le_of_eq hlength), hrun, hstep]
      rfl
    | succ j =>
      have hj : j ≤ cs.length := Nat.le_of_succ_le_succ hk
      have hkept : ∀ k, t.config.historyLimit = some k → j < k := by
        intro k hk
        exact Nat.lt_of_le_of_lt hj (hlimit' k (hconfig ▸ hk))
      rw [List.getElem?_cons_succ, History.getElem?_keep hkept, ht.view_extend r j, hview j hj,
        Nat.add_sub_add_right, List.take_append_of_le_length (Nat.sub_le _ _)]

/-- However a session came about, undo takes recorded commands back one by one, and redo carries
them out again one by one: the same is seen as before and after each of them. -/
theorem undo_redo_exact {config : Config} {s : Session} (hs : Reachable config s)
    {cs : List Command} (hrecords : ∀ c ∈ cs, c.records = true) (hok : s.carriesOut cs = true)
    (hlimit : ∀ k, config.historyLimit = some k → cs.length ≤ k) :
    (∀ k ≤ cs.length,
      (s.runAll cs).carriesOut (.replicate k .undo) = true ∧
      ((s.runAll cs).runAll (.replicate k .undo)).view =
        (s.runAll (cs.take (cs.length - k))).view) ∧
    ∀ k ≤ cs.length,
      ((s.runAll cs).runAll (.replicate cs.length .undo)).carriesOut (.replicate k .redo) = true ∧
      (((s.runAll cs).runAll (.replicate cs.length .undo)).runAll (.replicate k .redo)).view =
        (s.runAll (cs.take k)).view := by
  obtain ⟨hconfig, past, future, ht⟩ := hs.timeline
  rw [← hconfig] at hlimit
  obtain ⟨-, past', future', ht', hview⟩ := ht.trail hrecords hok hlimit
  set t := s.runAll cs with ht₀
  -- The sheet before the first command is still in the past, so no command was forgotten.
  have hlength : cs.length ≤ past'.length := by
    obtain ⟨p, hp, -⟩ := Option.map_eq_some_iff.mp (hview cs.length (Nat.le_refl _))
    obtain ⟨hlt, -⟩ := List.getElem?_eq_some_iff.mp hp
    exact Nat.le_of_lt_succ hlt
  constructor
  · intro k hk
    obtain ⟨hcarries, hget, -⟩ := ht'.undos (Nat.le_trans hk hlength)
    refine ⟨hcarries, ?_⟩
    have h := hview k hk
    rw [hget] at h
    exact Option.some.inj h
  · intro k hk
    obtain ⟨-, hget, hback⟩ := ht'.undos hlength
    have hk' : k ≤ (((t.sheet :: past').take cs.length).reverse ++ future').length := by
      simp only [List.length_append, List.length_reverse, List.length_take, List.length_cons]
      omega
    obtain ⟨hcarries, hforth⟩ := hback.redos hk'
    refine ⟨hcarries, ?_⟩
    rw [getElem?_turn hget hk] at hforth
    have h := hview (cs.length - k) (Nat.sub_le _ _)
    rw [hforth, Nat.sub_sub_self hk] at h
    exact Option.some.inj h

/-- Deleting a pair of branches, with a line in one of them, and then the line that they were grown
from is taken back by three undos, and seven redos bring it about again. -/
theorem undo_redo_exact_deleteBranch :
    let s := (start ⟨some 7, true⟩).runAll
      [.addPremise "or(a,b)", .addPremise "not(a)", .undo, .redo, .deleteLine 7]
    let cs : List Command :=
      [.branch 1, .goTo 2, .addLine "a", .justify 3 1, .goTo 1, .deleteBranch, .deleteLine 1]
    s.carriesOut cs = true ∧
      ((s.runAll cs).runAll (.replicate 3 .undo)).view = (s.runAll (cs.take 4)).view ∧
      (((s.runAll cs).runAll (.replicate 7 .undo)).runAll (.replicate 7 .redo)).view =
        (s.runAll cs).view := by
  intro s cs
  have hs : Reachable ⟨some 7, true⟩ s := reachable_iff_exists_runAll.mpr ⟨_, rfl⟩
  have hrecords : ∀ c ∈ cs, c.records = true := by decide
  have hok : s.carriesOut cs = true := by decide +kernel
  have hlimit : ∀ k, (some 7 : Option Nat) = some k → cs.length ≤ k :=
    fun k hk => Nat.le_of_eq (Option.some.inj hk)
  obtain ⟨hundo, hredo⟩ := undo_redo_exact hs hrecords hok hlimit
  exact ⟨hok, (hundo 3 (by decide)).2, (hredo 7 (by decide)).2⟩

end TruthTrees.Session
