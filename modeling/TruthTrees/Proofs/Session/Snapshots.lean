import TruthTrees.Proofs.Session.Branches
import TruthTrees.Proofs.Tree.Recognition
import TruthTrees.Proofs.Tree.TwinOutcomes
import TruthTrees.Script

/-! Sessions that look alike. What is seen of a session, together with the number of the current
node, decides how every command turns out and what is seen next, except for the commands that walk
along the history. So nothing that was deleted has any influence, nor has any identity. -/
namespace TruthTrees.Session

variable {s s' : Session}

/-- One session is the other one under other identities. Nothing is said of their histories. -/
structure Mirrors (s s' : Session) : Prop where
  config : s'.config = s.config
  sheet : ∃ σ τ, Tree.Twins σ τ s.tree s'.tree ∧ s'.current = τ s.current

/-- Sessions that mirror each other have the same snapshot. -/
theorem Mirrors.snapshot (h : Mirrors s s') : s'.snapshot = s.snapshot := by
  obtain ⟨σ, τ, htwins, -⟩ := h.sheet
  exact htwins.snapshot

/-- Sessions that mirror each other are printed alike. -/
theorem Mirrors.render (h : Mirrors s s') : s'.tree.render = s.tree.render := by
  obtain ⟨σ, τ, htwins, -⟩ := h.sheet
  exact htwins.render

theorem Mirrors.currentNumber (h : Mirrors s s') (hs : s.sheet.Coherent) :
    s'.currentNumber = s.currentNumber := by
  obtain ⟨σ, τ, htwins, hcurrent⟩ := h.sheet
  have hnumber := htwins.nodeNumber hs.current
  rw [show τ s.sheet.current = s'.current from hcurrent.symm] at hnumber
  exact hnumber

def SameResult (a b : Session × Reply) : Prop := Mirrors a.1 b.1 ∧ b.2 = a.2

section Commands

variable {σ τ : Nat → Nat}

/-- A number finds twin lines in twin trees. -/
theorem lineWithNumber_agree (h : Tree.Twins σ τ s.tree s'.tree) (number : Nat) :
    Agree (fun i j => s.tree.lines.isLive i = true ∧ j = σ i) (s.lineWithNumber number)
      (s'.lineWithNumber number) := by
  unfold lineWithNumber
  rw [h.lines.withNumber?]
  cases hi : s.tree.lines.withNumber? number with
  | none => exact .error _
  | some i => exact .ok ⟨isLive_of_withNumber? h.lines.left hi, rfl⟩

theorem nodeWithNumber_agree (h : Tree.Twins σ τ s.tree s'.tree) (number : Nat) :
    Agree (fun n m => s.tree.nodes.isLive n = true ∧ m = τ n) (s.nodeWithNumber number)
      (s'.nodeWithNumber number) := by
  unfold nodeWithNumber
  rw [h.nodes.withNumber?]
  cases hn : s.tree.nodes.withNumber? number with
  | none => exact .error _
  | some n => exact .ok ⟨isLive_of_withNumber? h.nodes.left hn, rfl⟩

theorem requireNotClosed_congr (h : Tree.Twins σ τ s.tree s'.tree) {n : Nat}
    (hn : s.tree.nodes.isLive n = true) : s'.requireNotClosed (τ n) = s.requireNotClosed n := by
  unfold requireNotClosed
  rw [(h.node n hn).closed, h.nodeNumber hn]

theorem requireNotClosed_current (h : Tree.Twins σ τ s.tree s'.tree) (hs : s.sheet.Coherent)
    (hcurrent : s'.current = τ s.current) :
    s'.requireNotClosed s'.current = s.requireNotClosed s.current := by
  rw [hcurrent]
  exact requireNotClosed_congr h hs.current

theorem addPremise_agree (h : Mirrors s s') (text : String) :
    Agree SameResult (s.addPremise text) (s'.addPremise text) := by
  obtain ⟨hconfig, σ, τ, htwins, hcurrent⟩ := h
  have hclosed := requireNotClosed_congr htwins htwins.left.store.rooted.root_live
  rw [htwins.map_root] at hclosed
  refine Agree.bind_of_eq rfl (fun φ _ => ?_)
  refine Agree.bind_of_eq hclosed (fun _ _ => ?_)
  obtain ⟨⟨σ', htwins'⟩, hnumber⟩ := htwins.grown_addPremise φ
  exact .ok ⟨⟨hconfig, σ', τ, htwins', hcurrent⟩, congrArg Reply.line hnumber⟩

theorem addLine_agree (h : Mirrors s s') (hs : s.sheet.Coherent) (text : String) :
    Agree SameResult (s.addLine text) (s'.addLine text) := by
  obtain ⟨hconfig, σ, τ, htwins, hcurrent⟩ := h
  refine Agree.bind_of_eq rfl (fun φ _ => ?_)
  refine Agree.bind_of_eq (requireNotClosed_current htwins hs hcurrent) (fun _ _ => ?_)
  rw [hcurrent]
  refine (htwins.addLine hs.current φ).bind ?_
  rintro _ _ ⟨⟨σ', htwins'⟩, hnumber⟩
  exact .ok ⟨⟨hconfig, σ', τ, htwins', hcurrent⟩, congrArg Reply.line hnumber⟩

theorem deleteLine_agree (h : Mirrors s s') (number : Nat) :
    Agree SameResult (s.deleteLine number) (s'.deleteLine number) := by
  obtain ⟨hconfig, σ, τ, htwins, hcurrent⟩ := h
  refine (lineWithNumber_agree htwins number).bind ?_
  rintro i _ ⟨hi, rfl⟩
  refine (htwins.deleteLine hi).bind (fun t u htwins' => ?_)
  exact .ok ⟨⟨hconfig, σ, τ, htwins', hcurrent⟩, rfl⟩

/-- A justification is allowed of twin lines, or refused with the same words. -/
theorem justifiable_agree (h : Tree.Twins σ τ s.tree s'.tree) (child parent : Nat) :
    Agree (fun lines lines' => lines' = (σ lines.1, σ lines.2) ∧
        s.tree.Before lines.2 lines.1 ∧ s.tree.support lines.1 ≠ .premise)
      (s.justifiable child parent) (s'.justifiable child parent) := by
  refine (lineWithNumber_agree h child).bind ?_
  rintro c _ ⟨hc, rfl⟩
  refine (lineWithNumber_agree h parent).bind ?_
  rintro p _ ⟨hp, rfl⟩
  refine Agree.bind_of_eq (by rw [h.checkJustify hc hp]) (fun _ hok => ?_)
  obtain ⟨hpremise, hlt, -⟩ := Tree.checkJustify_ok_iff.mp (Except.mapError_ok_iff.mp hok)
  exact .ok ⟨rfl, (h.lines.left.number_lt_iff hp hc).mp hlt, hpremise⟩

theorem justify_agree (h : Mirrors s s') (child parent : Nat) :
    Agree SameResult (s.justified child parent) (s'.justified child parent) := by
  obtain ⟨hconfig, σ, τ, htwins, hcurrent⟩ := h
  refine (justifiable_agree htwins child parent).bind ?_
  rintro ⟨c, p⟩ _ ⟨rfl, hbefore, hpremise⟩
  refine (htwins.link hbefore hpremise).bind (fun t u htwins' => ?_)
  exact .ok ⟨⟨hconfig, σ, τ, htwins', hcurrent⟩, rfl⟩

theorem checkmark_agree (h : Mirrors s s') (number : Nat) :
    Agree SameResult (s.checkmark number) (s'.checkmark number) := by
  obtain ⟨hconfig, σ, τ, htwins, hcurrent⟩ := h
  refine (lineWithNumber_agree htwins number).bind ?_
  rintro i _ ⟨hi, rfl⟩
  refine (htwins.checkmark hi).bind (fun t u htwins' => ?_)
  exact .ok ⟨⟨hconfig, σ, τ, htwins', hcurrent⟩, rfl⟩

theorem branch_agree (h : Mirrors s s') (hs : s.sheet.Coherent) (number : Nat) :
    Agree SameResult (s.branch number) (s'.branch number) := by
  have hnumber := h.currentNumber hs
  obtain ⟨hconfig, σ, τ, htwins, hcurrent⟩ := h
  refine (lineWithNumber_agree htwins number).bind ?_
  rintro i _ ⟨hi, rfl⟩
  refine Agree.bind_of_eq (requireNotClosed_current htwins hs hcurrent) (fun _ _ => ?_)
  have hancestry : s'.tree.inAncestry s'.current (σ i) = s.tree.inAncestry s.current i := by
    rw [hcurrent]
    exact htwins.inAncestry hs.current hi
  rw [hancestry, hnumber]
  by_cases hin : s.tree.inAncestry s.current i = true
  · rw [if_neg (by simp [hin]), if_neg (by simp [hin])]
    rw [hcurrent]
    refine (htwins.branch hs.current hin).bind ?_
    rintro _ _ ⟨⟨τ', htwins', hcurrent'⟩, hleft, hright⟩
    exact .ok ⟨⟨hconfig, σ, τ', htwins', hcurrent.trans hcurrent'⟩,
      congrArg₂ Reply.nodes hleft hright⟩
  · rw [if_pos (by simp [hin]), if_pos (by simp [hin])]
    exact .error _

theorem goTo_agree (h : Mirrors s s') (number : Nat) :
    Agree SameResult (s.goTo number) (s'.goTo number) := by
  obtain ⟨hconfig, σ, τ, htwins, hcurrent⟩ := h
  refine (nodeWithNumber_agree htwins number).bind ?_
  rintro n _ ⟨-, rfl⟩
  exact .ok ⟨⟨hconfig, σ, τ, htwins, rfl⟩, rfl⟩

theorem close_agree (h : Mirrors s s') (hs : s.sheet.Coherent) (first second : Nat) :
    Agree SameResult (s.close first second) (s'.close first second) := by
  obtain ⟨hconfig, σ, τ, htwins, hcurrent⟩ := h
  refine (lineWithNumber_agree htwins first).bind ?_
  rintro i _ ⟨hi, rfl⟩
  refine (lineWithNumber_agree htwins second).bind ?_
  rintro j _ ⟨hj, rfl⟩
  refine Agree.bind_of_eq (requireNotClosed_current htwins hs hcurrent) (fun _ _ => ?_)
  rw [hcurrent]
  refine (htwins.close hs.current hi hj).bind (fun t u htwins' => ?_)
  exact .ok ⟨⟨hconfig, σ, τ, htwins', hcurrent⟩, rfl⟩

theorem reopen_agree (h : Mirrors s s') (number : Nat) :
    Agree SameResult (s.reopen number) (s'.reopen number) := by
  obtain ⟨hconfig, σ, τ, htwins, hcurrent⟩ := h
  refine (nodeWithNumber_agree htwins number).bind ?_
  rintro n _ ⟨hn, rfl⟩
  rw [(htwins.node n hn).closed]
  split
  · exact .error _
  · exact .ok ⟨⟨hconfig, σ, τ, htwins.setClosed hn false, hcurrent⟩, rfl⟩

theorem markOpen_agree (h : Mirrors s s') (hs : s.sheet.Coherent) :
    Agree SameResult s.markOpen s'.markOpen := by
  obtain ⟨hconfig, σ, τ, htwins, hcurrent⟩ := h
  have hmark := htwins.markOpen hs.current
  rw [show τ s.sheet.current = s'.current from hcurrent.symm] at hmark
  refine hmark.bind (fun t u htwins' => ?_)
  exact .ok ⟨⟨hconfig, σ, τ, htwins', hcurrent⟩, rfl⟩

theorem checkAllClosed_agree (h : Mirrors s s') :
    Agree SameResult s.checkAllClosed s'.checkAllClosed := by
  obtain ⟨σ, τ, htwins, -⟩ := h.sheet
  refine Agree.bind_of_eq (by rw [h.config, htwins.checkAllClosed]) (fun _ _ => ?_)
  exact .ok ⟨h, rfl⟩

theorem checkAnyOpen_agree (h : Mirrors s s') :
    Agree SameResult s.checkAnyOpen s'.checkAnyOpen := by
  obtain ⟨σ, τ, htwins, -⟩ := h.sheet
  refine Agree.bind_of_eq (by rw [htwins.checkAnyOpen]) (fun _ _ => ?_)
  exact .ok ⟨h, rfl⟩

/-- Deleting branches changes the tree step by step, and so it is not settled like the others. -/
theorem deleteBranch_agree (h : Mirrors s s') (hs : s.sheet.Coherent) :
    Mirrors s.deleteBranch.1 s'.deleteBranch.1 ∧ s'.deleteBranch.2 = s.deleteBranch.2 := by
  obtain ⟨hconfig, σ, τ, htwins, hcurrent⟩ := h
  have hdelete := htwins.deleteBranch hs.current
  rw [show τ s.sheet.current = s'.current from hcurrent.symm] at hdelete
  unfold deleteBranch
  rcases hdelete with ⟨e, ht, hu⟩ | ⟨t, u, pair, pair', ht, hu, htwins'⟩
  · rw [show s.tree.deleteBranch s.current = _ from ht, hu]
    exact ⟨⟨hconfig, σ, τ, htwins, hcurrent⟩, rfl⟩
  · rw [show s.tree.deleteBranch s.current = _ from ht, hu]
    exact ⟨⟨hconfig, σ, τ, htwins', hcurrent⟩, rfl⟩

end Commands

theorem Reachable.coherent {config : Config} (h : Reachable config s) : s.sheet.Coherent := by
  obtain ⟨-, past, future, ht⟩ := h.timeline
  exact ht.coherent

/-- What lines say was read from texts, also where lines were deleted and came back. -/
theorem Reachable.wellNamed {config : Config} (h : Reachable config s) {i : Nat}
    (hi : s.tree.lines.isLive i = true) : (s.tree.line i).formula.WellNamed := by
  obtain ⟨ops, hops, hread⟩ := h.leadsTo_tree
  have hempty : Tree.AllSay Formula.WellNamed Tree.empty :=
    fun j hj => absurd hj (Nat.not_lt_zero j)
  have hsay : Tree.AllSay Formula.WellNamed s.tree := by
    rw [hops]
    apply hempty.performAll
    intro op hop φ hφ
    obtain ⟨text, htext⟩ := hread op hop φ hφ
    exact Formula.wellNamed_of_parse (Except.mapError_ok_iff.mp htext)
  exact hsay i (Register.lt_size_of_isLive hi)

/-- Sessions that are seen alike are the same up to identities. -/
theorem Reachable.mirrors {config : Config} (hs : Reachable config s) (hs' : Reachable config s')
    (hsnapshot : s'.snapshot = s.snapshot) (hcurrent : s'.currentNumber = s.currentNumber) :
    Mirrors s s' := by
  obtain ⟨σ, τ, htwins⟩ := hs.coherent.tree.exists_twins hs'.coherent.tree
    (fun _ => hs.wellNamed) (fun _ => hs'.wellNamed) hsnapshot
  refine ⟨hs'.timeline.1.trans hs.timeline.1.symm, σ, τ, htwins, ?_⟩
  exact htwins.nodes.eq_of_number hs.coherent.current hs'.coherent.current hcurrent

/-- Commands with the same outcome leave sessions that mirror each other. -/
theorem settle_agree (h : Mirrors s s') {x y : Except Refusal (Session × Reply)}
    (hxy : Agree SameResult x y) :
    Mirrors (s.settle x).1 (s'.settle y).1 ∧ (s'.settle y).2 = (s.settle x).2 := by
  cases hxy with
  | ok hresult => exact ⟨hresult.1, congrArg Except.ok hresult.2⟩
  | error e => exact ⟨h, rfl⟩

/-- A command that does not walk along the history turns out the same way in both sessions. -/
theorem Mirrors.run (h : Mirrors s s') (hs : s.sheet.Coherent) {c : Command} (hundo : c ≠ .undo)
    (hredo : c ≠ .redo) : Mirrors (s.run c).1 (s'.run c).1 ∧ (s'.run c).2 = (s.run c).2 := by
  cases c with
  | addPremise text => exact settle_agree h (addPremise_agree h text)
  | addLine text => exact settle_agree h (addLine_agree h hs text)
  | deleteLine number => exact settle_agree h (deleteLine_agree h number)
  | justify child parent =>
    dsimp only [Session.run]
    rw [justify_eq_settle, justify_eq_settle]
    exact settle_agree h (justify_agree h child parent)
  | checkmark number => exact settle_agree h (checkmark_agree h number)
  | branch number => exact settle_agree h (branch_agree h hs number)
  | deleteBranch => exact deleteBranch_agree h hs
  | goTo number => exact settle_agree h (goTo_agree h number)
  | close first second => exact settle_agree h (close_agree h hs first second)
  | reopen number => exact settle_agree h (reopen_agree h number)
  | markOpen => exact settle_agree h (markOpen_agree h hs)
  | checkAllClosed => exact settle_agree h (checkAllClosed_agree h)
  | checkAnyOpen => exact settle_agree h (checkAnyOpen_agree h)
  | undo => exact absurd rfl hundo
  | redo => exact absurd rfl hredo
  | reset =>
    have hstart : Mirrors (start s.config) (start s.config) :=
      Reachable.start.mirrors .start rfl rfl
    refine ⟨?_, rfl⟩
    show Mirrors (start s.config) (start s'.config)
    rw [h.config]
    exact hstart

/-- What is seen of a session decides how every command turns out that does not walk along the
history, and what is seen afterwards. -/
theorem run_eq_of_snapshot_eq {config : Config} (hs : Reachable config s)
    (hs' : Reachable config s') (hsnapshot : s'.snapshot = s.snapshot)
    (hcurrent : s'.currentNumber = s.currentNumber) :
    s'.tree.render = s.tree.render ∧ ∀ c : Command, c ≠ .undo → c ≠ .redo →
      (s'.run c).2 = (s.run c).2 ∧ (s'.run c).1.snapshot = (s.run c).1.snapshot ∧
      (s'.run c).1.currentNumber = (s.run c).1.currentNumber ∧
      (s'.run c).1.tree.render = (s.run c).1.tree.render := by
  have h := hs.mirrors hs' hsnapshot hcurrent
  refine ⟨h.render, fun c hundo hredo => ?_⟩
  obtain ⟨hnext, hreply⟩ := h.run hs.coherent hundo hredo
  exact ⟨hreply, hnext.snapshot, hnext.currentNumber (hs.run c).coherent, hnext.render⟩

/-- In the second session a premise and a pair of branches were deleted, and a command was undone.
So its lines and nodes have other identities, and yet a line can be justified in both sessions. -/
theorem run_eq_of_snapshot_eq_deleted :
    let s := (start {}).runAll [.addPremise "or(a,b)", .branch 1, .goTo 2, .addLine "a"]
    let s' := (start {}).runAll [.addPremise "c", .addPremise "or(a,b)", .deleteLine 1, .branch 1,
      .deleteBranch, .branch 1, .goTo 2, .addLine "b", .undo, .addLine "a"]
    s'.current ≠ s.current ∧ s'.tree.lines.order ≠ s.tree.lines.order ∧
      s'.tree.render = s.tree.render ∧
      (s.run (.justify 2 1)).2 = .ok .done ∧ (s'.run (.justify 2 1)).2 = .ok .done ∧
      (s'.run (.justify 2 1)).1.snapshot = (s.run (.justify 2 1)).1.snapshot := by
  intro s s'
  have hs : Reachable {} s := reachable_iff_exists_runAll.mpr ⟨_, rfl⟩
  have hs' : Reachable {} s' := reachable_iff_exists_runAll.mpr ⟨_, rfl⟩
  obtain ⟨hrender, hrun⟩ := run_eq_of_snapshot_eq hs hs' (by decide +kernel) (by decide +kernel)
  obtain ⟨hreply, hsnapshot, -⟩ := hrun (.justify 2 1) (by simp) (by simp)
  have hdone : (s.run (.justify 2 1)).2 = .ok .done := by decide +kernel
  exact ⟨by decide +kernel, by decide +kernel, hrender, hdone, hreply.trans hdone, hsnapshot⟩

def asksHistory : Instruction → Bool
  | .command .undo | .command .redo | .history => true
  | _ => false

def said (c : Command) : Except Refusal Reply → Except LineError String
  | .ok reply => .ok (Instruction.answer c reply)
  | .error e => .error (.refused e)

theorem run_command (s : Session) (c : Command) :
    Instruction.run s (.command c) = ((s.run c).1, said c (s.run c).2) := by
  rw [Instruction.run]
  rcases s.run c with ⟨s₁, e | reply⟩ <;> rfl

/-- An instruction that does not ask for the history has the same effect and the same answer. -/
theorem Mirrors.instruction (h : Mirrors s s') (hs : s.sheet.Coherent) {i : Instruction}
    (hask : asksHistory i = false) :
    Mirrors (i.run s).1 (i.run s').1 ∧ (i.run s').2 = (i.run s).2 := by
  cases i with
  | command c =>
    have hundo : c ≠ .undo := fun hc => by simp [hc, asksHistory] at hask
    have hredo : c ≠ .redo := fun hc => by simp [hc, asksHistory] at hask
    obtain ⟨hnext, hreply⟩ := h.run hs hundo hredo
    rw [run_command, run_command]
    exact ⟨hnext, congrArg (said c) hreply⟩
  | print =>
    refine ⟨h, ?_⟩
    simp only [Instruction.run, h.render, h.currentNumber hs]
  | history => simp [asksHistory] at hask
  | help => exact ⟨h, rfl⟩

theorem Reachable.instruction {config : Config} (hs : Reachable config s) (i : Instruction) :
    Reachable config (i.run s).1 := by
  cases i with
  | command c =>
    rw [run_command]
    exact hs.run c
  | print | history | help => exact hs

theorem runTyped_of_active (s : Session) {typed : List Char}
    (hactive : Script.isActive (Text.trim typed) = true) :
    Script.runTyped s typed = ((Script.runLine s (Text.trim typed)).1,
      Script.transcript (Text.trim typed) (Script.runLine s (Text.trim typed)).2) := if_pos hactive

theorem runTyped_of_inactive (s : Session) {typed : List Char}
    (hactive : ¬Script.isActive (Text.trim typed) = true) : Script.runTyped s typed = (s, "") :=
  if_neg hactive

/-- A line of a script that does not ask for the history shows the same in both sessions. -/
theorem Mirrors.runTyped (h : Mirrors s s') (hs : s.sheet.Coherent) {typed : List Char}
    (hask : ∀ i, Instruction.parse (Text.trim typed) = .ok i → asksHistory i = false) :
    Mirrors (Script.runTyped s typed).1 (Script.runTyped s' typed).1 ∧
      (Script.runTyped s' typed).2 = (Script.runTyped s typed).2 := by
  by_cases hactive : Script.isActive (Text.trim typed) = true
  · rw [runTyped_of_active s hactive, runTyped_of_active s' hactive]
    unfold Script.runLine
    cases hparse : Instruction.parse (Text.trim typed) with
    | error e => exact ⟨h, rfl⟩
    | ok i =>
      obtain ⟨hnext, hsaid⟩ := h.instruction hs (hask i hparse)
      exact ⟨hnext, congrArg (Script.transcript _) hsaid⟩
  · rw [runTyped_of_inactive s hactive, runTyped_of_inactive s' hactive]
    exact ⟨h, rfl⟩

/-- Typing stays within the reachable sessions. -/
theorem Reachable.runTyped {config : Config} (hs : Reachable config s) (typed : List Char) :
    Reachable config (Script.runTyped s typed).1 := by
  by_cases hactive : Script.isActive (Text.trim typed) = true
  · rw [runTyped_of_active s hactive]
    unfold Script.runLine
    cases Instruction.parse (Text.trim typed) with
    | error e => exact hs
    | ok i => exact hs.instruction i
  · rw [runTyped_of_inactive s hactive]
    exact hs

/-- What is seen of a session decides what any script shows that does not ask for the history. -/
theorem shown_eq_of_snapshot_eq {config : Config} (hs : Reachable config s)
    (hs' : Reachable config s') (hsnapshot : s'.snapshot = s.snapshot)
    (hcurrent : s'.currentNumber = s.currentNumber) {lines : List (List Char)}
    (hask : ∀ typed ∈ lines, ∀ i, Instruction.parse (Text.trim typed) = .ok i →
      asksHistory i = false) :
    (Script.runLines s' lines).2 = (Script.runLines s lines).2 := by
  have h := hs.mirrors hs' hsnapshot hcurrent
  clear hs' hsnapshot hcurrent
  induction lines generalizing s s' with
  | nil => rfl
  | cons typed rest ih =>
    obtain ⟨hnext, hshown⟩ := h.runTyped hs.coherent (hask typed List.mem_cons_self)
    have hrest := ih (hs.runTyped typed) (fun t ht => hask t (List.mem_cons_of_mem typed ht)) hnext
    simp only [Script.runLines, hshown, hrest]

end TruthTrees.Session
