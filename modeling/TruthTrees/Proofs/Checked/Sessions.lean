import TruthTrees.Proofs.Checked.Rules
import TruthTrees.Proofs.Session.Timeline

/-! Sessions whose trees are kept in memory. Every command is carried out with checked steps, down
to the numbers that are read for a description or a refusal. In a session that can come about no
step goes wrong and every walk ends, whatever the command is. -/
namespace TruthTrees.Checked

noncomputable section

def settle (s : Sheet) (x : Attempt Tree) : Option (Sheet × Except Refusal Unit) := do
  let outcome ← x.run
  return Edit.settle s outcome

/-- Makes an edit. A pair of branches that is pruned has to be the recorded one. -/
def apply (s : Sheet) : Edit → Option (Sheet × Except Refusal Unit)
  | .insert i => settle s (restoreLine s.tree i)
  | .remove i => settle s (deleteLine s.tree i)
  | .graft n pair => do
    let (t, outcome) ← restoreBranch s.tree n pair
    return ({ s with tree := t }, outcome)
  | .prune n pair => do
    match ← deleteBranch s.tree n with
    | (t, .error e) => return ({ s with tree := t }, .error e)
    | (t, .ok pruned) =>
      if pruned = pair then
        return (⟨t, if s.current = pair.1 ∨ s.current = pair.2 then n else s.current⟩, .ok ())
      else none
  | .justify c _ (some p) => settle s (link s.tree p c)
  | .justify c _ none => settle s (unlink s.tree c)
  | .checkmark i checked => do
    let t ← setCheckmarked s.tree i checked
    return ({ s with tree := t }, .ok ())
  | .close n closed => do
    let t ← setClosed s.tree n closed
    return ({ s with tree := t }, .ok ())
  | .markOpen n isOpen => do
    let t ← setOpen s.tree n isOpen
    return ({ s with tree := t }, .ok ())
  | .goTo _ after => some ({ s with current := after }, .ok ())

section

variable {e : Edit} {p s : Sheet}

/-- An edit that does no harm still does none once its outcome is settled. -/
theorem settle_eq {x : Attempt Tree} {y : Except Refusal Tree} (h : x.run = some y) (s : Sheet) :
    settle s x = some (Edit.settle s y) := by
  rw [settle, h]
  rfl

/-- A branch that was deleted is grafted back without harm. -/
theorem apply_graft {t u : Tree} {n l m : Nat} (h : t.Coherent)
    (hok : t.deleteBranch n = (u, .ok (l, m))) :
    apply ⟨u, n⟩ (.graft n (l, m)) = some ((Edit.graft n (l, m)).apply ⟨u, n⟩) := by
  simp only [apply, Edit.apply, restoreBranch_eq h hok, Option.bind_eq_bind, Option.bind_some]
  rfl

/-- Pruning the pair that is there meets the expectation. -/
theorem apply_prune {t u : Tree} {n l m : Nat} (h : t.Coherent)
    (hok : t.deleteBranch n = (u, .ok (l, m))) :
    apply ⟨t, n⟩ (.prune n (l, m)) = some ((Edit.prune n (l, m)).apply ⟨t, n⟩) := by
  simp only [apply, Edit.apply, deleteBranch_eq h, hok, Option.bind_eq_bind, Option.bind_some]
  rfl

theorem apply_checkmark (h : s.tree.Linked) {i : Nat} (hi : s.tree.lines.isLive i = true)
    (b : Bool) : apply s (.checkmark i b) = some ((Edit.checkmark i b).apply s) := by
  have hmark := setCheckmarked_eq (Register.lt_size_of_isLive hi)
    (fun c hc => h.lt_size_of_mem_children hi hc) b
  simp only [apply, hmark, Option.bind_eq_bind, Option.bind_some]
  rfl

theorem apply_close {n : Nat} (hn : n < s.tree.nodes.size) (b : Bool) :
    apply s (.close n b) = some ((Edit.close n b).apply s) := by
  simp only [apply, setClosed, modifyNode_eq hn, Option.bind_eq_bind, Option.bind_some]
  rfl

theorem apply_markOpen {n : Nat} (hn : n < s.tree.nodes.size) (b : Bool) :
    apply s (.markOpen n b) = some ((Edit.markOpen n b).apply s) := by
  simp only [apply, setOpen, modifyNode_eq hn, Option.bind_eq_bind, Option.bind_some]
  rfl

/-- An edit that leads somewhere is made without harm. -/
theorem apply_eq (h : e.Leads p s) (hp : p.Coherent) (hs : s.Coherent) :
    apply p e = some (e.apply p) := by
  cases h with
  | insert h => exact settle_eq (restoreLine_eq hs.tree h) _
  | remove h => exact settle_eq (deleteLine_eq hp.tree _) _
  | graft h => exact apply_graft hs.tree h
  | prune h => exact apply_prune hp.tree h
  | justify hbefore hsupport =>
    rw [Edit.apply_link]
    exact settle_eq (link_eq hp.tree.linked hbefore hsupport) _
  | checkmark hi => exact apply_checkmark hp.tree.linked hi _
  | close hm => exact apply_close (Register.lt_size_of_isLive hm) _
  | markOpen hm => exact apply_markOpen (Register.lt_size_of_isLive hm) _
  | goTo => rfl

/-- An edit that led somewhere is taken back without harm. -/
theorem apply_inverse_eq (h : e.Leads p s) (hp : p.Coherent) (hs : s.Coherent) :
    apply s e.inverse = some (e.inverse.apply s) := by
  cases h with
  | insert h => exact settle_eq (deleteLine_eq hs.tree _) _
  | remove h => exact settle_eq (restoreLine_eq hp.tree h) _
  | graft h => exact apply_prune hs.tree h
  | prune h => exact apply_graft hp.tree h
  | @justify t q c n hbefore hsupport =>
    have hrewired := hp.tree.linked.rewired_relink hbefore hsupport
    have hnow : (t.relink q c).support c ≠ .premise := by
      rw [hrewired.support, if_pos rfl]
      simp
    cases hc : t.support c with
    | missing =>
      dsimp only [Edit.inverse, Justification.parent?]
      rw [Edit.apply_unlink]
      exact settle_eq (unlink_eq hrewired.linked c) _
    | premise => exact absurd hc hsupport
    | line q' =>
      have hold : (t.relink q c).Before q' c := by
        unfold Tree.Before
        rw [hrewired.relinked.order]
        exact hp.tree.linked.parent c q' (hbefore.right_live hp.tree.linked.ordered) hc
      dsimp only [Edit.inverse, Justification.parent?]
      rw [Edit.apply_link]
      exact settle_eq (link_eq hrewired.linked hold hnow) _
  | @checkmark t i n b hi =>
    have hr : Tree.Relinked t (t.setCheckmarked i b) := (Tree.Relinked.refl t).setCheckmarked i b
    exact apply_checkmark hs.tree.linked ((hr.isLive i).trans hi) _
  | @close t m n b hm =>
    have hsize : (t.setClosed m b).nodes.size = t.nodes.size := Register.size_modify _ _ _
    exact apply_close (hsize ▸ Register.lt_size_of_isLive hm) _
  | @markOpen t m n b hm =>
    have hsize : (t.setOpen m b).nodes.size = t.nodes.size := Register.size_modify _ _ _
    exact apply_markOpen (hsize ▸ Register.lt_size_of_isLive hm) _
  | goTo => rfl

end

def requireNotClosed (s : Session) (n : Nat) : Attempt Unit := do
  let nd ← node s.tree n
  if nd.closed then
    let k ← number s.tree.nodes n
    throw (.nodeClosed k)
  else return ()

def runAddPremise (s : Session) (text : String) : Attempt (Session × Reply) := do
  let φ ← settled (Formula.ofText text)
  requireNotClosed s Tree.root
  let (i, t) ← addPremise s.tree φ
  let k ← number t.lines i
  let l ← line t i
  return (s.recordedTree t (.insert i) s!"add premise {l.formula.text} as {k}", .line k)

def runAddLine (s : Session) (text : String) : Attempt (Session × Reply) := do
  let φ ← settled (Formula.ofText text)
  requireNotClosed s s.current
  let (i, t) ← addLine s.tree s.current φ
  let k ← number t.lines i
  let l ← line t i
  let m ← number t.nodes s.current
  return (s.recordedTree t (.insert i) s!"add formula {l.formula.text} as {k} in node {m}", .line k)

def runDeleteLine (s : Session) (k : Nat) : Attempt (Session × Reply) := do
  let i ← settled (s.lineWithNumber k)
  let l ← line s.tree i
  let t ← deleteLine s.tree i
  return (s.recordedTree t (.remove i) s!"delete formula {k} ({l.formula.text})", .done)

def runJustify (s : Session) (child parent : Nat) : Attempt (Session × Reply) := do
  let c ← settled (s.lineWithNumber child)
  let p ← settled (s.lineWithNumber parent)
  obeying (checkJustify s.tree c p)
  let l ← line s.tree c
  let t ← link s.tree p c
  return (s.recordedTree t (.justify c l.justification.parent? (some p))
    s!"justify {child} by {parent}", .done)

def runCheckmark (s : Session) (k : Nat) : Attempt (Session × Reply) := do
  let i ← settled (s.lineWithNumber k)
  let t ← checkmark s.tree i
  return (s.recordedTree t (.checkmark i true) s!"checkmark {k}", .done)

def runBranch (s : Session) (k : Nat) : Attempt (Session × Reply) := do
  let i ← settled (s.lineWithNumber k)
  requireNotClosed s s.current
  if !(← inAncestry s.tree s.current i) then
    let m ← number s.tree.nodes s.current
    throw (.violation (.outsideAncestry k m))
  else
    let ((l, r), t) ← branch s.tree s.current i
    let left ← number t.nodes l
    let right ← number t.nodes r
    let m ← number t.nodes s.current
    return (s.recordedTree t (.graft s.current (l, r))
      s!"branch node {m} on {k} into {left} and {right}", .nodes left right)

def runDeleteBranch (s : Session) : Option (Session × Except Refusal Reply) := do
  match ← deleteBranch s.tree s.current with
  | (t, .error e) => return ({ s with sheet := { s.sheet with tree := t } }, .error e)
  | (t, .ok pair) =>
    let m ← number t.nodes s.current
    return (s.recordedTree t (.prune s.current pair) s!"delete branch of node {m}", .ok .done)

def runClose (s : Session) (first second : Nat) : Attempt (Session × Reply) := do
  let i ← settled (s.lineWithNumber first)
  let j ← settled (s.lineWithNumber second)
  requireNotClosed s s.current
  let t ← close s.tree s.current i j
  let m ← number t.nodes s.current
  return (s.recordedTree t (.close s.current true)
    s!"close node {m} by {first} and {second}", .done)

def runReopen (s : Session) (k : Nat) : Attempt (Session × Reply) := do
  let n ← settled (s.nodeWithNumber k)
  let nd ← node s.tree n
  if !nd.closed then throw (.violation (.notClosed k))
  else
    let t ← setClosed s.tree n false
    return (s.recordedTree t (.close n false) s!"reopen node {k}", .done)

def runMarkOpen (s : Session) : Attempt (Session × Reply) := do
  let t ← markOpen s.tree s.current
  let m ← number t.nodes s.current
  return (s.recordedTree t (.markOpen s.current true) s!"mark node {m} open", .done)

def runCheckAllClosed (s : Session) : Attempt (Session × Reply) := do
  obeying (checkAllClosed s.tree s.config.requireCheckmarks)
  return (s, .done)

def runCheckAnyOpen (s : Session) : Attempt (Session × Reply) := do
  obeying (checkAnyOpen s.tree)
  return (s, .done)

def runUndo (s : Session) : Option (Session × Except Refusal Reply) := do
  match s.history.takeApplied? with
  | none => return (s, .error .nothingToUndo)
  | some (step, h) =>
    match ← apply s.sheet step.edit.inverse with
    | (sheet, .error e) =>
      return ({ s with sheet := sheet, history := h.pushApplied step }, .error e)
    | (sheet, .ok ()) =>
      return ({ s with sheet := sheet, history := h.pushUndone step },
        .ok (.description step.description))

def runRedo (s : Session) : Option (Session × Except Refusal Reply) := do
  match s.history.takeUndone? with
  | none => return (s, .error .nothingToRedo)
  | some (step, h) =>
    match ← apply s.sheet step.edit with
    | (sheet, .error e) =>
      return ({ s with sheet := sheet, history := h.pushUndone step }, .error e)
    | (sheet, .ok ()) =>
      return ({ s with sheet := sheet, history := h.pushApplied step },
        .ok (.description step.description))

def answer (s : Session) (x : Attempt (Session × Reply)) :
    Option (Session × Except Refusal Reply) := do
  let outcome ← x.run
  return s.settle outcome

def run (s : Session) : Command → Option (Session × Except Refusal Reply)
  | .addPremise text => answer s (runAddPremise s text)
  | .addLine text => answer s (runAddLine s text)
  | .deleteLine k => answer s (runDeleteLine s k)
  | .justify child parent => answer s (runJustify s child parent)
  | .checkmark k => answer s (runCheckmark s k)
  | .branch k => answer s (runBranch s k)
  | .deleteBranch => runDeleteBranch s
  | .goTo k => answer s (settled (s.goTo k))
  | .close first second => answer s (runClose s first second)
  | .reopen k => answer s (runReopen s k)
  | .markOpen => answer s (runMarkOpen s)
  | .checkAllClosed => answer s (runCheckAllClosed s)
  | .checkAnyOpen => answer s (runCheckAnyOpen s)
  | .undo => runUndo s
  | .redo => runRedo s
  | .reset => some (s.reset, .ok .done)

section

variable {s : Session}

theorem requireNotClosed_eq {n : Nat} (hn : n < s.tree.nodes.size) :
    (requireNotClosed s n).run = some (s.requireNotClosed n) := by
  unfold requireNotClosed Session.requireNotClosed
  rw [ok_bind (run_lift (node_eq hn))]
  by_cases hclosed : (s.tree.node n).closed = true
  · rw [if_pos hclosed, if_pos hclosed, ok_bind (run_lift (number_eq hn))]
    rfl
  · rw [if_neg hclosed, if_neg hclosed]
    rfl

theorem isLive_of_lineWithNumber (h : s.sheet.Coherent) {k i : Nat}
    (hi : s.lineWithNumber k = .ok i) : s.tree.lines.isLive i = true :=
  Session.isLive_of_withNumber? h.tree.linked.ordered (Session.lineWithNumber_ok_iff.mp hi)

theorem number_modify_eq {r : Register Node} {n m : Nat} {f : Node → Node} (hm : m < r.size) :
    number (r.modify n f) m = some (r.number m) := by
  rw [number_eq (by rw [Register.size_modify]; exact hm), Register.number_modify]

/-- New nodes are displayed behind the others, which keep their numbers. -/
theorem number_forked {r : Register Node} (h : r.Ordered) {n : Nat} (hn : r.isLive n = true)
    (i : Nat) : (Tree.forked r n i).number n = r.number n := by
  have hlive : (Tree.forked r n i).isLive n = true :=
    (Tree.isLive_forked r n i n).mpr (Or.inr hn)
  rw [(Tree.ordered_forked h n i).numbered n hlive, h.numbered n hn, Tree.order_forked,
    List.idxOf_append_of_mem ((h.mem_iff n).mpr hn)]

/-- A new line is found under the index that was given out. -/
theorem line_of_insert {t u : Tree} {k : Nat} {new : Line}
    (h : u.lines = t.lines.insert k new) :
    t.lines.size < u.lines.size ∧ u.line t.lines.size = new := by
  unfold Tree.line
  rw [h, Register.size_insert, Register.get_insert, if_pos rfl]
  exact ⟨Nat.lt_succ_self _, rfl⟩

/-- Adding a premise does no harm while there are indices left. -/
theorem runAddPremise_eq (h : s.sheet.Coherent) (hsize : s.tree.lines.size < indexLimit)
    (text : String) : (runAddPremise s text).run = some (s.addPremise text) := by
  apply bind_eq rfl
  intro φ _
  have hroot := Register.lt_size_of_isLive h.tree.store.rooted.root_live
  apply bind_eq (requireNotClosed_eq hroot)
  intro _ _
  have hchecked : addPremise s.tree φ = some (s.tree.addPremise φ) :=
    addPremise_eq h.tree.store hsize φ
  obtain ⟨hlt, hline⟩ := line_of_insert (t := s.tree) (u := (s.tree.addPremise φ).2) rfl
  rw [ok_bind (run_lift hchecked)]
  obtain ⟨i, u, hadd⟩ : ∃ i u, s.tree.addPremise φ = (i, u) := ⟨_, _, rfl⟩
  obtain rfl : s.tree.lines.size = i := congrArg Prod.fst hadd
  rw [hadd] at hlt hline ⊢
  rw [ok_bind (run_lift (number_eq hlt)), ok_bind (run_lift (line_eq hlt)), hline]
  rfl

theorem runAddLine_eq (h : s.sheet.Coherent) (hsize : s.tree.lines.size < indexLimit)
    (text : String) : (runAddLine s text).run = some (s.addLine text) := by
  apply bind_eq rfl
  intro φ _
  have hn := Register.lt_size_of_isLive h.current
  apply bind_eq (requireNotClosed_eq hn)
  intro _ _
  apply bind_eq (addLine_eq hsize s.current φ)
  rintro ⟨i, u⟩ hadd
  obtain ⟨-, rfl, hu⟩ := Tree.addLine_ok_iff.mp hadd
  obtain ⟨hlt, hline⟩ := line_of_insert (t := s.tree) (u := s.tree.withNewLine s.current φ)
    (by rw [Tree.withNewLine_eq, Tree.lines_modifyNode])
  have hnumber : number u.nodes s.current = some s.currentNumber := by
    rw [hu]
    exact number_modify_eq hn
  rw [← hu] at hlt hline
  dsimp only
  rw [ok_bind (run_lift (number_eq hlt)), ok_bind (run_lift (line_eq hlt)), hline,
    ok_bind (run_lift hnumber)]
  rfl

theorem runDeleteLine_eq (h : s.sheet.Coherent) (k : Nat) :
    (runDeleteLine s k).run = some (s.deleteLine k) := by
  apply bind_eq rfl
  intro i hi
  have hlive := isLive_of_lineWithNumber h hi
  rw [ok_bind (run_lift (line_eq (Register.lt_size_of_isLive hlive)))]
  apply bind_eq (deleteLine_eq h.tree i)
  intro t _
  rfl

/-- Justifying a line does no harm, whichever lines it is asked of. -/
theorem runJustify_eq (h : s.sheet.Coherent) (child parent : Nat) :
    (runJustify s child parent).run = some (s.justified child parent) := by
  unfold Session.justified Session.justifiable
  simp only [bind_assoc, pure_bind]
  apply bind_eq rfl
  intro c hc
  apply bind_eq rfl
  intro p hp
  have hclive := isLive_of_lineWithNumber h hc
  have hplive := isLive_of_lineWithNumber h hp
  apply bind_eq (run_obeying (checkJustify_eq h.tree.store hclive hplive))
  intro x hx
  obtain ⟨hsupport, hnumber, -⟩ := Tree.checkJustify_ok_iff.mp (Except.mapError_ok_iff.mp hx)
  have hbefore : s.tree.Before p c :=
    (h.tree.linked.ordered.number_lt_iff hplive hclive).mp hnumber
  rw [ok_bind (run_lift (line_eq (Register.lt_size_of_isLive hclive)))]
  apply bind_eq (link_eq h.tree.linked hbefore hsupport)
  intro t _
  rfl

theorem runCheckmark_eq (h : s.sheet.Coherent) (k : Nat) :
    (runCheckmark s k).run = some (s.checkmark k) := by
  apply bind_eq rfl
  intro i _
  apply bind_eq (checkmark_eq h.tree i)
  intro t _
  rfl

/-- In a session with room for two more nodes branching gives the branches that were asked for, and
without room it does no harm. -/
theorem exists_runBranch (h : s.sheet.Coherent) (k : Nat) :
    ∃ result, (runBranch s k).run = some result ∧
      (s.tree.nodes.size + 1 < indexLimit → result = s.branch k) := by
  unfold runBranch Session.branch
  cases hnumber : s.lineWithNumber k with
  | error e => exact ⟨.error e, rfl, fun _ => rfl⟩
  | ok i =>
    have hi := isLive_of_lineWithNumber h hnumber
    have hn : s.current < s.tree.nodes.size := Register.lt_size_of_isLive h.current
    have hancestry : inAncestry s.tree s.current i = some (s.tree.inAncestry s.current i) :=
      inAncestry_eq h.tree.store.rooted h.current (Register.lt_size_of_isLive hi)
    have hclosed := requireNotClosed_eq hn
    rw [ok_bind (x := settled (.ok i)) rfl]
    cases hopen : s.requireNotClosed s.current with
    | error e =>
      rw [hopen] at hclosed
      exact ⟨.error e, error_bind hclosed _, fun _ => rfl⟩
    | ok x =>
      rw [hopen] at hclosed
      rw [ok_bind hclosed, ok_bind (run_lift hancestry)]
      by_cases hin : (!s.tree.inAncestry s.current i) = true
      · rw [if_pos hin, ok_bind (run_lift (number_eq hn))]
        exact ⟨_, rfl, fun _ => (if_pos hin).symm⟩
      · obtain ⟨result, hrun, hbounds, hsame⟩ := exists_branch s.tree s.current i
        rw [if_neg hin]
        rcases result with e | ⟨⟨l, r⟩, u⟩
        · refine ⟨.error e, error_bind hrun _, fun hroom => Eq.symm ((if_neg hin).trans ?_)⟩
          rw [← hsame hroom]
          rfl
        · -- Even an index that wrapped around is the index of a node, whose number can be told.
          obtain ⟨hnu, hl, hr⟩ := hbounds _ _ rfl
          rw [ok_bind hrun]
          dsimp only
          rw [ok_bind (run_lift (number_eq hl)), ok_bind (run_lift (number_eq hr)),
            ok_bind (run_lift (number_eq hnu))]
          refine ⟨_, rfl, fun hroom => Eq.symm ((if_neg hin).trans ?_)⟩
          obtain ⟨-, -, -, -, -, -, hu⟩ := Tree.branch_ok_iff.mp (hsame hroom).symm
          have hsame' : u.nodes.number s.current = s.currentNumber := by
            rw [hu]
            exact number_forked h.tree.store.rooted.ordered h.current i
          rw [← hsame hroom, hsame']
          rfl

theorem runDeleteBranch_eq (h : s.sheet.Coherent) : runDeleteBranch s = some s.deleteBranch := by
  have hchecked : deleteBranch s.tree s.current = some (s.tree.deleteBranch s.current) :=
    deleteBranch_eq h.tree _
  unfold runDeleteBranch Session.deleteBranch
  rw [hchecked, Option.bind_eq_bind, Option.bind_some]
  rcases hdelete : s.tree.deleteBranch s.current with ⟨u, e | ⟨l, r⟩⟩
  · rfl
  · have hsize := Tree.size_nodes_of_deleteBranch hdelete
    have hn : s.current < u.nodes.size := hsize ▸ Register.lt_size_of_isLive h.current
    simp only [number_eq hn]
    rfl

theorem runClose_eq (h : s.sheet.Coherent) (first second : Nat) :
    (runClose s first second).run = some (s.close first second) := by
  apply bind_eq rfl
  intro i _
  apply bind_eq rfl
  intro j _
  have hn := Register.lt_size_of_isLive h.current
  apply bind_eq (requireNotClosed_eq hn)
  intro _ _
  apply bind_eq (close_eq h.tree.store.rooted s.current i j)
  intro u hu
  obtain ⟨-, -, -, -, hu⟩ := Tree.close_ok_iff.mp hu
  have hnumber : number u.nodes s.current = some s.currentNumber := by
    rw [hu]
    exact number_modify_eq hn
  rw [ok_bind (run_lift hnumber)]
  rfl

theorem runReopen_eq (h : s.sheet.Coherent) (k : Nat) :
    (runReopen s k).run = some (s.reopen k) := by
  apply bind_eq rfl
  intro n hn
  have hlt : n < s.tree.nodes.size := Register.lt_size_of_isLive
    (Session.isLive_of_withNumber? h.tree.store.rooted.ordered
      (Session.nodeWithNumber_ok_iff.mp hn))
  rw [ok_bind (run_lift (node_eq hlt))]
  by_cases hclosed : (!(s.tree.node n).closed) = true
  · rw [if_pos hclosed, if_pos hclosed]
    rfl
  · rw [if_neg hclosed, if_neg hclosed, setClosed, ok_bind (run_lift (modifyNode_eq hlt _))]
    rfl

theorem runMarkOpen_eq (h : s.sheet.Coherent) : (runMarkOpen s).run = some s.markOpen := by
  apply bind_eq (markOpen_eq h.tree s.current)
  intro u hu
  obtain ⟨-, -, -, hu⟩ := Tree.markOpen_ok_iff.mp hu
  have hnumber : number u.nodes s.current = some s.currentNumber := by
    rw [hu]
    exact number_modify_eq (Register.lt_size_of_isLive h.current)
  rw [ok_bind (run_lift hnumber)]
  rfl

theorem runCheckAllClosed_eq (h : s.sheet.Coherent) :
    (runCheckAllClosed s).run = some s.checkAllClosed := by
  apply bind_eq (run_obeying (checkAllClosed_eq h.tree.store _))
  intro _ _
  rfl

theorem runCheckAnyOpen_eq (h : s.sheet.Coherent) :
    (runCheckAnyOpen s).run = some s.checkAnyOpen := by
  apply bind_eq (run_obeying (checkAnyOpen_eq h.tree.store.rooted.ordered))
  intro _ _
  rfl

/-- Undoing does no harm, as every step in the history was made from a coherent sheet. -/
theorem runUndo_eq {past future : List Sheet} (h : s.Timeline past future) :
    runUndo s = some s.undo := by
  obtain ⟨hs, hbehind, -, -⟩ := h
  obtain ⟨sheet, ⟨applied, undone, limit⟩, config⟩ := s
  cases hbehind with
  | nil => rfl
  | cons coherent leads rest =>
    simp only [runUndo, Session.undo, History.takeApplied?, apply_inverse_eq leads coherent hs,
      leads.inverse_apply_eq coherent hs, Option.bind_eq_bind, Option.bind_some]
    rfl

/-- Redoing does no harm, as every step ahead was made from a coherent sheet. -/
theorem runRedo_eq {past future : List Sheet} (h : s.Timeline past future) :
    runRedo s = some s.redo := by
  obtain ⟨hs, -, hahead, -⟩ := h
  obtain ⟨sheet, ⟨applied, undone, limit⟩, config⟩ := s
  cases hahead with
  | nil => rfl
  | cons coherent leads rest =>
    simp only [runRedo, Session.redo, History.takeUndone?, apply_eq leads hs coherent,
      leads.apply_eq hs coherent, Option.bind_eq_bind, Option.bind_some]
    rfl

theorem answer_eq {x : Attempt (Session × Reply)} {y : Except Refusal (Session × Reply)}
    (h : x.run = some y) : answer s x = some (s.settle y) := by
  rw [answer, h]
  rfl

/-- Every command but branching does in memory exactly what it should do. -/
theorem run_eq {past future : List Sheet} (h : s.Timeline past future)
    (hsize : s.tree.lines.size < indexLimit) {c : Command} (hc : ∀ k, c ≠ .branch k) :
    run s c = some (s.run c) := by
  have hs := h.coherent
  cases c with
  | addPremise text => exact answer_eq (runAddPremise_eq hs hsize text)
  | addLine text => exact answer_eq (runAddLine_eq hs hsize text)
  | deleteLine k => exact answer_eq (runDeleteLine_eq hs k)
  | justify child parent =>
    rw [Session.run, Session.justify_eq_settle]
    exact answer_eq (runJustify_eq hs child parent)
  | checkmark k => exact answer_eq (runCheckmark_eq hs k)
  | branch k => exact absurd rfl (hc k)
  | deleteBranch => exact runDeleteBranch_eq hs
  | goTo k => exact answer_eq rfl
  | close first second => exact answer_eq (runClose_eq hs first second)
  | reopen k => exact answer_eq (runReopen_eq hs k)
  | markOpen => exact answer_eq (runMarkOpen_eq hs)
  | checkAllClosed => exact answer_eq (runCheckAllClosed_eq hs)
  | checkAnyOpen => exact answer_eq (runCheckAnyOpen_eq hs)
  | undo => exact runUndo_eq h
  | redo => exact runRedo_eq h
  | reset => rfl

end

end

end TruthTrees.Checked

namespace TruthTrees.Session

/-- In a session that can come about no command goes wrong or goes on for ever while indices of
lines fit into 32 bits, and it does what it should do. A branching that takes the last index of a
node and one more does something else, but does not go wrong either. -/
theorem checkedRun_of_reachable {config : Config} {s : Session} (hs : Reachable config s)
    (hlines : s.tree.lines.size < Checked.indexLimit) (c : Command) :
    ∃ result, Checked.run s c = some result ∧
      ((∀ k, c ≠ .branch k) ∨ s.tree.nodes.size + 1 < Checked.indexLimit → result = s.run c) := by
  obtain ⟨-, past, future, htimeline⟩ := hs.timeline
  by_cases hc : ∀ k, c ≠ .branch k
  · exact ⟨s.run c, Checked.run_eq htimeline hlines hc, fun _ => rfl⟩
  · obtain ⟨k, hk⟩ := not_forall.mp hc
    obtain rfl := not_not.mp hk
    obtain ⟨result, hrun, hsame⟩ := Checked.exists_runBranch htimeline.coherent k
    refine ⟨s.settle result, Checked.answer_eq hrun, ?_⟩
    intro hroom
    rw [hsame (hroom.resolve_left hc)]
    rfl

/-- A pair of branches that was deleted together with its line is put back. -/
theorem checkedRun_of_reachable_undo :
    let s := (start {}).runAll [.addPremise "or(a,b)", .branch 1, .goTo 2, .addLine "a",
      .justify 2 1, .goTo 1, .deleteBranch]
    s.tree.nodes.order = [0] ∧ s.tree.lines.size < Checked.indexLimit ∧ ∃ s' reply,
      Checked.run s .undo = some (s', .ok reply) ∧ s'.tree.nodes.order = [0, 1, 2] ∧
        s'.tree.lines.order = [0, 1] := by
  intro s
  have hs : Reachable {} s := reachable_iff_exists_runAll.mpr ⟨_, rfl⟩
  have hlines : s.tree.lines.size < Checked.indexLimit := by decide +kernel
  obtain ⟨result, hrun, hsame⟩ := checkedRun_of_reachable hs hlines .undo
  rw [hsame (Or.inl (by simp))] at hrun
  refine ⟨by decide +kernel, hlines, (s.run .undo).1, .description "delete branch of node 1", ?_⟩
  refine ⟨hrun.trans (congrArg some (Prod.ext rfl ?_)), ?_⟩ <;> decide +kernel

end TruthTrees.Session
