import TruthTrees.History
import TruthTrees.Tree.Snapshot

/-! Sessions: a user works on a sheet by commands that name lines and nodes by number. A command that
changes the sheet is recorded, so that it can be undone. -/
namespace TruthTrees

structure Config where
  /-- How many steps can be undone at most. -/
  historyLimit : Option Nat := none
  /-- Whether a tree is finished only when all lines branched on are checkmarked. -/
  requireCheckmarks : Bool := true
deriving DecidableEq, Repr

structure Session where
  sheet : Sheet
  history : History
  config : Config
deriving DecidableEq, Repr

/-- What a user can ask for. All numbers are displayed ones. -/
inductive Command where
  | addPremise (text : String)
  | addLine (text : String)
  | deleteLine (line : Nat)
  | justify (child parent : Nat)
  | checkmark (line : Nat)
  | branch (line : Nat)
  | deleteBranch
  | goTo (node : Nat)
  | close (first second : Nat)
  | reopen (node : Nat)
  | markOpen
  | checkAllClosed
  | checkAnyOpen
  | undo
  | redo
  | reset
deriving DecidableEq, Repr

inductive Reply where
  | done
  /-- The number of a new line. -/
  | line (number : Nat)
  /-- The numbers of two new nodes. -/
  | nodes (left right : Nat)
  /-- What was undone or made again. -/
  | description (text : String)
deriving DecidableEq, Repr

namespace Session

def start (config : Config) : Session := ⟨.empty, .empty config.historyLimit, config⟩

def tree (s : Session) : Tree := s.sheet.tree

def current (s : Session) : Nat := s.sheet.current

def currentNumber (s : Session) : Nat := s.sheet.currentNumber

def snapshot (s : Session) : Snapshot := s.tree.snapshot

def lineWithNumber (s : Session) (number : Nat) : Except Refusal Nat :=
  match s.tree.lines.withNumber? number with
  | some i => .ok i
  | none => .error (.unknownLine number)

def nodeWithNumber (s : Session) (number : Nat) : Except Refusal Nat :=
  match s.tree.nodes.withNumber? number with
  | some n => .ok n
  | none => .error (.unknownNode number)

def requireNotClosed (s : Session) (n : Nat) : Except Refusal Unit :=
  if (s.tree.node n).closed then .error (.nodeClosed (s.tree.nodeNumber n)) else .ok ()

def recorded (s : Session) (sheet : Sheet) (edit : Edit) (description : String) : Session :=
  { s with sheet := sheet, history := s.history.record ⟨edit, description⟩ }

def recordedTree (s : Session) (tree : Tree) (edit : Edit) (description : String) : Session :=
  s.recorded { s.sheet with tree := tree } edit description

def addPremise (s : Session) (text : String) : Except Refusal (Session × Reply) := do
  let φ ← Formula.ofText text
  s.requireNotClosed Tree.root
  let (i, t) := s.tree.addPremise φ
  let number := t.lineNumber i
  return (s.recordedTree t (.insert i) s!"add premise {φ.text} as {number}", .line number)

def addLine (s : Session) (text : String) : Except Refusal (Session × Reply) := do
  let φ ← Formula.ofText text
  s.requireNotClosed s.current
  let (i, t) ← s.tree.addLine s.current φ
  let number := t.lineNumber i
  return (s.recordedTree t (.insert i)
    s!"add formula {φ.text} as {number} in node {s.currentNumber}", .line number)

def deleteLine (s : Session) (number : Nat) : Except Refusal (Session × Reply) := do
  let i ← s.lineWithNumber number
  let text := (s.tree.line i).formula.text
  let t ← s.tree.deleteLine i
  return (s.recordedTree t (.remove i) s!"delete formula {number} ({text})", .done)

/-- The lines with two numbers, if the first may be made to rest on the second. -/
def justifiable (s : Session) (child parent : Nat) : Except Refusal (Nat × Nat) := do
  let c ← s.lineWithNumber child
  let p ← s.lineWithNumber parent
  (s.tree.checkJustify c p).mapError .violation
  return (c, p)

/-- Makes a line rest on another one. What was done before a refusal stays done. -/
def justify (s : Session) (child parent : Nat) : Session × Except Refusal Reply :=
  match s.justifiable child parent with
  | .error e => (s, .error e)
  | .ok (c, p) =>
    let before := (s.tree.line c).justification.parent?
    match s.tree.tryLink p c with
    | (t, .error e) => ({ s with sheet := { s.sheet with tree := t } }, .error e)
    | (t, .ok ()) =>
      (s.recordedTree t (.justify c before (some p)) s!"justify {child} by {parent}", .ok .done)

def checkmark (s : Session) (number : Nat) : Except Refusal (Session × Reply) := do
  let i ← s.lineWithNumber number
  let t ← s.tree.checkmark i
  return (s.recordedTree t (.checkmark i true) s!"checkmark {number}", .done)

def branch (s : Session) (number : Nat) : Except Refusal (Session × Reply) := do
  let i ← s.lineWithNumber number
  s.requireNotClosed s.current
  if !s.tree.inAncestry s.current i then
    .error (.violation (.outsideAncestry number s.currentNumber))
  else
    let ((l, r), t) ← s.tree.branch s.current i
    let left := t.nodeNumber l
    let right := t.nodeNumber r
    return (s.recordedTree t (.graft s.current (l, r))
      s!"branch node {s.currentNumber} on {number} into {left} and {right}", .nodes left right)

/-- Deletes the branches below the current node. What was done before a refusal stays done. -/
def deleteBranch (s : Session) : Session × Except Refusal Reply :=
  match s.tree.deleteBranch s.current with
  | (t, .error e) => ({ s with sheet := { s.sheet with tree := t } }, .error e)
  | (t, .ok pair) =>
    (s.recordedTree t (.prune s.current pair)
      s!"delete branch of node {t.nodeNumber s.current}", .ok .done)

def goTo (s : Session) (number : Nat) : Except Refusal (Session × Reply) := do
  let n ← s.nodeWithNumber number
  return (s.recorded { s.sheet with current := n } (.goTo s.current n)
    s!"go to node {number}", .done)

def close (s : Session) (first second : Nat) : Except Refusal (Session × Reply) := do
  let i ← s.lineWithNumber first
  let j ← s.lineWithNumber second
  s.requireNotClosed s.current
  let t ← s.tree.close s.current i j
  return (s.recordedTree t (.close s.current true)
    s!"close node {s.currentNumber} by {first} and {second}", .done)

def reopen (s : Session) (number : Nat) : Except Refusal (Session × Reply) := do
  let n ← s.nodeWithNumber number
  if !(s.tree.node n).closed then .error (.violation (.notClosed number))
  else
    return (s.recordedTree (s.tree.setClosed n false) (.close n false)
      s!"reopen node {number}", .done)

def markOpen (s : Session) : Except Refusal (Session × Reply) := do
  let t ← s.tree.markOpen s.current
  return (s.recordedTree t (.markOpen s.current true)
    s!"mark node {s.currentNumber} open", .done)

def checkAllClosed (s : Session) : Except Refusal (Session × Reply) := do
  (s.tree.checkAllClosed s.config.requireCheckmarks).mapError .violation
  return (s, .done)

def checkAnyOpen (s : Session) : Except Refusal (Session × Reply) := do
  s.tree.checkAnyOpen.mapError .violation
  return (s, .done)

/-- Takes the newest step back. A step that cannot be taken back stays the newest. -/
def undo (s : Session) : Session × Except Refusal Reply :=
  match s.history.takeApplied? with
  | none => (s, .error .nothingToUndo)
  | some (step, h) =>
    match step.edit.inverse.apply s.sheet with
    | (sheet, .error e) => ({ s with sheet := sheet, history := h.pushApplied step }, .error e)
    | (sheet, .ok ()) =>
      ({ s with sheet := sheet, history := h.pushUndone step },
        .ok (.description step.description))

/-- Makes the step again that was undone last. A step that cannot be made again stays undone. -/
def redo (s : Session) : Session × Except Refusal Reply :=
  match s.history.takeUndone? with
  | none => (s, .error .nothingToRedo)
  | some (step, h) =>
    match step.edit.apply s.sheet with
    | (sheet, .error e) => ({ s with sheet := sheet, history := h.pushUndone step }, .error e)
    | (sheet, .ok ()) =>
      ({ s with sheet := sheet, history := h.pushApplied step },
        .ok (.description step.description))

def reset (s : Session) : Session := start s.config

/-- The session after a command that was carried out, or the same session when it was refused. -/
def settle (s : Session) : Except Refusal (Session × Reply) → Session × Except Refusal Reply
  | .ok (s', reply) => (s', .ok reply)
  | .error e => (s, .error e)

def run (s : Session) : Command → Session × Except Refusal Reply
  | .addPremise text => s.settle (s.addPremise text)
  | .addLine text => s.settle (s.addLine text)
  | .deleteLine number => s.settle (s.deleteLine number)
  | .justify child parent => s.justify child parent
  | .checkmark number => s.settle (s.checkmark number)
  | .branch number => s.settle (s.branch number)
  | .deleteBranch => s.deleteBranch
  | .goTo number => s.settle (s.goTo number)
  | .close first second => s.settle (s.close first second)
  | .reopen number => s.settle (s.reopen number)
  | .markOpen => s.settle s.markOpen
  | .checkAllClosed => s.settle s.checkAllClosed
  | .checkAnyOpen => s.settle s.checkAnyOpen
  | .undo => s.undo
  | .redo => s.redo
  | .reset => (s.reset, .ok .done)

end Session

end TruthTrees
