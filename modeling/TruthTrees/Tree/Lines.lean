import TruthTrees.Tree.Justify

/-! Adding, deleting and restoring lines. A deleted line remembers its place and its links, so that
restoring it gives them back as far as the rest of the tree still allows. -/
namespace TruthTrees.Tree

def premiseCount (t : Tree) : Nat :=
  (t.lines.order.takeWhile (fun i => (t.line i).justification = .premise)).length

/-- Adds a premise to the root, behind the premises that are already there. -/
def addPremise (t : Tree) (φ : Formula) : Nat × Tree :=
  let i := t.lines.size
  let new : Line := { formula := φ, node := root, justification := .premise, valid := true }
  let t := { t with lines := t.lines.insert t.premiseCount new }
  (i, t.modifyNode root (fun n => { n with lines := t.lines.place i n.lines }))

def addLine (t : Tree) (n : Nat) (φ : Formula) : Except Refusal (Nat × Tree) := do
  let _ ← t.liveNode n
  let i := t.lines.size
  let new : Line := { formula := φ, node := n, justification := .missing }
  let t := { t with lines := t.lines.push new }
  return (i, t.modifyNode n (fun nd => { nd with lines := nd.lines ++ [i] }))

/-- Takes a line that is to be deleted out of the children of the line it rests on. A checkmark that
this line made complete is taken back. The deleted line itself still names its parent. -/
def leaveParent (t : Tree) (i : Nat) : Tree :=
  match (t.line i).justification with
  | .line p =>
    let t := t.removeChild p i
    let t := if (t.line p).valid then t.modifyLine i (fun l => { l with valid := false }) else t
    if (t.line i).parentCheckmarked then t.setCheckmarked p false else t
  | _ => t

/-- Leaves the lines that rest on a line without justification. The line itself still names them. -/
def orphanChildren (t : Tree) (i : Nat) : Tree :=
  t.modifyLines (t.line i).children
    (fun l => { l with justification := .missing, parentCheckmarked := false })

def detach (t : Tree) (i : Nat) : Tree :=
  let t := ((t.leaveParent i).orphanChildren i).setDependentsValid i false
  { t with lines := t.lines.withdraw i }

/-- Enters a restored line among the children of the line it rested on, if that is in the tree. -/
def rejoinParent (t : Tree) (i : Nat) : Tree :=
  match (t.line i).justification with
  | .line p =>
    if t.lines.isLive p then t.placeChild p i
    else t.modifyLine i (fun l => { l with justification := .missing })
  | _ => t

/-- Lets those lines rest on a restored line again that did so before and rest on nothing now. -/
def adoptChildren (t : Tree) (i : Nat) : Tree :=
  let kept := (t.line i).children.filter
    (fun c => t.lines.isLive c && (t.line c).justification = .missing)
  let t := t.modifyLines kept (fun l => { l with justification := .line i })
  t.modifyLine i (fun l => { l with children := kept })

/-- Passes the checkmarks of a restored line on: its own to the lines that rest on it, and the one
that was taken back when it was deleted to the line it rests on. -/
def restoreCheckmarks (t : Tree) (i : Nat) : Tree :=
  let t := t.setCheckmarked i (t.line i).checkmarked
  match (t.line i).parentCheckmarked, (t.line i).justification with
  | true, .line p => t.setCheckmarked p true
  | _, _ => t

def reattach (t : Tree) (i : Nat) : Tree :=
  (((t.rejoinParent i).adoptChildren i).revalidate i).restoreCheckmarks i

def redisplay (t : Tree) (i : Nat) : Tree :=
  { t with lines := t.lines.reinstate i }

def deleteLine (t : Tree) (i : Nat) : Except Refusal Tree := do
  let l ← t.liveLine i
  if l.branches ≠ [] then
    .error (.hasBranches (t.lineNumber i) (l.branches.map t.nodeNumber))
  else
    let t := t.modifyNode l.node (fun n => { n with lines := n.lines.filter (· ≠ i) })
    return t.detach i

/-- Puts a deleted line back into its node, at the place it had. -/
def restoreLine (t : Tree) (i : Nat) : Except Refusal Tree :=
  match t.lines.get? i with
  | none => .error (.unknownLine i)
  | some l =>
    if t.lines.isLive i then .error (.lineNotDeleted i)
    else do
      let _ ← t.liveNode l.node
      let t := t.redisplay i
      let t := t.modifyNode l.node (fun n => { n with lines := t.lines.place i n.lines })
      return t.reattach i

end TruthTrees.Tree
