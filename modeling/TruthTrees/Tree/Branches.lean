import TruthTrees.Tree.Lines

/-! Growing, deleting and restoring branches. A deleted node takes its lines along and brings them
back when it is restored. -/
namespace TruthTrees.Tree

def branch (t : Tree) (n : Nat) (i : Nat) : Except Refusal ((Nat × Nat) × Tree) := do
  let nd ← t.liveNode n
  if !nd.isLeaf then .error (.tooManyChildren (t.nodeNumber n))
  else
    let l ← t.liveLine i
    if !l.formula.decompose.branches then .error (.doesNotBranch (t.lineNumber i))
    else
      let left := t.nodes.size
      let right := left + 1
      let new : Node := { stem := some ⟨n, i⟩ }
      let t := { t with nodes := (t.nodes.push new).push new }
      let t := t.modifyNode n (fun nd => { nd with children := [left, right] })
      let t := t.modifyLine i (fun l => { l with branches := l.branches ++ [left, right] })
      return ((left, right), t)

/-- Deletes a node without children, together with its lines. The last line goes first, so that each
line remembers the place that it had before the node went. -/
def deleteNode (t : Tree) (n : Nat) : Except Refusal Tree := do
  let nd ← t.liveNode n
  match nd.stem with
  | none => .error .rootNode
  | some stem =>
    if !nd.isLeaf then .error (.notLeaves (t.nodeNumber stem.node))
    else
      let t := nd.lines.reverse.foldl detach t
      let t := t.modifyLine stem.line
        (fun l => { l with branches := l.branches.filter (· ≠ n) })
      let t := t.modifyNode stem.node
        (fun p => { p with children := p.children.filter (· ≠ n) })
      return { t with nodes := t.nodes.withdraw n }

def restoreNode (t : Tree) (n : Nat) : Except Refusal Tree :=
  match t.nodes.get? n with
  | none => .error (.unknownNode n)
  | some nd =>
    if t.nodes.isLive n then .error (.nodeNotDeleted n)
    else match nd.stem with
      | none => .error .rootNode
      | some stem => do
        let parent ← t.liveNode stem.node
        if 2 ≤ parent.children.length then .error (.tooManyChildren (t.nodeNumber stem.node))
        else
          let _ ← t.liveLine stem.line
          let t := { t with nodes := t.nodes.reinstate n }
          let t := t.modifyNode stem.node
            (fun p => { p with children := t.nodes.place n p.children })
          let t := t.modifyLine stem.line
            (fun l => { l with branches := t.nodes.place n l.branches })
          return nd.lines.foldl (fun t i => (t.redisplay i).reattach i) t

def leafPair (t : Tree) (n : Nat) : Except Refusal (Nat × Nat) := do
  let nd ← t.liveNode n
  match nd.children with
  | [left, right] =>
    if (t.node left).isLeaf && (t.node right).isLeaf then return (left, right)
    else .error (.notLeaves (t.nodeNumber n))
  | _ => .error (.noChildren (t.nodeNumber n))

/-- Deletes both children of a node, the right one first. What was done before a refusal stays
done. -/
def deleteBranch (t : Tree) (n : Nat) : Tree × Except Refusal (Nat × Nat) :=
  match t.leafPair n with
  | .error e => (t, .error e)
  | .ok (left, right) =>
    match t.deleteNode right with
    | .error e => (t, .error e)
    | .ok t₁ =>
      match t₁.deleteNode left with
      | .error e => (t₁, .error e)
      | .ok t₂ => (t₂, .ok (left, right))

/-- Puts two deleted children of a node back, the left one first. What was done before a refusal
stays done. -/
def restoreBranch (t : Tree) (n : Nat) (pair : Nat × Nat) : Tree × Except Refusal Unit :=
  match t.liveNode n with
  | .error e => (t, .error e)
  | .ok nd =>
    if !nd.isLeaf then (t, .error (.tooManyChildren (t.nodeNumber n)))
    else match t.restoreNode pair.1 with
      | .error e => (t, .error e)
      | .ok t₁ =>
        match t₁.restoreNode pair.2 with
        | .error e => (t₁, .error e)
        | .ok t₂ => (t₂, .ok ())

def setClosed (t : Tree) (n : Nat) (closed : Bool) : Tree :=
  t.modifyNode n (fun nd => { nd with closed := closed })

def setOpen (t : Tree) (n : Nat) (isOpen : Bool) : Tree :=
  t.modifyNode n (fun nd => { nd with markedOpen := isOpen })

end TruthTrees.Tree
