import TruthTrees.Tree.Basic

/-! What a user sees of a tree: its lines and nodes by number, without the identities and without
anything deleted. -/
namespace TruthTrees

/-- What is seen of a line. All numbers are displayed ones. -/
structure LineView where
  number : Nat
  text : String
  node : Nat
  premise : Bool
  parent : Option Nat
  children : List Nat
  branches : List Nat
  checkmarked : Bool
  parentCheckmarked : Bool
  valid : Bool
deriving DecidableEq, Repr

structure NodeView where
  number : Nat
  lines : List Nat
  parent : Option Nat
  children : List Nat
  branchedOn : Option Nat
  closed : Bool
  markedOpen : Bool
deriving DecidableEq, Repr

structure Snapshot where
  lines : List LineView
  nodes : List NodeView
deriving DecidableEq, Repr

def LineView.render (l : LineView) : String :=
  let mark := if l.checkmarked then " ✓" else ""
  let source := match l.premise, l.parent with
    | true, _ => "  [premise]"
    | false, some p => s!"  [from {p}]"
    | false, none => "  [unjustified]"
  let warning := if l.valid then "" else " (not valid)"
  s!"{l.number}. {l.text}{mark}{source}{warning}"

def NodeView.render (n : NodeView) : String :=
  let stem := match n.parent, n.branchedOn with
    | some p, some i => s!" (child of {p}, branched on {i})"
    | _, _ => ""
  let closed := if n.closed then " closed" else ""
  let marked := if n.markedOpen then " open" else ""
  s!"node {n.number}{stem}{closed}{marked}"

namespace Tree

def lineView (t : Tree) (i : Nat) : LineView :=
  let l := t.line i
  { number := t.lineNumber i
    text := l.formula.text
    node := t.nodeNumber l.node
    premise := l.justification = .premise
    parent := l.justification.parent?.map t.lineNumber
    children := l.children.map t.lineNumber
    branches := l.branches.map t.nodeNumber
    checkmarked := l.checkmarked
    parentCheckmarked := l.parentCheckmarked
    valid := l.valid }

def nodeView (t : Tree) (n : Nat) : NodeView :=
  let nd := t.node n
  { number := t.nodeNumber n
    lines := nd.lines.map t.lineNumber
    parent := nd.parent?.map t.nodeNumber
    children := nd.children.map t.nodeNumber
    branchedOn := nd.branchedOn?.map t.lineNumber
    closed := nd.closed
    markedOpen := nd.markedOpen }

def snapshot (t : Tree) : Snapshot :=
  ⟨t.lines.order.map t.lineView, t.nodes.order.map t.nodeView⟩

/-- A tree as it is printed: every node, in display order, with its lines indented below it. -/
def render (t : Tree) : String :=
  String.join (t.nodes.order.map (fun n =>
    (t.nodeView n).render ++ "\n" ++
      String.join ((t.node n).lines.map (fun i => "  " ++ (t.lineView i).render ++ "\n"))))

end Tree

end TruthTrees
