import TruthTrees.Register
import TruthTrees.Refusal
import TruthTrees.Formula.Decomposition

/-! Truth trees. A tree has numbered lines, each of which holds a formula and belongs to a node.
Lines and nodes are registered separately, and each is named by its identity in its register: inside
a tree, lines and nodes always refer to each other by identity and never by number. -/
namespace TruthTrees

inductive Justification where
  | missing
  | premise
  | line (parent : Nat)
deriving DecidableEq, Repr, Inhabited

def Justification.parent? : Justification → Option Nat
  | line p => some p
  | _ => none

structure Line where
  formula : Formula
  /-- The node that holds the line. -/
  node : Nat
  justification : Justification
  /-- The lines that rest on this one. -/
  children : List Nat := []
  /-- The nodes that were grown by branching on this line. -/
  branches : List Nat := []
  /-- Whether the decomposition of the line was found complete. -/
  checkmarked : Bool := false
  /-- Whether the line that this one rests on is checkmarked. -/
  parentCheckmarked : Bool := false
  /-- Whether the line rests, through others, on a premise. -/
  valid : Bool := false
deriving DecidableEq, Repr, Inhabited

/-- Where a node grows from: its parent node, and the line that was branched on. -/
structure Stem where
  node : Nat
  line : Nat
deriving DecidableEq, Repr

/-- A node of a tree. Only the root has no stem. -/
structure Node where
  stem : Option Stem := none
  lines : List Nat := []
  children : List Nat := []
  closed : Bool := false
  markedOpen : Bool := false
deriving DecidableEq, Repr, Inhabited

def Node.parent? (n : Node) : Option Nat := n.stem.map Stem.node

def Node.branchedOn? (n : Node) : Option Nat := n.stem.map Stem.line

def Node.isLeaf (n : Node) : Bool := n.children.isEmpty

structure Tree where
  lines : Register Line
  nodes : Register Node
deriving DecidableEq, Repr

namespace Tree

def root : Nat := 0

def empty : Tree := ⟨.empty, Register.empty.push {}⟩

/-- A line, deleted or not. -/
def line (t : Tree) (i : Nat) : Line := t.lines.get i

def node (t : Tree) (n : Nat) : Node := t.nodes.get n

def lineNumber (t : Tree) (i : Nat) : Nat := t.lines.number i

def nodeNumber (t : Tree) (n : Nat) : Nat := t.nodes.number n

def modifyLine (t : Tree) (i : Nat) (f : Line → Line) : Tree :=
  { t with lines := t.lines.modify i f }

def modifyLines (t : Tree) (ids : List Nat) (f : Line → Line) : Tree :=
  { t with lines := t.lines.modifyAll ids f }

def modifyNode (t : Tree) (n : Nat) (f : Node → Node) : Tree :=
  { t with nodes := t.nodes.modify n f }

def liveLine (t : Tree) (i : Nat) : Except Refusal Line :=
  match t.lines.get? i with
  | none => .error (.unknownLine i)
  | some l => if t.lines.isLive i then .ok l else .error (.lineDeleted i)

def liveNode (t : Tree) (n : Nat) : Except Refusal Node :=
  match t.nodes.get? n with
  | none => .error (.unknownNode n)
  | some nd => if t.nodes.isLive n then .ok nd else .error (.nodeDeleted n)

/-- A node and its ancestors, up to the root. A node is always registered after its parent. -/
def ancestors (t : Tree) (n : Nat) : List Nat :=
  match (t.node n).parent? with
  | none => [n]
  | some p => if p < n then n :: t.ancestors p else [n]
termination_by n

def path (t : Tree) (n : Nat) : List Nat := (t.ancestors n).reverse

/-- Whether a line is in the tree and held by a node or one of its ancestors. -/
def inAncestry (t : Tree) (n : Nat) (i : Nat) : Bool :=
  t.lines.isLive i && (t.ancestors n).contains (t.line i).node

def leaves (t : Tree) : List Nat :=
  t.nodes.order.filter (fun n => (t.node n).isLeaf)

end Tree

end TruthTrees
