import TruthTrees.Formula.Parser

/-! Why an operation on a tree is refused. A violation is a rule of the method that is not met; every
other refusal is about the operation itself. The numbers are the displayed ones, unless a constructor
says that it holds an identity. -/
namespace TruthTrees

/-- A rule of the truth tree method that is not met. -/
inductive Violation where
  | alreadyCheckmarked (line : Nat)
  | alreadyOpen (node : Nat)
  | incompleteDecomposition (line : Nat)
  | notValid (line : Nat)
  | outsideAncestry (line node : Nat)
  | notNegations (first second : Nat)
  | hasChildren (node : Nat)
  | notClosed (node : Nat)
  | noParent (line : Nat)
  | notDecomposed (line : Nat)
  | incorrectDecomposition (line : Nat)
  | notDecomposedHere (line : Nat)
  | notCheckmarked (line : Nat)
  | noOpenBranch
  | premiseNeedsNoParent (line : Nat)
  | childBeforeParent (child parent : Nat)
  | doesNotDecompose (child parent : Nat)
  | decomposedIntoRoot (line : Nat)
  | wrongBranch (child parent : Nat)
deriving DecidableEq, Repr

def Violation.message : Violation → String
  | alreadyCheckmarked i => s!"formula {i} is already checkmarked"
  | alreadyOpen n => s!"node {n} is already marked open"
  | incompleteDecomposition i => s!"cannot checkmark formula {i}: decomposition is incomplete"
  | notValid i => s!"formula {i} does not have a valid parent"
  | outsideAncestry i n => s!"formula {i} is not in the ancestry of node {n}"
  | notNegations i j => s!"formulas {i} and {j} are not negations of each other"
  | hasChildren n => s!"node {n} has children"
  | notClosed n => s!"node {n} is not closed"
  | noParent i => s!"formula {i} doesn't have a parent"
  | notDecomposed i => s!"formula {i} has not been decomposed"
  | incorrectDecomposition i => s!"incorrect decomposition of formula {i}"
  | notDecomposedHere i => s!"formula {i} has not been decomposed into this branch yet"
  | notCheckmarked i => s!"formula {i} is not checkmarked"
  | noOpenBranch => "no branch is marked open"
  | premiseNeedsNoParent i => s!"formula {i} is a premise and does not need a parent"
  | childBeforeParent c p => s!"formula {c} must come after its parent {p}"
  | doesNotDecompose c p => s!"formula {c} does not decompose from formula {p}"
  | decomposedIntoRoot p => s!"cannot decompose formula {p} into the root node"
  | wrongBranch c p => s!"node of formula {c} was not decomposed from formula {p}"

inductive Refusal where
  | tooManyChildren (node : Nat)
  | doesNotBranch (line : Nat)
  | hasBranches (line : Nat) (nodes : List Nat)
  | noChildren (node : Nat)
  | notLeaves (node : Nat)
  | nodeClosed (node : Nat)
  /-- No line has this number, or this identity where lines are named by identity. -/
  | unknownLine (line : Nat)
  /-- No node has this number, or this identity where nodes are named by identity. -/
  | unknownNode (node : Nat)
  /-- The identity is that of a deleted line. -/
  | lineDeleted (id : Nat)
  /-- The identity is that of a line in the tree. -/
  | lineNotDeleted (id : Nat)
  /-- The identity is that of a deleted node. -/
  | nodeDeleted (id : Nat)
  /-- The identity is that of a node in the tree. -/
  | nodeNotDeleted (id : Nat)
  | rootNode
  | nothingToUndo
  | nothingToRedo
  | notFormula (error : SyntaxError)
  | violation (rule : Violation)
deriving DecidableEq, Repr

def lineLabel (id : Nat) : String := s!"f#{id}"

def nodeLabel (id : Nat) : String := s!"n#{id}"

def Refusal.message : Refusal → String
  | tooManyChildren n => s!"cannot add another child to node {n}"
  | doesNotBranch i => s!"formula {i} does not branch"
  | hasBranches i ns =>
    let shown := ", ".intercalate (ns.map toString)
    s!"cannot delete formula {i}: branched to nodes [{shown}]"
  | noChildren n => s!"node {n} has no children"
  | notLeaves n => s!"children of node {n} are not leaves"
  | nodeClosed n => s!"node {n} is closed"
  | unknownLine i => s!"formula {i} not found"
  | unknownNode n => s!"node {n} not found"
  | lineDeleted id => s!"formula {lineLabel id} is deleted"
  | lineNotDeleted id => s!"formula {lineLabel id} is not deleted"
  | nodeDeleted id => s!"node {nodeLabel id} is deleted"
  | nodeNotDeleted id => s!"node {nodeLabel id} is not deleted"
  | rootNode => "the root node cannot be deleted"
  | nothingToUndo => "nothing to undo"
  | nothingToRedo => "nothing to redo"
  | notFormula e => e.message
  | violation v => v.message

def Formula.ofText (text : String) : Except Refusal Formula :=
  (Formula.parse text).mapError .notFormula

def Refusal.isViolation : Refusal → Bool
  | violation _ => true
  | _ => false

end TruthTrees
