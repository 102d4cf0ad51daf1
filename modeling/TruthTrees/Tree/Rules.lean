import TruthTrees.Formula.Conjunction
import TruthTrees.Formula.Equivalence
import TruthTrees.Tree.Branches
import TruthTrees.Tree.Shape

/-! The rules of the truth tree method: when a line may rest on another one, when it may be
checkmarked, when a branch may be closed or marked open, and when the whole tree is finished. A check
only looks at the tree; the operation that it guards changes nothing when the check fails. -/
namespace TruthTrees.Tree

def childFormulas (t : Tree) (i : Nat) (nodes : List Nat) : List Formula :=
  ((t.line i).children.filter (fun c => nodes.contains (t.line c).node)).map
    (fun c => (t.line c).formula)

/-- Whether a formula that is reached by taking another one apart has to stand on a branch grown from
that one. The conditionals of a biconditional may stand anywhere. -/
def needsBranch (parent child : Formula) : Bool :=
  match parent.decompose.junction? with
  | some .or => true
  | some .iff =>
    match parent.conditionals? with
    | some (l, r) => !(Formula.and l r).contains child
    | none => true
  | _ => false

def checkJustify (t : Tree) (child parent : Nat) : Except Violation Unit :=
  let c := t.line child
  let p := t.line parent
  let cn := t.lineNumber child
  let pn := t.lineNumber parent
  if c.justification = .premise then .error (.premiseNeedsNoParent cn)
  else if cn ≤ pn then .error (.childBeforeParent cn pn)
  else if p.formula.equivalent c.formula then .ok ()
  else if !p.formula.contains c.formula then .error (.doesNotDecompose cn pn)
  else if needsBranch p.formula c.formula then
    match (t.node c.node).branchedOn? with
    | none => .error (.decomposedIntoRoot pn)
    | some i => if i = parent then .ok () else .error (.wrongBranch cn pn)
  else .ok ()

def addsUp (t : Tree) (i : Nat) (found : List Formula) : Bool :=
  (Formula.conjunctions found).any (fun φ => φ.equivalent (t.line i).formula)

/-- Whether on every branch that does not meet a closed node the lines that rest on a line add up to
it. The list holds what was found above. -/
def addsUpBelow (t : Tree) (i : Nat) : Shape → List Formula → Bool
  | .leaf n, found =>
    (t.node n).closed || t.addsUp i (found ++ t.childFormulas i [n])
  | .single n below, found =>
    (t.node n).closed || t.addsUp i (found ++ t.childFormulas i [n]) ||
      t.addsUpBelow i below (found ++ t.childFormulas i [n])
  | .fork n left right, found =>
    (t.node n).closed || t.addsUp i (found ++ t.childFormulas i [n]) ||
      (t.addsUpBelow i left (found ++ t.childFormulas i [n]) &&
        t.addsUpBelow i right (found ++ t.childFormulas i [n]))

def ownsBranches (t : Tree) (i : Nat) (left right : Nat) : Bool :=
  (t.line i).children.all (fun c =>
    let n := (t.line c).node
    !(n = left || n = right) || (t.node n).branchedOn? = some i)

/-- Whether the lines in two nodes that rest on a line are, between them, the cases of that line. -/
def splitsUp (t : Tree) (i : Nat) (left right : Nat) : Bool :=
  match Formula.conjunction? (t.childFormulas i [left]),
      Formula.conjunction? (t.childFormulas i [right]) with
  | some φ, some ψ => (Formula.or φ ψ).equivalent (t.line i).formula
  | _, _ => false

/-- Whether every branch that does not meet a closed node is split into the cases of a line. -/
def splitsUpBelow (t : Tree) (i : Nat) : Shape → Bool
  | .leaf n | .single n _ => (t.node n).closed
  | .fork n left right =>
    (t.node n).closed ||
      (t.ownsBranches i left.node right.node &&
        (t.splitsUp i left.node right.node ||
          (t.splitsUpBelow i left && t.splitsUpBelow i right)))

/-- Whether a line was taken apart on all branches below it. -/
def isDecomposed (t : Tree) (i : Nat) : Bool :=
  let below := t.shape (t.line i).node
  match (t.line i).formula.decompose.junction? with
  | none => true
  | some .and => t.addsUpBelow i below []
  | some .or => t.splitsUpBelow i below
  | some .iff => t.splitsUpBelow i below || t.addsUpBelow i below []

def checkCheckmark (t : Tree) (i : Nat) : Except Violation Unit :=
  if (t.line i).checkmarked then .error (.alreadyCheckmarked (t.lineNumber i))
  else if t.isDecomposed i then .ok ()
  else .error (.incompleteDecomposition (t.lineNumber i))

def checkmark (t : Tree) (i : Nat) : Except Refusal Tree := do
  let _ ← t.liveLine i
  (t.checkCheckmark i).mapError .violation
  return t.setCheckmarked i true

def checkClose (t : Tree) (n : Nat) (i j : Nat) : Except Violation Unit :=
  if !(t.line i).valid then .error (.notValid (t.lineNumber i))
  else if !(t.line j).valid then .error (.notValid (t.lineNumber j))
  else if !t.inAncestry n i then .error (.outsideAncestry (t.lineNumber i) (t.nodeNumber n))
  else if !t.inAncestry n j then .error (.outsideAncestry (t.lineNumber j) (t.nodeNumber n))
  else if (Formula.not (t.line i).formula).equivalent (t.line j).formula then .ok ()
  else .error (.notNegations (t.lineNumber i) (t.lineNumber j))

def close (t : Tree) (n : Nat) (i j : Nat) : Except Refusal Tree := do
  let _ ← t.liveNode n
  let _ ← t.liveLine i
  let _ ← t.liveLine j
  (t.checkClose n i j).mapError .violation
  return t.setClosed n true

def answers (j : Junction) (formula found : Formula) : Bool :=
  match j with
  | .and => found.equivalent formula
  | .or => formula.contains found
  | .iff => found.equivalent formula || formula.contains found

/-- Why a line keeps the path that it stands on from being a finished open branch. -/
def unfinishedOn? (t : Tree) (path : List Nat) (i : Nat) : Option Violation :=
  let l := t.line i
  if l.checkmarked then none
  else if l.justification = .missing then some (.noParent (t.lineNumber i))
  else match l.formula.decompose.junction? with
    | none => none
    | some j =>
      if l.children.isEmpty then some (.notDecomposed (t.lineNumber i))
      else match Formula.conjunction? (t.childFormulas i path) with
        | none => some (.notDecomposedHere (t.lineNumber i))
        | some found =>
          if !answers j l.formula found then some (.incorrectDecomposition (t.lineNumber i))
          else if j ≠ .and && !l.branches.any path.contains then
            some (.notDecomposedHere (t.lineNumber i))
          else none

def checkOpen (t : Tree) (n : Nat) : Except Violation Unit :=
  if !(t.node n).isLeaf then .error (.hasChildren (t.nodeNumber n))
  else if (t.node n).markedOpen then .error (.alreadyOpen (t.nodeNumber n))
  else
    let path := t.path n
    match (path.flatMap (fun p => (t.node p).lines)).findSome? (t.unfinishedOn? path) with
    | some v => .error v
    | none => .ok ()

def markOpen (t : Tree) (n : Nat) : Except Refusal Tree := do
  let nd ← t.liveNode n
  if nd.closed then .error (.nodeClosed (t.nodeNumber n))
  else
    (t.checkOpen n).mapError .violation
    return t.setOpen n true

def uncheckedStem? (t : Tree) (n : Nat) : Option Violation :=
  match (t.node n).branchedOn? with
  | some i => if (t.line i).checkmarked then none else some (.notCheckmarked (t.lineNumber i))
  | none => none

/-- The first reason, from the top down and from the left to the right, why not all branches are
closed. Where checkmarks are required, a line that was branched on and has none is such a reason. -/
def unclosed? (t : Tree) (requireCheckmarks : Bool) : Shape → Option Violation
  | .leaf n =>
    (if requireCheckmarks then t.uncheckedStem? n else none).or
      (if (t.node n).closed then none else some (.notClosed (t.nodeNumber n)))
  | .single n below =>
    (if requireCheckmarks then t.uncheckedStem? n else none).or
      (t.unclosed? requireCheckmarks below)
  | .fork n left right =>
    (if requireCheckmarks then t.uncheckedStem? n else none).or
      ((t.unclosed? requireCheckmarks left).or (t.unclosed? requireCheckmarks right))

def checkAllClosed (t : Tree) (requireCheckmarks : Bool) : Except Violation Unit :=
  match t.unclosed? requireCheckmarks (t.shape root) with
  | some v => .error v
  | none => .ok ()

def checkAnyOpen (t : Tree) : Except Violation Unit :=
  if t.leaves.any (fun n => (t.node n).markedOpen) then .ok () else .error .noOpenBranch

end TruthTrees.Tree
