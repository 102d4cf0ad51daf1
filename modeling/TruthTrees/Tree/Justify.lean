import TruthTrees.Tree.Basic

/-! Justification links between lines. A line is valid when the chain of lines that it rests on ends
in a premise; validity and checkmarks are passed on along the links. -/
namespace TruthTrees.Tree

def restsOnPremiseWithin (t : Tree) : Nat → Nat → Bool
  | 0, _ => false
  | k + 1, i =>
    match (t.line i).justification with
    | .premise => true
    | .line p => t.restsOnPremiseWithin k p
    | .missing => false

/-- Whether the chain of lines that a line rests on ends in a premise. A chain that is longer than
the number of lines would go in a circle. -/
def restsOnPremise (t : Tree) (i : Nat) : Bool :=
  t.restsOnPremiseWithin (t.lines.size + 1) i

def dependentsWithin (t : Tree) : Nat → Nat → List Nat
  | 0, _ => []
  | k + 1, i => (t.line i).children.flatMap (fun c => c :: t.dependentsWithin k c)

/-- The lines that rest on a line, directly or through others. Links do not go in a circle, so no
chain of them is longer than the number of lines. -/
def dependents (t : Tree) (i : Nat) : List Nat :=
  t.dependentsWithin t.lines.size i

def setDependentsValid (t : Tree) (i : Nat) (valid : Bool) : Tree :=
  t.modifyLines (t.dependents i) (fun l => { l with valid := valid })

def revalidate (t : Tree) (i : Nat) : Tree :=
  let valid := t.restsOnPremise i
  let t := t.modifyLine i (fun l => { l with valid := valid })
  if valid then t.setDependentsValid i true else t

/-- Sets or takes back the checkmark of a line, and tells the lines that rest on it. -/
def setCheckmarked (t : Tree) (i : Nat) (checked : Bool) : Tree :=
  let t := t.modifyLine i (fun l => { l with checkmarked := checked })
  t.modifyLines (t.line i).children (fun l => { l with parentCheckmarked := checked })

def removeChild (t : Tree) (parent child : Nat) : Tree :=
  t.modifyLine parent (fun l => { l with children := l.children.filter (· ≠ child) })

def placeChild (t : Tree) (parent child : Nat) : Tree :=
  t.modifyLine parent (fun l => { l with children := t.lines.place child l.children })

def sever (t : Tree) (child : Nat) : Tree :=
  match (t.line child).justification with
  | .line p =>
    let t := t.removeChild p child
    let t := if (t.line p).valid then
        (t.modifyLine child (fun l => { l with valid := false })).setDependentsValid child false
      else t
    t.modifyLine child (fun l => { l with justification := .missing, parentCheckmarked := false })
  | _ => t

/-- Takes away what a line in the tree rests on. A premise stays one. -/
def tryUnlink (t : Tree) (child : Nat) : Tree × Except Refusal Unit :=
  match t.liveLine child with
  | .error e => (t, .error e)
  | .ok _ => (t.sever child, .ok ())

/-- Makes a line rest on another line, instead of on whatever it rested before. What was done before
a refusal stays done. -/
def tryLink (t : Tree) (parent child : Nat) : Tree × Except Refusal Unit :=
  match t.liveLine parent with
  | .error e => (t, .error e)
  | .ok _ =>
    match t.liveLine child with
    | .error e => (t, .error e)
    | .ok _ =>
      match t.tryUnlink child with
      | (t, .error e) => (t, .error e)
      | (t, .ok ()) =>
        let t := t.placeChild parent child
        let checked := (t.line parent).checkmarked
        let t := t.modifyLine child
          (fun l => { l with justification := .line parent, parentCheckmarked := checked })
        (t.revalidate child, .ok ())

def orRefusal : Tree × Except Refusal Unit → Except Refusal Tree
  | (t, .ok ()) => .ok t
  | (_, .error e) => .error e

def unlink (t : Tree) (child : Nat) : Except Refusal Tree := orRefusal (t.tryUnlink child)

def link (t : Tree) (parent child : Nat) : Except Refusal Tree :=
  orRefusal (t.tryLink parent child)

end TruthTrees.Tree
