import TruthTrees.Tree.Basic

/-! The part of a tree below a node as a tree in its own right, on which the rules are checked by
recursion. -/
namespace TruthTrees

/-- A node with all that grows below it. A node has at most two children. -/
inductive Shape where
  | leaf (node : Nat)
  | single (node : Nat) (child : Shape)
  | fork (node : Nat) (left right : Shape)
deriving DecidableEq, Repr

def Shape.node : Shape → Nat
  | leaf n | single n _ | fork n _ _ => n

/-- What grows below a node. A child is always registered after its parent. -/
def Tree.shape (t : Tree) (n : Nat) : Shape :=
  match (t.node n).children with
  | [] => .leaf n
  | [c] => if n < c ∧ c < t.nodes.size then .single n (t.shape c) else .leaf n
  | l :: r :: _ =>
    if (n < l ∧ l < t.nodes.size) ∧ (n < r ∧ r < t.nodes.size) then
      .fork n (t.shape l) (t.shape r)
    else .leaf n
termination_by t.nodes.size - n
decreasing_by all_goals omega

end TruthTrees
