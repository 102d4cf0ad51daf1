import TruthTrees.Proofs.Tree.RemnantSteps

/-! Nodes grow in pairs. Branching gives a leaf two children that were branched on the same line,
and deleting branches takes both away again, so a live node is a leaf or a fork. -/
namespace TruthTrees.Tree

structure Fork (r : Register Node) (n left right line : Nat) : Prop where
  children : (r.get n).children = [left, right]
  left_stem : (r.get left).stem = some ⟨n, line⟩
  right_stem : (r.get right).stem = some ⟨n, line⟩

def LeafOrFork (r : Register Node) (n : Nat) : Prop :=
  (r.get n).children = [] ∨ ∃ left right line, Fork r n left right line

def Forked (r : Register Node) : Prop := ∀ n, r.isLive n = true → LeafOrFork r n

theorem forked_empty : Forked Tree.empty.nodes := by
  intro n _
  cases n <;> exact Or.inl rfl

namespace Forked

variable {r : Register Node} {t u : Tree} {n : Nat}

/-- A node with the same children as before, whose stems have stayed too, is still a leaf or a
fork. -/
theorem leafOrFork_of_eq {r' : Register Node} (h : Forked r) (hrooted : Rooted r)
    (hn : r.isLive n = true) (hchildren : (r'.get n).children = (r.get n).children)
    (hstem : ∀ m, r.isLive m = true → (r'.get m).stem = (r.get m).stem) : LeafOrFork r' n := by
  rcases h n hn with hleaf | ⟨left, right, line, hfork⟩
  · exact Or.inl (hchildren.trans hleaf)
  have hlive : ∀ m ∈ (r.get n).children, r.isLive m = true :=
    fun m hm => (hrooted.mem_children_iff.mp hm).1
  rw [hfork.children] at hlive
  refine Or.inr ⟨left, right, line, hchildren.trans hfork.children, ?_, ?_⟩
  · rw [hstem left (hlive left (by simp)), hfork.left_stem]
  · rw [hstem right (hlive right (by simp)), hfork.right_stem]

/-- Changing marks and held lines of a node does not matter. -/
theorem modify (h : Forked r) (hrooted : Rooted r) (n : Nat) {f : Node → Node}
    (hf : ∀ nd, (f nd).stem = nd.stem ∧ (f nd).children = nd.children) :
    Forked (r.modify n f) := by
  have hget : ∀ m, ((r.modify n f).get m).stem = (r.get m).stem ∧
      ((r.modify n f).get m).children = (r.get m).children := by
    intro m
    rw [Register.get_modify]
    split
    · exact hf _
    · exact ⟨rfl, rfl⟩
  intro m hm
  rw [Register.isLive_modify] at hm
  exact h.leafOrFork_of_eq hrooted hm (hget m).2 (fun k _ => (hget k).1)

theorem extend (h : Forked t.nodes) (hrooted : Rooted t.nodes) {r : Remnants} (hr : Fits t r) :
    Forked (t.extend r).nodes := by
  intro m hm
  rw [hr.isLive_node] at hm
  exact h.leafOrFork_of_eq hrooted hm (congrArg Node.children (node_extend_of_isLive hm))
    (fun k hk => congrArg Node.stem (node_extend_of_isLive hk))

/-- Branching turns a leaf into a fork. -/
theorem withFork (h : Forked t.nodes) (hrooted : Rooted t.nodes) (hn : t.nodes.isLive n = true)
    (i : Nat) : Forked (t.withFork n i).nodes := by
  rw [nodes_withFork]
  have hlt := Register.lt_size_of_isLive hn
  intro m hm
  by_cases hmn : m = n
  · subst hmn
    refine Or.inr ⟨t.nodes.size, t.nodes.size + 1, i, ?_, ?_, ?_⟩ <;> rw [get_forked] <;> dsimp only
    · rw [if_pos ⟨rfl, by omega⟩]
    · rw [if_pos (Or.inl rfl)]
    · rw [if_pos (Or.inr rfl)]
  have hchildren : ((forked t.nodes n i).get m).children = (t.nodes.get m).children := by
    rw [get_forked]
    dsimp only
    rw [if_neg (fun hc => hmn hc.1)]
  rcases (isLive_forked _ _ _ m).mp hm with hnew | hold
  · left
    rw [hchildren, Register.get_of_size_le (by omega)]
    rfl
  · apply h.leafOrFork_of_eq hrooted hold hchildren
    intro k hk
    have hklt := Register.lt_size_of_isLive hk
    rw [get_forked]
    dsimp only
    rw [if_neg (by omega)]

/-- Deleting a pair of branches turns a fork into a leaf. -/
theorem of_deleteBranch (h : Forked t.nodes) (ht : Coherent t) {l m : Nat}
    (hok : t.deleteBranch n = (u, .ok (l, m))) : Forked u.nodes := by
  have hnodes := ht.store.rooted.nodes_of_deleteBranch hok
  intro k hk
  by_cases hkn : k = n
  · subst hkn
    exact Or.inl (ht.store.rooted.leaf_of_deleteBranch hok).2
  rw [hnodes] at hk ⊢
  rw [isLive_cut, isLive_cut] at hk
  apply h.leafOrFork_of_eq ht.store.rooted hk.2.2
  · rw [get_cut, get_cut]
    dsimp only
    rw [if_neg (fun hc => hkn hc.1), if_neg (fun hc => hkn hc.1)]
  · intro j _
    rw [stem_cut, stem_cut]

end Forked

end TruthTrees.Tree
