import TruthTrees.Proofs.Tree.ClosedTrees
import TruthTrees.Proofs.Tree.Survival

/-! Which changes of a tree leave a line decomposed. The check walks down from the line until, on
every branch, it meets a closed node or the lines that rest on the line are complete. So nodes may
be closed and leaves that are open may grow; and branches may go in which nothing was found and
which were not closed, since they added nothing to what was found above. -/
namespace TruthTrees.Tree

variable {t u : Tree} {i n : Nat}

/-- How a node of one tree may differ from the same node of another one, so that a line which is
decomposed in the first tree is decomposed in the second one. -/
inductive Stands (t u : Tree) (i n : Nat) : Prop
  | same (h : (u.node n).children = (t.node n).children)
  | grown (hleaf : (t.node n).children = []) (hopen : (t.node n).closed = false)
  | pruned {l r : Nat} (hpair : (t.node n).children = [l, r]) (hleaf : (t.node l).children = [])
    (hopen : (t.node l).closed = false) (hnone : t.childFormulas i [l] = [])
    (hpruned : (u.node n).children = [])

/-- A line and all that rests on it stay what they are, and the nodes below it do as far as its
decomposition goes. -/
structure Carries (t u : Tree) (i : Nat) : Prop where
  formula : (u.line i).formula = (t.line i).formula
  home : (u.line i).node = (t.line i).node
  children : (u.line i).children = (t.line i).children
  child : ∀ c ∈ (t.line i).children,
    (u.line c).formula = (t.line c).formula ∧ (u.line c).node = (t.line c).node
  closed : ∀ n, t.nodes.isLive n = true → u.nodes.isLive n = true →
    (t.node n).closed = true → (u.node n).closed = true
  stem : ∀ n, t.nodes.isLive n = true → u.nodes.isLive n = true →
    (u.node n).stem = (t.node n).stem
  stands : ∀ n, t.nodes.isLive n = true → u.nodes.isLive n = true → Stands t u i n

namespace Carries

theorem childFormulas (h : Carries t u i) (nodes : List Nat) :
    u.childFormulas i nodes = t.childFormulas i nodes := by
  unfold Tree.childFormulas
  rw [h.children]
  have hfilter : (t.line i).children.filter (fun c => nodes.contains (u.line c).node) =
      (t.line i).children.filter (fun c => nodes.contains (t.line c).node) := by
    apply List.filter_congr
    intro c hc
    rw [(h.child c hc).2]
  rw [hfilter]
  apply List.map_congr_left
  intro c hc
  exact (h.child c (List.mem_of_mem_filter hc)).1

theorem addsUp (h : Carries t u i) (found : List Formula) :
    u.addsUp i found = t.addsUp i found := by
  unfold Tree.addsUp
  rw [h.formula]

theorem splitsUp (h : Carries t u i) (l r : Nat) : u.splitsUp i l r = t.splitsUp i l r := by
  unfold Tree.splitsUp
  rw [h.childFormulas, h.childFormulas, h.formula]

/-- The branches that a line owns are told by the stems of two live nodes. -/
theorem ownsBranches (h : Carries t u i) {l r : Nat}
    (hstem : ∀ m, m = l ∨ m = r → (u.node m).stem = (t.node m).stem)
    (howns : t.ownsBranches i l r = true) : u.ownsBranches i l r = true := by
  unfold Tree.ownsBranches at howns ⊢
  rw [h.children]
  rw [List.all_eq_true] at howns ⊢
  intro c hc
  have hown := howns c hc
  rw [(h.child c hc).2]
  by_cases hm : (t.line c).node = l ∨ (t.line c).node = r
  · unfold Node.branchedOn? at hown ⊢
    dsimp only at hown ⊢
    rw [hstem _ hm]
    exact hown
  · rw [not_or] at hm
    simp [hm.1, hm.2]

end Carries

/-- Nothing below a closed node, or one where the sum is complete, is looked at. -/
theorem addsUpBelow_of_done {found : List Formula} (h : (t.node n).closed = true ∨
    t.addsUp i (found ++ t.childFormulas i [n]) = true) :
    t.addsUpBelow i (t.shape n) found = true := by
  have hnode := node_shape t n
  cases hs : t.shape n with
  | leaf m | single m below | fork m left right =>
    rw [hs, Shape.node] at hnode
    subst hnode
    rcases h with h | h <;> simp [addsUpBelow, h]

theorem splitsUpBelow_of_closed (h : (t.node n).closed = true) :
    t.splitsUpBelow i (t.shape n) = true := by
  have hnode := node_shape t n
  cases hs : t.shape n with
  | leaf m | single m below | fork m left right =>
    rw [hs, Shape.node] at hnode
    subst hnode
    simp [splitsUpBelow, h]

/-- A fork whose node keeps its children is still one. -/
theorem Fork.of_children (hu : Forked u.nodes) {l r k : Nat} (hfork : Fork t.nodes n l r k)
    (hn : u.nodes.isLive n = true) (h : (u.node n).children = (t.node n).children) :
    ∃ k', Fork u.nodes n l r k' := by
  have hchildren : (u.node n).children = [l, r] := h.trans hfork.children
  rcases hu n hn with hleaf | ⟨l', r', k', hfork'⟩
  · rw [show (u.node n).children = [] from hleaf] at hchildren
    simp at hchildren
  · have hpair : [l', r'] = [l, r] := hfork'.children.symm.trans hchildren
    simp only [List.cons.injEq, and_true] at hpair
    obtain ⟨rfl, rfl⟩ := hpair
    exact ⟨k', hfork'⟩

section Walk

variable (h : Carries t u i) (ht : Rooted t.nodes) (hf : Forked t.nodes) (hu : Rooted u.nodes)
  (hfu : Forked u.nodes)
include h ht hf hu hfu

/-- What has been added up stays added up where the children of the line are carried over. -/
theorem Carries.addsUpBelow {found : List Formula} (hn : t.nodes.isLive n = true)
    (hnu : u.nodes.isLive n = true) (hbelow : t.addsUpBelow i (t.shape n) found = true) :
    u.addsUpBelow i (u.shape n) found = true := by
  induction hk : t.nodes.size - n using Nat.strongRecOn generalizing n found with
  | ind k ih =>
    by_cases hclosed : (t.node n).closed = true
    · exact addsUpBelow_of_done (Or.inl (h.closed n hn hnu hclosed))
    rw [Bool.not_eq_true] at hclosed
    by_cases hadds : t.addsUp i (found ++ t.childFormulas i [n]) = true
    · apply addsUpBelow_of_done
      right
      rwa [h.addsUp, h.childFormulas]
    rw [Bool.not_eq_true] at hadds
    rcases hf n hn with hleaf | ⟨l, r, j, hfork⟩
    · rw [shape_of_leaf hleaf, Tree.addsUpBelow, hclosed, hadds] at hbelow
      simp at hbelow
    have hpair := ht.pair hfork.children
    rw [ht.shape_of_fork hfork, Tree.addsUpBelow, hclosed, hadds, Bool.false_or, Bool.false_or,
      Bool.and_eq_true] at hbelow
    cases h.stands n hn hnu with
    | same hsame =>
      obtain ⟨j', hfork'⟩ := hfork.of_children hfu hnu hsame
      have hpair' := hu.pair hfork'.children
      have hlt := ht.stem_lt hpair.left_live hfork.left_stem
      have hlt' := ht.stem_lt hpair.right_live hfork.right_stem
      have hsize := Register.lt_size_of_isLive hpair.left_live
      have hsize' := Register.lt_size_of_isLive hpair.right_live
      dsimp only at hlt hlt'
      have hleft := ih _ (by omega) hpair.left_live hpair'.left_live hbelow.1 rfl
      have hright := ih _ (by omega) hpair.right_live hpair'.right_live hbelow.2 rfl
      rw [hu.shape_of_fork hfork', Tree.addsUpBelow, h.childFormulas, hleft, hright]
      simp
    | grown hleaf _ =>
      rw [show (t.node n).children = [l, r] from hfork.children] at hleaf
      simp at hleaf
    | @pruned l' r' hpair' hleaf hopen hnone _ =>
      rw [show (t.node n).children = [l, r] from hfork.children] at hpair'
      simp only [List.cons.injEq, and_true] at hpair'
      obtain ⟨rfl, rfl⟩ := hpair'
      rw [shape_of_leaf hleaf, Tree.addsUpBelow, hopen, hnone, List.append_nil, hadds] at hbelow
      simp at hbelow

/-- What has been split stays split where the children of the line are carried over. -/
theorem Carries.splitsUpBelow (hn : t.nodes.isLive n = true) (hnu : u.nodes.isLive n = true)
    (hbelow : t.splitsUpBelow i (t.shape n) = true) :
    u.splitsUpBelow i (u.shape n) = true := by
  induction hk : t.nodes.size - n using Nat.strongRecOn generalizing n with
  | ind k ih =>
    by_cases hclosed : (t.node n).closed = true
    · exact splitsUpBelow_of_closed (h.closed n hn hnu hclosed)
    rw [Bool.not_eq_true] at hclosed
    rcases hf n hn with hleaf | ⟨l, r, j, hfork⟩
    · rw [shape_of_leaf hleaf, Tree.splitsUpBelow, hclosed] at hbelow
      simp at hbelow
    have hpair := ht.pair hfork.children
    rw [ht.shape_of_fork hfork, Tree.splitsUpBelow, hclosed, node_shape, node_shape, Bool.false_or,
      Bool.and_eq_true, Bool.or_eq_true, Bool.and_eq_true] at hbelow
    obtain ⟨howns, hcases⟩ := hbelow
    cases h.stands n hn hnu with
    | same hsame =>
      obtain ⟨j', hfork'⟩ := hfork.of_children hfu hnu hsame
      have hpair' := hu.pair hfork'.children
      have hlt := ht.stem_lt hpair.left_live hfork.left_stem
      have hlt' := ht.stem_lt hpair.right_live hfork.right_stem
      have hsize := Register.lt_size_of_isLive hpair.left_live
      have hsize' := Register.lt_size_of_isLive hpair.right_live
      dsimp only at hlt hlt'
      have howns' : u.ownsBranches i l r = true := by
        apply h.ownsBranches _ howns
        rintro m (rfl | rfl)
        · exact h.stem m hpair.left_live hpair'.left_live
        · exact h.stem m hpair.right_live hpair'.right_live
      rw [hu.shape_of_fork hfork', Tree.splitsUpBelow, node_shape, node_shape, howns', h.splitsUp]
      rcases hcases with hsplits | ⟨hleft, hright⟩
      · simp [hsplits]
      · have hleft' := ih _ (by omega) hpair.left_live hpair'.left_live hleft rfl
        have hright' := ih _ (by omega) hpair.right_live hpair'.right_live hright rfl
        simp [hleft', hright']
    | grown hleaf _ =>
      rw [show (t.node n).children = [l, r] from hfork.children] at hleaf
      simp at hleaf
    | @pruned l' r' hpair' hleaf hopen hnone _ =>
      rw [show (t.node n).children = [l, r] from hfork.children] at hpair'
      simp only [List.cons.injEq, and_true] at hpair'
      obtain ⟨rfl, rfl⟩ := hpair'
      rcases hcases with hsplits | ⟨hleft, -⟩
      · simp [Tree.splitsUp, hnone, Formula.conjunction?] at hsplits
      · rw [shape_of_leaf hleaf, Tree.splitsUpBelow, hopen] at hleft
        simp at hleft

/-- A line stays decomposed. -/
theorem Carries.isDecomposed (hi : t.nodes.isLive (t.line i).node = true)
    (hiu : u.nodes.isLive (t.line i).node = true) (hdecomposed : t.isDecomposed i = true) :
    u.isDecomposed i = true := by
  unfold Tree.isDecomposed at hdecomposed ⊢
  rw [h.formula, h.home]
  cases hj : (t.line i).formula.decompose.junction? with
  | none => rfl
  | some j =>
    rw [hj] at hdecomposed
    cases j with
    | and => exact h.addsUpBelow ht hf hu hfu hi hiu hdecomposed
    | or => exact h.splitsUpBelow ht hf hu hfu hi hiu hdecomposed
    | iff =>
      dsimp only at hdecomposed ⊢
      rw [Bool.or_eq_true] at hdecomposed ⊢
      exact hdecomposed.imp (h.splitsUpBelow ht hf hu hfu hi hiu)
        (h.addsUpBelow ht hf hu hfu hi hiu)

end Walk

end TruthTrees.Tree
