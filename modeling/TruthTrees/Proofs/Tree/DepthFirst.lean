import Mathlib.Data.List.Nodup
import TruthTrees.Proofs.Tree.OpenBranches
import TruthTrees.Proofs.Tree.TwinRules

/-! Whether all branches are closed, seen from the display. The check goes down from the root along
the children that every node names, while the leaves are picked from the list of displayed nodes.
Whatever was done to the tree before, the way down from the root comes by every displayed node once
and by no other, so both see the same leaves, and what the check reports belongs to the first node on
this way at which something is amiss. -/
namespace TruthTrees

def Shape.nodes : Shape → List Nat
  | leaf n => [n]
  | single n below => n :: below.nodes
  | fork n left right => n :: (left.nodes ++ right.nodes)

namespace Tree

/-- The order in which nodes are met depth first, from the left to the right, when the nodes of a
list are still to be visited: the first of them comes next, and its children are visited before the
rest of the list. -/
inductive DepthFirst (t : Tree) : List Nat → List Nat → Prop
  | nil : DepthFirst t [] []
  | cons {n : Nat} {rest order : List Nat} (h : DepthFirst t ((t.node n).children ++ rest) order) :
    DepthFirst t (n :: rest) (n :: order)

def BranchedUnchecked (t : Tree) (n i : Nat) : Prop :=
  (t.node n).branchedOn? = some i ∧ (t.line i).checkmarked = false

/-- What a node violates when all branches should be closed. The line that it was branched on comes
first, where checkmarks are required; then that it is a leaf and not closed. -/
inductive Violates (t : Tree) (requireCheckmarks : Bool) (n : Nat) : Violation → Prop
  | unchecked {i : Nat} (hrequire : requireCheckmarks = true) (h : t.BranchedUnchecked n i) :
    Violates t requireCheckmarks n (.notCheckmarked (t.lineNumber i))
  | unclosed (hchecked : requireCheckmarks = true → ∀ i, ¬ t.BranchedUnchecked n i)
      (hleaf : (t.node n).isLeaf = true) (hclosed : (t.node n).closed = false) :
    Violates t requireCheckmarks n (.notClosed (t.nodeNumber n))

variable {t : Tree} {n m : Nat} {require : Bool} {v : Violation}

def violation? (t : Tree) (requireCheckmarks : Bool) (n : Nat) : Option Violation :=
  (if requireCheckmarks then t.uncheckedStem? n else none).or
    (if (t.node n).isLeaf && !(t.node n).closed then some (.notClosed (t.nodeNumber n)) else none)

theorem uncheckedStem?_eq_some_iff : t.uncheckedStem? n = some v ↔
    ∃ i, t.BranchedUnchecked n i ∧ .notCheckmarked (t.lineNumber i) = v := by
  unfold uncheckedStem? BranchedUnchecked
  cases (t.node n).branchedOn? with
  | none => simp
  | some i => cases hmark : (t.line i).checkmarked <;> simp [hmark]

theorem uncheckedStem?_eq_none_iff :
    t.uncheckedStem? n = none ↔ ∀ i, ¬ t.BranchedUnchecked n i := by
  unfold uncheckedStem? BranchedUnchecked
  cases (t.node n).branchedOn? with
  | none => simp
  | some i => cases (t.line i).checkmarked <;> simp

/-- The fault a node is refused for is one that it has. -/
theorem violation?_eq_some_iff : t.violation? require n = some v ↔ t.Violates require n v := by
  have hend : (if (t.node n).isLeaf && !(t.node n).closed then
      some (Violation.notClosed (t.nodeNumber n)) else none) = some v ↔
      (t.node n).isLeaf = true ∧ (t.node n).closed = false ∧ .notClosed (t.nodeNumber n) = v := by
    simp [and_assoc]
  have hstem : (if require then t.uncheckedStem? n else none) = none ↔
      (require = true → ∀ i, ¬ t.BranchedUnchecked n i) := by
    rw [← uncheckedStem?_eq_none_iff]
    cases require <;> simp
  rw [violation?, Option.or_eq_some_iff, hend, hstem]
  constructor
  · rintro (h | ⟨hchecked, hleaf, hclosed, rfl⟩)
    · obtain ⟨hrequire, h⟩ : require = true ∧ t.uncheckedStem? n = some v := by simpa using h
      obtain ⟨i, hi, rfl⟩ := uncheckedStem?_eq_some_iff.mp h
      exact .unchecked hrequire hi
    · exact .unclosed hchecked hleaf hclosed
  · rintro (⟨hrequire, hi⟩ | ⟨hchecked, hleaf, hclosed⟩)
    · left
      rw [if_pos hrequire]
      exact uncheckedStem?_eq_some_iff.mpr ⟨_, hi, rfl⟩
    · exact Or.inr ⟨hchecked, hleaf, hclosed, rfl⟩

/-- A node passes when it did not branch off an unchecked line, where that counts, and is closed if
it is a leaf. -/
theorem violation?_eq_none_iff : t.violation? require n = none ↔
    (require = true → ∀ i, ¬ t.BranchedUnchecked n i) ∧
      ((t.node n).isLeaf = true → (t.node n).closed = true) := by
  rw [violation?, Option.or_eq_none_iff, ← uncheckedStem?_eq_none_iff]
  cases require <;> simp

/-- What holds of a live node as soon as it holds of its children holds of all live nodes. -/
theorem Rooted.induction_below (h : Rooted t.nodes) {P : Nat → Prop}
    (step : ∀ n, t.nodes.isLive n = true →
      (∀ c ∈ (t.node n).children, t.nodes.isLive c = true ∧ n < c ∧ P c) → P n)
    (hn : t.nodes.isLive n = true) : P n := by
  -- Children are registered after their parents, so the register ends what is below a node.
  induction hk : t.nodes.size - n using Nat.strongRecOn generalizing n with
  | ind k ih =>
    apply step n hn
    intro c hc
    obtain ⟨hlive, hparent⟩ := h.mem_children_iff.mp hc
    obtain ⟨s, hs, rfl⟩ := Option.map_eq_some_iff.mp hparent
    have hlt := h.stem_lt hlive hs
    have hsize := Register.lt_size_of_isLive hlive
    exact ⟨hlive, hlt, ih _ (by omega) hlive rfl⟩

/-- The way down from a node goes through it and then down from each of its children. -/
theorem Rooted.nodes_shape (h : Rooted t.nodes) (n : Nat) :
    (t.shape n).nodes = n :: (t.node n).children.flatMap (fun c => (t.shape c).nodes) := by
  have htwo : (t.node n).children.length ≤ 2 := h.children_le n
  rw [h.shape_eq]
  rcases hc : (t.node n).children with _ | ⟨l, _ | ⟨r, _ | ⟨m, rest⟩⟩⟩
  · rfl
  · simp [Shape.nodes]
  · simp [Shape.nodes]
  · simp [hc] at htwo

/-- The walk judges a node first and then each of its children in turn. -/
theorem Rooted.unclosed?_shape (h : Rooted t.nodes) (n : Nat) :
    t.unclosed? require (t.shape n) = (t.violation? require n).or
      ((t.node n).children.findSome? (fun c => t.unclosed? require (t.shape c))) := by
  have htwo : (t.node n).children.length ≤ 2 := h.children_le n
  rw [h.shape_eq, violation?, Node.isLeaf]
  rcases hc : (t.node n).children with _ | ⟨l, _ | ⟨r, _ | ⟨m, rest⟩⟩⟩
  · cases hclosed : (t.node n).closed <;> simp [unclosed?, hclosed]
  · cases hl : t.unclosed? require (t.shape l) <;> simp [unclosed?, hl]
  · cases hl : t.unclosed? require (t.shape l) <;>
      cases hr : t.unclosed? require (t.shape r) <;> simp [unclosed?, hl, hr]
  · simp [hc] at htwo

/-- The check reports what the first node on the way down violates. -/
theorem Rooted.unclosed?_eq_findSome? (h : Rooted t.nodes) (hn : t.nodes.isLive n = true) :
    t.unclosed? require (t.shape n) = (t.shape n).nodes.findSome? (t.violation? require) := by
  refine h.induction_below (P := fun n => t.unclosed? require (t.shape n) =
    (t.shape n).nodes.findSome? (t.violation? require)) ?_ hn
  intro n _ ih
  rw [h.unclosed?_shape, h.nodes_shape, List.findSome?_cons,
    List.findSome?_flatMap fun c hc => (ih c hc).2.2]
  cases t.violation? require n <;> rfl

theorem DepthFirst.append {f : Nat → List Nat} {ns rest order : List Nat}
    (hns : ∀ n ∈ ns, ∀ rest order, t.DepthFirst rest order → t.DepthFirst (n :: rest) (f n ++ order))
    (h : t.DepthFirst rest order) : t.DepthFirst (ns ++ rest) (ns.flatMap f ++ order) := by
  induction ns with
  | nil => exact h
  | cons n ns ih =>
    rw [List.forall_mem_cons] at hns
    rw [List.flatMap_cons, List.append_assoc]
    exact hns.1 _ _ (ih hns.2)

/-- The nodes of a shape are in the order in which they are met depth first. -/
theorem Rooted.depthFirst_shape (h : Rooted t.nodes) (hn : t.nodes.isLive n = true)
    {rest order : List Nat} (hrest : t.DepthFirst rest order) :
    t.DepthFirst (n :: rest) ((t.shape n).nodes ++ order) := by
  refine h.induction_below (P := fun n => ∀ rest order, t.DepthFirst rest order →
    t.DepthFirst (n :: rest) ((t.shape n).nodes ++ order)) ?_ hn rest order hrest
  intro n _ ih rest order hrest
  rw [h.nodes_shape, List.cons_append]
  exact .cons (hrest.append fun c hc => (ih c hc).2.2)

/-- There is only one depth-first order. -/
theorem DepthFirst.eq {todo order order' : List Nat} (h : t.DepthFirst todo order)
    (h' : t.DepthFirst todo order') : order' = order := by
  induction h generalizing order' with
  | nil =>
    cases h'
    rfl
  | cons _ ih =>
    cases h' with
    | cons h' => rw [ih h']

/-- The ancestors of a node are not younger than the node. -/
theorem ancestors_le (hm : m ∈ t.ancestors n) : m ≤ n := by
  fun_induction ancestors t n with
  | case1 n _ => exact Nat.le_of_eq (List.mem_singleton.mp hm)
  | case2 n p _ hlt ih =>
    rcases List.mem_cons.mp hm with rfl | hm
    · exact Nat.le_refl _
    · exact Nat.le_of_lt (Nat.lt_of_le_of_lt (ih hm) hlt)
  | case3 n p _ _ => exact Nat.le_of_eq (List.mem_singleton.mp hm)

theorem self_mem_ancestors (t : Tree) (n : Nat) : n ∈ t.ancestors n := by
  fun_cases ancestors t n <;> exact List.mem_cons_self

/-- The ancestors of an ancestor are those ancestors that are not younger. -/
theorem mem_ancestors_iff {a b : Nat} (hb : b ∈ t.ancestors n) :
    a ∈ t.ancestors b ↔ a ∈ t.ancestors n ∧ a ≤ b := by
  fun_induction ancestors t n with
  | case1 n hp =>
    obtain rfl := List.mem_singleton.mp hb
    rw [ancestors, hp]
    simp +contextual
  | case2 n p hp hlt ih =>
    rcases List.mem_cons.mp hb with rfl | hb
    · have hself : t.ancestors b = b :: t.ancestors p := by
        rw [ancestors, hp]
        exact if_pos hlt
      rw [← hself]
      exact ⟨fun ha => ⟨ha, ancestors_le ha⟩, And.left⟩
    · have hle := ancestors_le hb
      rw [ih hb, List.mem_cons]
      constructor
      · exact fun ha => ⟨Or.inr ha.1, ha.2⟩
      · exact fun ha => ⟨ha.1.resolve_left (by omega), ha.2⟩
  | case3 n p hp hlt =>
    obtain rfl := List.mem_singleton.mp hb
    rw [ancestors, hp]
    simp +contextual [hlt]

theorem Rooted.ancestors_of_mem_children (h : Rooted t.nodes) (hm : m ∈ (t.node n).children) :
    t.ancestors m = m :: t.ancestors n := by
  obtain ⟨hlive, hparent⟩ := h.mem_children_iff.mp hm
  obtain ⟨s, hs, rfl⟩ := Option.map_eq_some_iff.mp hparent
  exact ancestors_of_stem hs (h.stem_lt hlive hs)

/-- The way down from a node comes by the live nodes that have it as an ancestor. -/
theorem Rooted.mem_nodes_shape (h : Rooted t.nodes) (hn : t.nodes.isLive n = true) :
    m ∈ (t.shape n).nodes ↔ t.nodes.isLive m = true ∧ n ∈ t.ancestors m := by
  refine h.induction_below (P := fun n => m ∈ (t.shape n).nodes ↔
    t.nodes.isLive m = true ∧ n ∈ t.ancestors m) ?_ hn
  intro n hn ih
  rw [h.nodes_shape, List.mem_cons, List.mem_flatMap]
  constructor
  · rintro (rfl | ⟨c, hc, hm⟩)
    · exact ⟨hn, self_mem_ancestors t m⟩
    · obtain ⟨hm, hcm⟩ := (ih c hc).2.2.mp hm
      have hnc : n ∈ t.ancestors c := by
        rw [h.ancestors_of_mem_children hc]
        exact List.mem_cons_of_mem _ (self_mem_ancestors t n)
      exact ⟨hm, ((mem_ancestors_iff hcm).mp hnc).1⟩
  · rintro ⟨hm, hnm⟩
    by_cases hne : n = m
    · exact Or.inl hne.symm
    · obtain ⟨c, hc, hcm⟩ := h.exists_child_mem_ancestors hm hnm hne
      exact Or.inr ⟨c, hc, (ih c hc).2.2.mpr ⟨hm, hcm⟩⟩

/-- What is met below one child of a node is not met below another one. -/
theorem Rooted.eq_of_mem_children (h : Rooted t.nodes) {c d : Nat} (hc : c ∈ (t.node n).children)
    (hd : d ∈ (t.node n).children) (hcm : c ∈ t.ancestors m) (hdm : d ∈ t.ancestors m)
    (hle : c ≤ d) : c = d := by
  have hcd := (mem_ancestors_iff hdm).mpr ⟨hcm, hle⟩
  rw [h.ancestors_of_mem_children hd, List.mem_cons] at hcd
  refine hcd.resolve_right fun habove => ?_
  obtain ⟨hlive, hparent⟩ := h.mem_children_iff.mp hc
  obtain ⟨s, hs, rfl⟩ := Option.map_eq_some_iff.mp hparent
  exact absurd (ancestors_le habove) (Nat.not_le_of_lt (h.stem_lt hlive hs))

/-- The walk comes to every node once. -/
theorem Rooted.nodup_nodes_shape (h : Rooted t.nodes) (hn : t.nodes.isLive n = true) :
    (t.shape n).nodes.Nodup := by
  refine h.induction_below (P := fun n => (t.shape n).nodes.Nodup) ?_ hn
  intro n _ ih
  have hmem {c m : Nat} (hc : c ∈ (t.node n).children) (hm : m ∈ (t.shape c).nodes) :
      c ∈ t.ancestors m := ((h.mem_nodes_shape (ih c hc).1).mp hm).2
  rw [h.nodes_shape, List.nodup_cons, List.nodup_flatMap]
  refine ⟨?_, fun c hc => (ih c hc).2.2, ?_⟩
  · rw [List.mem_flatMap]
    rintro ⟨c, hc, hnc⟩
    exact absurd (ancestors_le (hmem hc hnc)) (Nat.not_le_of_lt (ih c hc).2.1)
  · have hnodup : (t.node n).children.Nodup := by
      rw [show (t.node n).children = _ from h.children n]
      exact h.ordered.nodup.filter _
    apply hnodup.imp_of_mem
    intro c d hc hd hne m hm hm'
    rcases Nat.le_total c d with hle | hle
    · exact hne (h.eq_of_mem_children hc hd (hmem hc hm) (hmem hd hm') hle)
    · exact hne (h.eq_of_mem_children hd hc (hmem hd hm') (hmem hc hm) hle).symm

/-- The way down from the root comes by every displayed node once, and by no other node. -/
theorem Rooted.perm_nodes_shape (h : Rooted t.nodes) :
    (t.shape root).nodes.Perm t.nodes.order := by
  rw [List.perm_ext_iff_of_nodup (h.nodup_nodes_shape h.root_live) h.ordered.nodup]
  intro m
  rw [h.mem_nodes_shape h.root_live, h.ordered.mem_iff]
  exact and_iff_left_of_imp h.root_mem_ancestors

/-- The tree is refused for the first fault that the walk comes to. -/
theorem Rooted.checkAllClosed_eq_error_iff (h : Rooted t.nodes) :
    t.checkAllClosed require = .error v ↔
      (t.shape root).nodes.findSome? (t.violation? require) = some v := by
  rw [checkAllClosed, h.unclosed?_eq_findSome? h.root_live]
  cases (t.shape root).nodes.findSome? (t.violation? require) <;> simp

/-- The tree is accepted when no node in it has a fault. -/
theorem Rooted.checkAllClosed_eq_ok_iff (h : Rooted t.nodes) :
    t.checkAllClosed require = .ok () ↔
      ∀ n, t.nodes.isLive n = true → t.violation? require n = none := by
  have hmem : ∀ n, n ∈ (t.shape root).nodes ↔ t.nodes.isLive n = true := fun n => by
    rw [h.perm_nodes_shape.mem_iff, h.ordered.mem_iff]
  simp only [← hmem, ← List.findSome?_eq_none_iff]
  rw [checkAllClosed, h.unclosed?_eq_findSome? h.root_live]
  cases (t.shape root).nodes.findSome? (t.violation? require) <;> simp

/-- No node violates anything if and only if all displayed leaves are closed and, where checkmarks
are required, every node but the root was branched on a checkmarked line. -/
theorem Rooted.forall_violation?_eq_none_iff (h : Rooted t.nodes) :
    (∀ n, t.nodes.isLive n = true → t.violation? require n = none) ↔
      (∀ n ∈ t.leaves, (t.node n).closed = true) ∧
        (require = true → ∀ n, t.nodes.isLive n = true → n ≠ root →
          ∃ i, (t.node n).branchedOn? = some i ∧ (t.line i).checkmarked = true) := by
  simp only [violation?_eq_none_iff, leaves, List.mem_filter, h.ordered.mem_iff]
  constructor
  · intro hall
    refine ⟨fun n hn => (hall n hn.1).2 hn.2, fun hrequire n hn hroot => ?_⟩
    obtain ⟨s, hs, -⟩ := h.stem n (Register.lt_size_of_isLive hn) hroot
    have hbranched : (t.node n).branchedOn? = some s.line := congrArg (Option.map Stem.line) hs
    have hchecked := (hall n hn).1 hrequire s.line
    exact ⟨s.line, hbranched, by simpa [BranchedUnchecked, hbranched] using hchecked⟩
  · rintro ⟨hclosed, hchecked⟩ n hn
    refine ⟨fun hrequire i hi => ?_, fun hleaf => hclosed n ⟨hn, hleaf⟩⟩
    by_cases hroot : n = root
    · have hstem : (t.node root).stem = none := h.root_stem
      simp [BranchedUnchecked, Node.branchedOn?, hroot, hstem] at hi
    · obtain ⟨j, hj, hmark⟩ := hchecked hrequire n hn hroot
      obtain rfl := Option.some.inj (hj.symm.trans hi.1)
      exact absurd (hmark.symm.trans hi.2) (by simp)

/-- After every run of operations from the empty tree, the check that all branches are closed passes
exactly if all displayed leaves are closed and, where checkmarks are required, all nodes but the root
were branched on a checkmarked line. There is a depth-first order of the nodes, which lists the
displayed ones; and the check fails with what the first node in this order violates that violates
anything. -/
theorem checkAllClosed_performAll_empty (ops : List Operation) (require : Bool) :
    let t := Tree.empty.performAll ops
    (t.checkAllClosed require = .ok () ↔
      (∀ n ∈ t.leaves, (t.node n).closed = true) ∧
        (require = true → ∀ n, t.nodes.isLive n = true → n ≠ root →
          ∃ i, (t.node n).branchedOn? = some i ∧ (t.line i).checkmarked = true)) ∧
    (∃ order, t.DepthFirst [root] order) ∧
    ∀ order, t.DepthFirst [root] order → order.Perm t.nodes.order ∧
      ∀ v, t.checkAllClosed require = .error v ↔ ∃ before n after, order = before ++ n :: after ∧
        t.Violates require n v ∧ ∀ m ∈ before, ∀ w, ¬ t.Violates require m w := by
  intro t
  have h : Rooted t.nodes := (store_empty.performAll ops).rooted
  have hshape : t.DepthFirst [root] (t.shape root).nodes := by
    simpa using h.depthFirst_shape h.root_live .nil
  refine ⟨h.checkAllClosed_eq_ok_iff.trans h.forall_violation?_eq_none_iff, ⟨_, hshape⟩, ?_⟩
  intro order horder
  obtain rfl := hshape.eq horder
  refine ⟨h.perm_nodes_shape, fun v => ?_⟩
  rw [h.checkAllClosed_eq_error_iff, List.findSome?_eq_some_iff]
  simp only [Option.eq_none_iff_forall_ne_some, ne_eq, violation?_eq_some_iff]

/-- A node that has one child from each of two branchings: the right one was branched on a line
without a checkmark, which is reported although the leaf is not closed either. -/
theorem checkAllClosed_performAll_empty_mixed :
    let t := Tree.empty.performAll [.readPremise "or(a,b)", .readPremise "or(c,d)", .branch 0 0,
      .deleteBranch 0, .branch 0 1, .deleteNode 3, .restoreNode 1, .setCheckmarked 0 true,
      .setClosed 1 true]
    t.DepthFirst [root] [0, 1, 4] ∧ [0, 1, 4].Perm t.nodes.order ∧
      t.checkAllClosed true = .error (.notCheckmarked 2) ∧
      t.Violates true 4 (.notCheckmarked 2) ∧ ¬ ∃ w, t.Violates true 1 w := by
  intro t
  obtain ⟨hroot, hleft, hright, hnone, hnone', hsome⟩ : (t.node 0).children = [1, 4] ∧
      (t.node 1).children = [] ∧ (t.node 4).children = [] ∧ t.violation? true 0 = none ∧
      t.violation? true 1 = none ∧ t.violation? true 4 = some (.notCheckmarked 2) := by
    decide +kernel
  have horder : t.DepthFirst [root] [0, 1, 4] := by
    refine .cons ?_
    rw [show (t.node root).children = _ from hroot]
    refine .cons ?_
    rw [hleft]
    refine .cons ?_
    rw [hright]
    exact .nil
  have hfirst : ∀ m ∈ [0, 1], ∀ w, ¬ t.Violates true m w := by
    simp [← violation?_eq_some_iff, hnone, hnone']
  obtain ⟨-, -, hall⟩ := checkAllClosed_performAll_empty _ true
  obtain ⟨hperm, herror⟩ := hall _ horder
  have hlast := violation?_eq_some_iff.mp hsome
  exact ⟨horder, hperm, (herror _).mpr ⟨[0, 1], 4, [], rfl, hlast, hfirst⟩, hlast,
    fun ⟨w, hw⟩ => hfirst 1 (by simp) w hw⟩

end Tree

end TruthTrees
