import TruthTrees.Proofs.Tree.Access
import TruthTrees.Tree.Branches

/-! How lines and nodes refer to each other. The nodes form a tree under the root, every live node
lists the lines that it holds, a deleted node keeps the lines that went with it, and every line
lists the nodes that were branched on it. All these lists are parts of a display order, so each is
written as the display order with a condition. -/
namespace TruthTrees.Tree

/-- Every node lists the live nodes that grow from it, of which there are at most two. -/
structure Growing (r : Register Node) : Prop where
  ordered : r.Ordered
  children : ∀ n, (r.get n).children = r.order.filter (fun m => (r.get m).parent? == some n)
  children_le : ∀ n, (r.get n).children.length ≤ 2

/-- The nodes form a tree: all but the root grow from an older node, which lists them, and a live
node grows from a live one. -/
structure Rooted (r : Register Node) : Prop extends Growing r where
  root_live : r.isLive root = true
  root_stem : (r.get root).stem = none
  stem : ∀ n < r.size, n ≠ root → ∃ s, (r.get n).stem = some s ∧ s.node < n
  parent_live : ∀ n s, r.isLive n = true → (r.get n).stem = some s → r.isLive s.node = true
  counted : r.Counted

/-- A deleted node keeps the lines that went with it, in the order of the places that they left. -/
structure Stowed (t : Tree) (n : Nat) : Prop where
  known : ∀ i ∈ (t.node n).lines, i < t.lines.size
  dead : ∀ i ∈ (t.node n).lines, t.lines.isLive i ≠ true
  node : ∀ i ∈ (t.node n).lines, (t.line i).node = n
  sorted : (t.node n).lines.Pairwise (fun i j => t.lines.number i < t.lines.number j)

/-- Live lines are held by live nodes, and every live node lists the lines that it holds. -/
structure Held (t : Tree) : Prop where
  ordered : t.lines.Ordered
  lines : ∀ n, t.nodes.isLive n = true →
    (t.node n).lines = t.lines.order.filter (fun i => (t.line i).node == n)
  home : ∀ i, t.lines.isLive i = true → t.nodes.isLive (t.line i).node = true

structure Holding (t : Tree) : Prop extends Held t where
  stowed : ∀ n, t.nodes.isLive n ≠ true → t.Stowed n
  counted : t.lines.Counted

/-- Every line lists the live nodes that were branched on it. -/
structure Branching (t : Tree) : Prop where
  branches : ∀ i, (t.line i).branches =
    t.nodes.order.filter (fun m => (t.node m).branchedOn? == some i)
  known : ∀ n s, t.nodes.isLive n = true → (t.node n).stem = some s → s.line < t.lines.size

structure Store (t : Tree) : Prop where
  rooted : Rooted t.nodes
  holding : Holding t
  branching : Branching t

/-- The lists by which lines and nodes refer to each other, as far as these are about what is
live. -/
structure Indexed (t : Tree) : Prop where
  growing : Growing t.nodes
  held : Held t
  branching : Branching t

theorem Store.indexed {t : Tree} (h : Store t) : Indexed t :=
  ⟨h.rooted.toGrowing, h.holding.toHeld, h.branching⟩

/-- The children of a node are the nodes that grow from it. -/
theorem Growing.mem_children_iff {r : Register Node} (h : Growing r) {n m : Nat} :
    m ∈ (r.get n).children ↔ r.isLive m = true ∧ (r.get m).parent? = some n := by
  rw [h.children, List.mem_filter, h.ordered.mem_iff, beq_iff_eq]

theorem Growing.mem_children {r : Register Node} (h : Growing r) {n : Nat} {s : Stem}
    (hn : r.isLive n = true) (hs : (r.get n).stem = some s) : n ∈ (r.get s.node).children := by
  rw [h.mem_children_iff, Node.parent?, hs]
  exact ⟨hn, rfl⟩

/-- A node lists the lines that stand in it. -/
theorem Held.mem_lines_iff {t : Tree} (h : Held t) {n i : Nat}
    (hn : t.nodes.isLive n = true) :
    i ∈ (t.node n).lines ↔ t.lines.isLive i = true ∧ (t.line i).node = n := by
  rw [h.lines n hn, List.mem_filter, h.ordered.mem_iff, beq_iff_eq]

theorem Held.nodup_lines {t : Tree} (h : Held t) {n : Nat} (hn : t.nodes.isLive n = true) :
    (t.node n).lines.Nodup := by
  rw [h.lines n hn]
  exact h.ordered.nodup.filter _

/-- A live node is registered after the node that it grows from. -/
theorem Rooted.stem_lt {r : Register Node} (h : Rooted r) {n : Nat} {s : Stem}
    (hn : r.isLive n = true) (hs : (r.get n).stem = some s) : s.node < n := by
  have hroot : n ≠ root := by
    rintro rfl
    simp [h.root_stem] at hs
  obtain ⟨s', hs', hlt⟩ := h.stem n (Register.lt_size_of_isLive hn) hroot
  rwa [Option.some.inj (hs.symm.trans hs')]

theorem Rooted.congr {r r' : Register Node} (h : Rooted r) (hd : Register.SameDisplay r r')
    (hstem : ∀ n, (r'.get n).stem = (r.get n).stem)
    (hchildren : ∀ n, (r'.get n).children = (r.get n).children) : Rooted r' where
  ordered := h.ordered.congr hd
  counted := h.counted.congr hd
  root_live := by rw [hd.isLive, h.root_live]
  root_stem := by rw [hstem, h.root_stem]
  stem n hn hroot := by
    rw [hstem]
    exact h.stem n (hd.size ▸ hn) hroot
  parent_live n s hn hs := by
    rw [hd.isLive] at hn ⊢
    rw [hstem] at hs
    exact h.parent_live n s hn hs
  children n := by
    rw [hchildren, h.children, hd.order]
    simp only [Node.parent?, hstem]
  children_le n := by rw [hchildren]; exact h.children_le n

/-- Changing marks and held lines of a node does not touch the tree of nodes. -/
theorem Rooted.modify {r : Register Node} (h : Rooted r) (n : Nat) {f : Node → Node}
    (hf : ∀ nd, (f nd).stem = nd.stem ∧ (f nd).children = nd.children) :
    Rooted (r.modify n f) := by
  apply h.congr
  · exact Register.SameDisplay.modify r n f
  · intro m
    rw [Register.get_modify]
    split
    · exact (hf _).1
    · rfl
  · intro m
    rw [Register.get_modify]
    split
    · exact (hf _).2
    · rfl

/-- A deleted node does not see changes that leave alone the lines it keeps. -/
theorem Stowed.congr {t t' : Tree} {n : Nat} (h : t.Stowed n)
    (hlines : (t'.node n).lines = (t.node n).lines)
    (hsize : t.lines.size ≤ t'.lines.size)
    (hleft : ∀ i ∈ (t.node n).lines, t'.lines.leftFrom i = t.lines.leftFrom i)
    (hnode : ∀ i ∈ (t.node n).lines, (t'.line i).node = (t.line i).node) : t'.Stowed n := by
  have hnumber : ∀ i ∈ (t.node n).lines, t'.lines.number i = t.lines.number i := fun i hi =>
    Register.number_congr_of_dead (h.known i hi) (h.dead i hi) (hleft i hi)
  refine ⟨?_, ?_, ?_, ?_⟩ <;> rw [hlines]
  · exact fun i hi => Nat.lt_of_lt_of_le (h.known i hi) hsize
  · exact fun i hi =>
      Register.not_isLive_of_leftFrom_eq (h.known i hi) (h.dead i hi) (hleft i hi)
  · exact fun i hi => (hnode i hi).trans (h.node i hi)
  · apply h.sorted.imp_of_mem
    intro i j hi hj hij
    rw [hnumber i hi, hnumber j hj]
    exact hij

theorem Branching.congr {t t' : Tree} (h : Branching t)
    (hbranches : ∀ i, (t'.line i).branches = (t.line i).branches)
    (hsize : t.lines.size ≤ t'.lines.size) (horder : t'.nodes.order = t.nodes.order)
    (hlive : ∀ n, t'.nodes.isLive n = t.nodes.isLive n)
    (hstem : ∀ n, (t'.node n).stem = (t.node n).stem) : Branching t' where
  branches i := by
    rw [hbranches, h.branches, horder]
    simp only [Node.branchedOn?, hstem]
  known n s hn hs := by
    rw [hlive] at hn
    rw [hstem] at hs
    exact Nat.lt_of_lt_of_le (h.known n s hn hs) hsize

/-- Branches are stored in step as long as no line moves. -/
theorem Branching.samePlaces {t t' : Tree} (h : Branching t) (hp : SamePlaces t t') :
    Branching t' := by
  apply h.congr hp.branches (Nat.le_of_eq hp.size.symm)
  · rw [hp.nodes]
  · exact fun n => by rw [hp.nodes]
  · exact fun n => by rw [hp.nodeEq]

/-- The references do not see links, checkmarks and validity. -/
theorem Store.relinked {t t' : Tree} (h : Store t) (hr : Relinked t t') : Store t' where
  rooted := hr.nodes ▸ h.rooted
  holding := by
    have hnode : ∀ n, t'.node n = t.node n := hr.nodeEq
    refine ⟨⟨h.holding.ordered.congr hr.display, ?_, ?_⟩, ?_, h.holding.counted.congr hr.display⟩
    · intro n hn
      rw [hr.nodes] at hn
      rw [hnode, h.holding.lines n hn, hr.order]
      simp only [hr.node]
    · intro i hi
      rw [hr.isLive] at hi
      rw [hr.nodes, hr.node]
      exact h.holding.home i hi
    · intro n hn
      rw [hr.nodes] at hn
      exact (h.holding.stowed n hn).congr (by rw [hnode])
        (Nat.le_of_eq hr.size.symm) (fun i _ => hr.leftFrom i) (fun i _ => hr.node i)
  branching := h.branching.samePlaces hr.toSamePlaces

/-- The references do not see the marks of a node. -/
theorem Store.modifyNode_marks {t : Tree} (h : Store t) (n : Nat) {f : Node → Node}
    (hf : ∀ nd, (f nd).stem = nd.stem ∧ (f nd).children = nd.children ∧
      (f nd).lines = nd.lines) : Store (t.modifyNode n f) where
  rooted := h.rooted.modify n (fun nd => ⟨(hf nd).1, (hf nd).2.1⟩)
  holding := by
    have hlines : ∀ m, ((t.modifyNode n f).node m).lines = (t.node m).lines := by
      intro m
      rw [node_modifyNode]
      split
      · exact (hf _).2.2
      · rfl
    have hlive : ∀ m, (t.modifyNode n f).nodes.isLive m = t.nodes.isLive m :=
      fun m => Register.isLive_modify _ _ _ _
    refine ⟨⟨h.holding.ordered, ?_, ?_⟩, ?_, h.holding.counted⟩
    · intro m hm
      rw [hlive] at hm
      rw [hlines, h.holding.lines m hm]
      rfl
    · intro i hi
      rw [hlive]
      exact h.holding.home i hi
    · intro m hm
      rw [hlive] at hm
      exact (h.holding.stowed m hm).congr (hlines m) (Nat.le_refl _) (fun _ _ => rfl)
        (fun _ _ => rfl)
  branching := by
    apply h.branching.congr
    · exact fun _ => rfl
    · exact Nat.le_refl _
    · rfl
    · exact fun m => Register.isLive_modify _ _ _ _
    · intro m
      rw [node_modifyNode]
      split
      · exact (hf _).1
      · rfl

end TruthTrees.Tree
