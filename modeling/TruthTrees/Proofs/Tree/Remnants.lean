import TruthTrees.Proofs.Register.Extend
import TruthTrees.Proofs.Tree.Inverses

/-! Undoing the addition of a line or of branches does not give back the tree that was there before:
the deleted line or the deleted nodes stay behind as further entries. Such remnants do not matter. A
coherent tree with remnants is coherent, and whatever could be done to the tree without them can be
done with them, and leaves them alone. -/
namespace TruthTrees.Tree

structure Remnants where
  lines : List (Entry Line)
  nodes : List (Entry Node)

def extend (t : Tree) (r : Remnants) : Tree := ⟨t.lines.extend r.lines, t.nodes.extend r.nodes⟩

/-- What is left behind is deleted. Lines among it were not branched on, and nodes hold nothing and
grow from nodes of the tree. -/
structure Fits (t : Tree) (r : Remnants) : Prop where
  lines_dead : ∀ e ∈ r.lines, e.Withdrawn
  lines_bare : ∀ e ∈ r.lines, e.value.branches = []
  nodes_dead : ∀ e ∈ r.nodes, e.Withdrawn
  nodes_bare : ∀ e ∈ r.nodes, e.value.lines = [] ∧ e.value.children = []
  nodes_stem : ∀ e ∈ r.nodes, ∃ s, e.value.stem = some s ∧ s.node < t.nodes.size

theorem Fits.congr {t u : Tree} {r : Remnants} (h : Fits t r)
    (hsize : u.nodes.size = t.nodes.size) : Fits u r :=
  { h with nodes_stem := fun e he => hsize ▸ h.nodes_stem e he }

section Reading

variable {t : Tree} {r : Remnants} {i n : Nat}

/-- Remnants come after the lines that are there. -/
theorem line_extend (hi : i < t.lines.size) : (t.extend r).line i = t.line i :=
  t.lines.get_extend_of_lt r.lines hi

theorem node_extend (hn : n < t.nodes.size) : (t.extend r).node n = t.node n :=
  t.nodes.get_extend_of_lt r.nodes hn

/-- No remnant is in the tree. -/
theorem Fits.isLive_line (h : Fits t r) (i : Nat) :
    (t.extend r).lines.isLive i = t.lines.isLive i := Register.isLive_extend h.lines_dead i

theorem Fits.isLive_node (h : Fits t r) (n : Nat) :
    (t.extend r).nodes.isLive n = t.nodes.isLive n := Register.isLive_extend h.nodes_dead n

theorem line_extend_of_isLive (hi : t.lines.isLive i = true) : (t.extend r).line i = t.line i :=
  line_extend (Register.lt_size_of_isLive hi)

theorem node_extend_of_isLive (hn : t.nodes.isLive n = true) : (t.extend r).node n = t.node n :=
  node_extend (Register.lt_size_of_isLive hn)

/-- A remnant, or no line at all, is like a line that was not branched on. -/
theorem Fits.branches_of_le (h : Fits t r) (hi : t.lines.size ≤ i) :
    ((t.extend r).line i).branches = [] := by
  by_cases hlt : i < (t.extend r).lines.size
  · obtain ⟨e, he, hvalue, -⟩ := t.lines.get_extend_of_le r.lines hi hlt
    rw [show (t.extend r).line i = _ from hvalue, h.lines_bare e he]
  · rw [show (t.extend r).line i = default from Register.get_of_size_le (Nat.le_of_not_lt hlt)]
    rfl

theorem Fits.node_bare_of_le (h : Fits t r) (hn : t.nodes.size ≤ n) :
    ((t.extend r).node n).lines = [] ∧ ((t.extend r).node n).children = [] := by
  by_cases hlt : n < (t.extend r).nodes.size
  · obtain ⟨e, he, hvalue, -⟩ := t.nodes.get_extend_of_le r.nodes hn hlt
    rw [show (t.extend r).node n = _ from hvalue]
    exact h.nodes_bare e he
  · rw [show (t.extend r).node n = default from Register.get_of_size_le (Nat.le_of_not_lt hlt)]
    exact ⟨rfl, rfl⟩

end Reading

/-- Remnants of nodes leave the tree rooted. -/
theorem Rooted.extend {t : Tree} (h : Rooted t.nodes) {r : Remnants} (hr : Fits t r) :
    Rooted (t.extend r).nodes := by
  have hlive := hr.isLive_node
  have hget : ∀ n, t.nodes.isLive n = true → (t.extend r).nodes.get n = t.nodes.get n :=
    fun n hn => node_extend_of_isLive hn
  have hroot := h.root_live
  have hchildren : ∀ n, (t.nodes.order.filter
      (fun m => ((t.extend r).nodes.get m).parent? == some n)) =
        t.nodes.order.filter (fun m => (t.nodes.get m).parent? == some n) := by
    intro n
    apply List.filter_congr
    intro m hm
    rw [hget m ((h.ordered.mem_iff m).mp hm)]
  refine ⟨⟨h.ordered.extend hr.nodes_dead, ?_, ?_⟩, ?_, ?_, ?_, ?_,
    h.counted.extend hr.nodes_dead⟩
  · intro n
    by_cases hlt : n < t.nodes.size
    · rw [show (t.extend r).nodes.get n = _ from node_extend hlt]
      exact (h.children n).trans (hchildren n).symm
    · have hbare := (hr.node_bare_of_le (Nat.le_of_not_lt hlt)).2
      have hnone : (t.nodes.get n).children = [] :=
        congrArg Node.children (Register.get_of_size_le (Nat.le_of_not_lt hlt))
      refine hbare.trans ?_
      rw [← hnone, h.children n]
      exact (hchildren n).symm
  · intro n
    by_cases hlt : n < t.nodes.size
    · rw [show (t.extend r).nodes.get n = _ from node_extend hlt]
      exact h.children_le n
    · rw [show ((t.extend r).nodes.get n).children = _ from
        (hr.node_bare_of_le (Nat.le_of_not_lt hlt)).2]
      exact Nat.zero_le 2
  · rw [hlive, hroot]
  · rw [hget root hroot, h.root_stem]
  · intro n hn hne
    by_cases hlt : n < t.nodes.size
    · rw [show (t.extend r).nodes.get n = _ from node_extend hlt]
      exact h.stem n hlt hne
    · obtain ⟨e, he, hvalue, -⟩ := t.nodes.get_extend_of_le r.nodes (Nat.le_of_not_lt hlt) hn
      obtain ⟨s, hs, hsn⟩ := hr.nodes_stem e he
      exact ⟨s, (congrArg Node.stem hvalue).trans hs, by omega⟩
  · intro n s hn hs
    rw [hlive] at hn ⊢
    rw [hget n hn] at hs
    exact h.parent_live n s hn hs

/-- Remnants do not disturb the storage. -/
theorem Store.extend {t : Tree} (h : Store t) {r : Remnants} (hr : Fits t r) :
    Store (t.extend r) := by
  have hlive := hr.isLive_line
  have hliveNode := hr.isLive_node
  have horder : (t.extend r).lines.order = t.lines.order := rfl
  have horderNode : (t.extend r).nodes.order = t.nodes.order := rfl
  refine ⟨h.rooted.extend hr, ⟨⟨h.holding.ordered.extend hr.lines_dead, ?_, ?_⟩, ?_,
    h.holding.counted.extend hr.lines_dead⟩, ⟨?_, ?_⟩⟩
  · intro n hn
    rw [hliveNode] at hn
    rw [node_extend_of_isLive hn, h.holding.lines n hn, horder]
    apply List.filter_congr
    intro i hi
    rw [line_extend_of_isLive ((h.holding.ordered.mem_iff i).mp hi)]
  · intro i hi
    rw [hlive] at hi
    rw [hliveNode, line_extend_of_isLive hi]
    exact h.holding.home i hi
  · intro n hn
    rw [hliveNode] at hn
    by_cases hlt : n < t.nodes.size
    · have hst := h.holding.stowed n hn
      apply hst.congr
      · rw [node_extend hlt]
      · exact Nat.le_trans (Nat.le_add_right _ _) (Nat.le_of_eq (t.lines.size_extend _).symm)
      · exact fun i hi => t.lines.leftFrom_extend_of_lt _ (hst.known i hi)
      · exact fun i hi => congrArg Line.node (line_extend (hst.known i hi))
    · apply Stowed.mk
      all_goals rw [(hr.node_bare_of_le (Nat.le_of_not_lt hlt)).1]
      all_goals simp
  · intro i
    have hfilter : (t.extend r).nodes.order.filter
        (fun m => ((t.extend r).node m).branchedOn? == some i) =
          t.nodes.order.filter (fun m => (t.node m).branchedOn? == some i) := by
      rw [horderNode]
      apply List.filter_congr
      intro m hm
      rw [node_extend_of_isLive ((h.rooted.ordered.mem_iff m).mp hm)]
    rw [hfilter, ← h.branching.branches]
    by_cases hlt : i < t.lines.size
    · rw [line_extend hlt]
    · rw [hr.branches_of_le (Nat.le_of_not_lt hlt),
        show t.line i = default from Register.get_of_size_le (Nat.le_of_not_lt hlt)]
      rfl
  · intro n s hn hs
    rw [hliveNode] at hn
    rw [node_extend_of_isLive hn] at hs
    exact Nat.lt_of_lt_of_le (h.branching.known n s hn hs)
      (Nat.le_trans (Nat.le_add_right _ _) (Nat.le_of_eq (t.lines.size_extend _).symm))

theorem support_extend {t : Tree} {r : Remnants} {i : Nat} (hi : t.lines.isLive i = true) :
    (t.extend r).support i = t.support i := congrArg Line.justification (line_extend_of_isLive hi)

/-- Remnants do not disturb the links. -/
theorem Linked.extend {t : Tree} (h : Linked t) {r : Remnants} (hr : Fits t r) :
    Linked (t.extend r) := by
  have hlive := hr.isLive_line
  have horder : (t.extend r).lines.order = t.lines.order := rfl
  refine
    { ordered := h.ordered.extend hr.lines_dead
      parent := ?_
      children := ?_
      valid := ?_
      marked := ?_ }
  · intro c p hc hp
    rw [hlive] at hc
    rw [support_extend hc] at hp
    exact h.parent c p hc hp
  · intro i hi
    rw [hlive] at hi
    rw [line_extend_of_isLive hi, h.children i hi, horder]
    apply List.filter_congr
    intro c hc
    rw [support_extend ((h.ordered.mem_iff c).mp hc)]
  · intro i hi
    rw [hlive] at hi
    rw [line_extend_of_isLive hi, h.valid i hi]
    symm
    apply Grounded.congr_of_not_meets (M := fun j => t.lines.isLive j ≠ true)
    · intro j hj
      exact support_extend (not_not.mp hj)
    · rintro ⟨m, hm, hmi⟩
      rcases Relation.reflTransGen_iff_eq_or_transGen.mp hmi with rfl | hmi
      · exact hm hi
      · exact hm (h.isLive_of_restsOn hi hmi)
  · intro i hi
    rw [hlive] at hi
    rw [line_extend_of_isLive hi, support_extend hi, h.marked i hi]
    cases hs : t.support i with
    | line p =>
      have hp := h.parent_live i p hi hs
      simp only [Justification.parent?, Option.any_some, line_extend_of_isLive hp]
    | _ => rfl

theorem Branched.extend {t : Tree} (h : Branched t) (hrooted : Rooted t.nodes) {r : Remnants}
    (hr : Fits t r) : Branched (t.extend r) := by
  intro n s hn hs
  rw [hr.isLive_node] at hn
  rw [node_extend_of_isLive hn] at hs
  obtain ⟨hl, hmem⟩ := h n s hn hs
  have hp := hrooted.parent_live n s hn hs
  have hanc : (t.extend r).ancestors s.node = t.ancestors s.node := by
    apply ancestors_congr
    intro m hm
    rw [node_extend (Nat.lt_of_le_of_lt hm (Register.lt_size_of_isLive hp))]
  rw [hr.isLive_line, line_extend_of_isLive hl, hanc]
  exact ⟨hl, hmem⟩

/-- Remnants leave the tree coherent. -/
theorem Coherent.extend {t : Tree} (h : Coherent t) {r : Remnants} (hr : Fits t r) :
    Coherent (t.extend r) :=
  ⟨h.store.extend hr, h.linked.extend hr, h.branched.extend h.store.rooted hr⟩

/-- A tree that goes on after another one, without anything live, is that one with remnants. -/
theorem Coherent.exists_extend {t u : Tree} (ht : Coherent t) (hu : Coherent u)
    (hlines : t.lines.Continues u.lines) (hnodes : t.nodes.Continues u.nodes)
    (hbranches : ∀ i, t.lines.size ≤ i → i < u.lines.size → (u.line i).branches = [])
    (hbare : ∀ n, t.nodes.size ≤ n → n < u.nodes.size → (u.node n).lines = [] ∧
      (u.node n).children = [] ∧ ∃ s, (u.node n).stem = some s ∧ s.node < t.nodes.size) :
    ∃ r, Fits t r ∧ u = t.extend r := by
  refine ⟨⟨u.lines.entries.drop t.lines.size, u.nodes.entries.drop t.nodes.size⟩, ?_,
    eq_of_parts (hlines.eq_extend ht.linked.ordered hu.linked.ordered)
      (hnodes.eq_extend ht.store.rooted.ordered hu.store.rooted.ordered)⟩
  -- The remnants are the entries behind the old ones. Nothing more is displayed than before, so
  -- none of them is live.
  constructor
  · intro e he
    obtain ⟨i, hi, hlt, rfl⟩ := Register.mem_drop_entries he
    exact hlines.withdrawn ht.linked.ordered hu.linked.ordered hu.store.holding.counted hi hlt
  · intro e he
    obtain ⟨i, hi, hlt, rfl⟩ := Register.mem_drop_entries he
    exact hbranches i hi hlt
  · intro e he
    obtain ⟨n, hn, hlt, rfl⟩ := Register.mem_drop_entries he
    exact hnodes.withdrawn ht.store.rooted.ordered hu.store.rooted.ordered
      hu.store.rooted.counted hn
      hlt
  · intro e he
    obtain ⟨n, hn, hlt, rfl⟩ := Register.mem_drop_entries he
    obtain ⟨hl, hc, -⟩ := hbare n hn hlt
    exact ⟨hl, hc⟩
  · intro e he
    obtain ⟨n, hn, hlt, rfl⟩ := Register.mem_drop_entries he
    exact (hbare n hn hlt).2.2

end TruthTrees.Tree
