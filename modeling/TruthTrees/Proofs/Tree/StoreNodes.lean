import TruthTrees.Proofs.Tree.Growth
import TruthTrees.Proofs.Tree.Outcomes
import TruthTrees.Proofs.Tree.Stowing

/-! Branching, and deleting and restoring a node with its lines, keeps the references between lines
and nodes. -/
namespace TruthTrees.Tree

theorem nodes_withFork (t : Tree) (n i : Nat) : (t.withFork n i).nodes = forked t.nodes n i := rfl

theorem line_modifyBranches (t : Tree) (i j : Nat) (g : List Nat → List Nat) :
    (t.modifyLine i (fun l => { l with branches := g l.branches })).line j =
      { t.line j with branches := if j = i ∧ j < t.lines.size then g (t.line j).branches
          else (t.line j).branches } := by
  rw [line_modifyLine]
  split <;> rfl

/-- A fork is noted on the line that is branched on, and on no other. -/
theorem line_withFork (t : Tree) (n i j : Nat) : (t.withFork n i).line j =
    { t.line j with branches := if j = i ∧ j < t.lines.size then
        (t.line j).branches ++ [t.nodes.size, t.nodes.size + 1] else (t.line j).branches } :=
  line_modifyBranches _ i j (· ++ [t.nodes.size, t.nodes.size + 1])

theorem display_withFork (t : Tree) (n i : Nat) :
    Register.SameDisplay t.lines (t.withFork n i).lines := by
  rw [withFork, lines_modifyLine]
  exact Register.SameDisplay.modify t.lines i _

theorem Holding.withFork {t : Tree} (h : Holding t) (n i : Nat) : Holding (t.withFork n i) := by
  have hlines : ∀ m, ((t.withFork n i).node m).lines = (t.node m).lines := fun m => by
    rw [show (t.withFork n i).node m = _ from get_forked t.nodes n i m]
    rfl
  have hline : ∀ j, ((t.withFork n i).line j).node = (t.line j).node := fun j => by
    rw [line_withFork]
  have horder : (t.withFork n i).lines.order = t.lines.order := rfl
  have hlive : ∀ j, (t.withFork n i).lines.isLive j = t.lines.isLive j := fun j =>
    Register.isLive_modify _ _ _ _
  have hd := display_withFork t n i
  refine ⟨⟨h.ordered.congr hd, ?_, ?_⟩, ?_, h.counted.congr hd⟩
  · intro m hm
    simp only [hlines, horder, hline]
    rcases (isLive_forked t.nodes n i m).mp hm with hm | hm
    · have hempty : t.node m = {} := Register.get_of_size_le (by omega)
      rw [hempty, eq_comm, List.filter_eq_nil_iff]
      intro j hj hjm
      have hlt := Register.lt_size_of_isLive (h.home j ((h.ordered.mem_iff j).mp hj))
      rw [beq_iff_eq.mp hjm] at hlt
      omega
    · exact h.lines m hm
  · intro j hj
    rw [hlive] at hj
    rw [hline]
    exact (isLive_forked t.nodes n i _).mpr (Or.inr (h.home j hj))
  · intro m hm
    have hm' : t.nodes.isLive m ≠ true := fun hc =>
      hm ((isLive_forked t.nodes n i m).mpr (Or.inr hc))
    exact (h.stowed m hm').congr (hlines m) (Nat.le_of_eq hd.size.symm) (fun j _ => hd.leftFrom j)
      (fun j _ => hline j)

/-- The line that was branched on lists the two new nodes as well. -/
theorem Branching.withFork {t : Tree} (h : Branching t) (hr : Rooted t.nodes) (n : Nat) {i : Nat}
    (hi : i < t.lines.size) : Branching (t.withFork n i) := by
  have hnode : ∀ m, (t.withFork n i).node m = (forked t.nodes n i).get m := fun _ => rfl
  have hnew : ∀ m, m = t.nodes.size ∨ m = t.nodes.size + 1 →
      ((t.withFork n i).node m).stem = some ⟨n, i⟩ := by
    intro m hm
    rw [hnode, get_forked, if_pos hm]
  have hold : ∀ m, t.nodes.isLive m = true →
      ((t.withFork n i).node m).stem = (t.node m).stem := by
    intro m hm
    have hlt := Register.lt_size_of_isLive hm
    rw [hnode, get_forked, if_neg (by omega)]
    rfl
  constructor
  · intro j
    have hbranches : t.nodes.order.filter
        (fun m => ((t.withFork n i).node m).branchedOn? == some j) = (t.line j).branches := by
      rw [h.branches]
      apply List.filter_congr
      intro m hm
      unfold Node.branchedOn?
      rw [hold m ((hr.ordered.mem_iff m).mp hm)]
    rw [nodes_withFork, order_forked, List.filter_append, hbranches, line_withFork]
    dsimp only
    by_cases hj : j = i
    · subst hj
      simp [hi, hnew, Node.branchedOn?]
    · rw [if_neg (fun hc => hj hc.1)]
      simp [hnew, Ne.symm hj, Node.branchedOn?]
  · intro m s hm hs
    refine Nat.lt_of_lt_of_eq ?_ (Register.size_modify _ _ _).symm
    rcases (isLive_forked t.nodes n i m).mp hm with hm | hm
    · rw [hnew m hm] at hs
      obtain rfl := Option.some.inj hs
      exact hi
    · rw [hold m hm] at hs
      exact h.known m s hm hs

/-- A fork keeps the storage in step. -/
theorem Store.withFork {t : Tree} (h : Store t) {n i : Nat} (hn : t.nodes.isLive n = true)
    (hleaf : (t.node n).children = []) (hi : t.lines.isLive i = true) :
    Store (t.withFork n i) where
  rooted := h.rooted.forked hn hleaf i
  holding := h.holding.withFork n i
  branching := h.branching.withFork h.rooted n (Register.lt_size_of_isLive hi)

theorem nodes_withoutNode (t : Tree) (n : Nat) (s : Stem) :
    (t.withoutNode n s).nodes = cut t.nodes n s.node := rfl

theorem line_withoutNode (t : Tree) (n : Nat) (s : Stem) (j : Nat) :
    (t.withoutNode n s).line j =
      { t.line j with branches := if j = s.line ∧ j < t.lines.size then
          (t.line j).branches.filter (· ≠ n) else (t.line j).branches } :=
  line_modifyBranches _ s.line j (·.filter (· ≠ n))

theorem display_withoutNode (t : Tree) (n : Nat) (s : Stem) :
    Register.SameDisplay t.lines (t.withoutNode n s).lines := by
  simp only [withoutNode, lines_modifyNode, lines_modifyLine]
  exact Register.SameDisplay.modify t.lines s.line _

/-- Every line lists the live nodes that were branched on it when one of these is deleted. -/
theorem Branching.withoutNode {t : Tree} (h : Branching t) (ho : t.nodes.Ordered) {n : Nat}
    {s : Stem} (hn : t.nodes.isLive n = true) (hs : (t.node n).stem = some s) :
    Branching (t.withoutNode n s) := by
  have hstem : ∀ m, ((t.withoutNode n s).node m).stem = (t.node m).stem :=
    stem_cut t.nodes n s.node
  have horder : (t.withoutNode n s).nodes.order = t.nodes.order.filter (· ≠ n) :=
    order_cut ho hn s.node
  have hsize : (t.withoutNode n s).lines.size = t.lines.size := Register.size_modify _ _ _
  constructor
  · intro j
    have hfilter : (t.withoutNode n s).nodes.order.filter
        (fun m => ((t.withoutNode n s).node m).branchedOn? == some j) =
          (t.line j).branches.filter (· ≠ n) := by
      rw [horder, h.branches, List.filter_filter, List.filter_filter]
      apply List.filter_congr
      intro m _
      unfold Node.branchedOn?
      rw [hstem, Bool.and_comm]
    rw [hfilter, line_withoutNode]
    dsimp only
    split
    · rfl
    · rename_i hj
      symm
      rw [List.filter_eq_self]
      intro m hm
      have hmn : m ≠ n := by
        rintro rfl
        rw [h.branches, List.mem_filter, beq_iff_eq, Node.branchedOn?, hs] at hm
        obtain rfl : s.line = j := Option.some.inj hm.2
        exact hj ⟨rfl, h.known m s hn hs⟩
      simpa using hmn
  · intro m s' hm hs'
    rw [hsize]
    rw [hstem] at hs'
    exact h.known m s' ((isLive_cut _ _ _ _).mp hm).2 hs'

section DeleteNode

variable {t : Tree} {ids : List Nat} {n : Nat} {s : Stem}

theorem nodes_stow_withoutNode :
    ((t.stow ids).withoutNode n s).nodes = cut t.nodes n s.node := by
  rw [nodes_withoutNode, (SamePlaces.stow t ids).nodes]

theorem lines_stow_withoutNode (m : Nat) :
    (((t.stow ids).withoutNode n s).node m).lines = (t.node m).lines := by
  unfold Tree.node
  rw [nodes_stow_withoutNode, get_cut]

theorem node_stow_withoutNode (j : Nat) :
    (((t.stow ids).withoutNode n s).line j).node = (t.line j).node := by
  rw [line_withoutNode]
  exact (SamePlaces.stow t ids).node j

theorem size_stow_withoutNode :
    ((t.stow ids).withoutNode n s).lines.size = t.lines.size :=
  (Register.size_modify _ _ _).trans (SamePlaces.stow t ids).size

/-- A node that is deleted takes its lines along. -/
theorem isLive_stow_withoutNode (j : Nat) :
    ((t.stow ids).withoutNode n s).lines.isLive j = true ↔
      j ∉ ids ∧ t.lines.isLive j = true := by
  rw [← isLive_stow]
  exact Bool.eq_iff_iff.mp (Register.isLive_modify _ _ _ _)

theorem ordered_stow_withoutNode (h : t.lines.Ordered) (hids : ids.Sublist t.lines.order) :
    ((t.stow ids).withoutNode n s).lines.Ordered :=
  (ordered_stow h hids).congr (display_withoutNode _ n s)

/-- The lines of a deleted node keep their numbers for their return. -/
theorem leftFrom_stow_withoutNode (h : t.lines.Ordered) (hids : ids.Sublist t.lines.order)
    (j : Nat) : ((t.stow ids).withoutNode n s).lines.leftFrom j =
      if j ∈ ids then some (t.lines.order.idxOf j + 1) else t.lines.leftFrom j :=
  (Register.leftFrom_modify _ _ _ _).trans (leftFrom_stow h hids j)

theorem Held.sublist (h : Held t) (hn : t.nodes.isLive n = true) :
    (t.node n).lines.Sublist t.lines.order := by
  rw [h.lines n hn]
  exact List.filter_sublist

/-- The lines of a deleted node go with it, and remember the places that they had. -/
theorem Held.stowed_deleteNode (h : Held t) (hn : t.nodes.isLive n = true) (s : Stem) :
    ((t.stow (t.node n).lines).withoutNode n s).Stowed n := by
  have hsub := h.sublist hn
  have hnumber : ∀ j ∈ (t.node n).lines,
      ((t.stow (t.node n).lines).withoutNode n s).lines.number j = t.lines.number j := by
    intro j hj
    have hlive := ((h.mem_lines_iff hn).mp hj).1
    have hlt := Register.lt_size_of_isLive hlive
    rw [(ordered_stow_withoutNode h.ordered hsub).number_eq (size_stow_withoutNode.symm ▸ hlt),
      leftFrom_stow_withoutNode h.ordered hsub, if_pos hj, Option.getD_some,
      h.ordered.numbered j hlive]
  apply Stowed.mk
  all_goals rw [lines_stow_withoutNode]
  · intro j hj
    rw [size_stow_withoutNode]
    exact Register.lt_size_of_isLive ((h.mem_lines_iff hn).mp hj).1
  · exact fun j hj hc => ((isLive_stow_withoutNode j).mp hc).1 hj
  · exact fun j hj => (node_stow_withoutNode j).trans ((h.mem_lines_iff hn).mp hj).2
  · apply (h.ordered.pairwise_number hsub).imp_of_mem
    intro i j hi hj hij
    rw [hnumber i hi, hnumber j hj]
    exact hij

theorem Held.deleteNode (h : Held t) (hn : t.nodes.isLive n = true) (s : Stem) :
    Held ((t.stow (t.node n).lines).withoutNode n s) := by
  have hmem : ∀ j, j ∈ (t.node n).lines ↔ t.lines.isLive j = true ∧ (t.line j).node = n :=
    fun j => h.mem_lines_iff hn
  have horder : ((t.stow (t.node n).lines).withoutNode n s).lines.order =
      t.lines.order.filter (· ∉ (t.node n).lines) := order_stow h.ordered (h.sublist hn)
  refine ⟨ordered_stow_withoutNode h.ordered (h.sublist hn), ?_, ?_⟩
  · intro m hm
    rw [nodes_stow_withoutNode, isLive_cut] at hm
    rw [lines_stow_withoutNode, h.lines m hm.2, horder, List.filter_filter]
    apply List.filter_congr
    intro j _
    rw [node_stow_withoutNode]
    by_cases hj : (t.line j).node = m
    · have hnot : j ∉ (t.node n).lines := fun hc => hm.1 (hj.symm.trans ((hmem j).mp hc).2)
      simp [hj, hnot]
    · simp [hj]
  · intro j hj
    obtain ⟨hjn, hj⟩ := (isLive_stow_withoutNode j).mp hj
    rw [nodes_stow_withoutNode, isLive_cut, node_stow_withoutNode]
    exact ⟨fun hc => hjn ((hmem j).mpr ⟨hj, hc⟩), h.home j hj⟩

theorem Holding.deleteNode (h : Holding t) (hn : t.nodes.isLive n = true) (s : Stem) :
    Holding ((t.stow (t.node n).lines).withoutNode n s) := by
  have hcounted : ((t.stow (t.node n).lines).withoutNode n s).lines.Counted := by
    apply (ordered_stow_withoutNode h.ordered (h.sublist hn)).counted_of
    intro j k hk
    rw [leftFrom_stow_withoutNode h.ordered (h.sublist hn)] at hk
    split at hk
    · exact Option.some.inj hk ▸ Nat.succ_pos _
    · exact h.counted.leftFrom_pos hk
  refine ⟨h.toHeld.deleteNode hn s, ?_, hcounted⟩
  intro m hm
  by_cases hmn : m = n
  · subst hmn
    exact h.stowed_deleteNode hn s
  · rw [nodes_stow_withoutNode] at hm
    have hst := h.stowed m (fun hc => hm ((isLive_cut _ _ _ _).mpr ⟨hmn, hc⟩))
    apply hst.congr (lines_stow_withoutNode m) (Nat.le_of_eq size_stow_withoutNode.symm)
    · intro j hj
      rw [leftFrom_stow_withoutNode h.ordered (h.sublist hn),
        if_neg (fun hc => hst.dead j hj ((h.mem_lines_iff hn).mp hc).1)]
    · exact fun j _ => node_stow_withoutNode j

/-- Deleting a node keeps the index in step. -/
theorem Indexed.deleteNode (h : Indexed t) (hn : t.nodes.isLive n = true)
    (hs : (t.node n).stem = some s) : Indexed ((t.stow (t.node n).lines).withoutNode n s) := by
  have hplaces : SamePlaces t (t.stow (t.node n).lines) := SamePlaces.stow t _
  refine ⟨?_, h.held.deleteNode hn s, (h.branching.samePlaces hplaces).withoutNode ?_ ?_ ?_⟩
  · rw [nodes_stow_withoutNode]
    exact h.growing.cut hn hs
  · rw [hplaces.nodes]
    exact h.growing.ordered
  · rw [hplaces.nodes]
    exact hn
  · rw [hplaces.nodeEq]
    exact hs

/-- Deleting a leaf, together with its lines. -/
theorem Store.deleteNode (h : Store t) (hn : t.nodes.isLive n = true)
    (hleaf : (t.node n).children = []) (hs : (t.node n).stem = some s) :
    Store ((t.stow (t.node n).lines).withoutNode n s) := by
  refine ⟨?_, h.holding.deleteNode hn s, (h.indexed.deleteNode hn hs).branching⟩
  rw [nodes_stow_withoutNode]
  exact h.rooted.cut hn hs hleaf

end DeleteNode

theorem line_withNode (t : Tree) (n : Nat) (s : Stem) (j : Nat) :
    (t.withNode n s).line j =
      { t.line j with branches := if j = s.line ∧ j < t.lines.size then
          (t.nodes.reinstate n).place n (t.line j).branches else (t.line j).branches } := by
  have hplace : ∀ ids, (regrown t.nodes n s.node).place n ids = (t.nodes.reinstate n).place n ids :=
    Register.place_congr (number_regrown t.nodes n s.node) n
  refine (line_modifyBranches _ s.line j ((regrown t.nodes n s.node).place n)).trans ?_
  simp only [hplace]
  rfl

theorem display_withNode (t : Tree) (n : Nat) (s : Stem) :
    Register.SameDisplay t.lines (t.withNode n s).lines := by
  rw [withNode, lines_modifyLine]
  exact Register.SameDisplay.modify t.lines s.line _

/-- A node that is restored is a branch of its line again. -/
theorem Branching.withNode {t : Tree} (h : Branching t) (ho : t.nodes.Ordered) {n : Nat} {s : Stem}
    (hn : n < t.nodes.size) (hdead : t.nodes.isLive n ≠ true) (hs : (t.node n).stem = some s)
    (hl : s.line < t.lines.size) : Branching (t.withNode n s) := by
  have hstem : ∀ m, ((t.withNode n s).node m).stem = (t.node m).stem :=
    stem_regrown t.nodes n s.node
  have horder : (t.withNode n s).nodes.order = (t.nodes.reinstate n).order := rfl
  have hsize : (t.withNode n s).lines.size = t.lines.size := Register.size_modify _ _ _
  constructor
  · intro j
    rw [line_withNode, horder]
    simp only [Node.branchedOn?, hstem]
    by_cases hj : j = s.line
    · subst hj
      rw [if_pos ⟨rfl, hl⟩, h.branches]
      exact ho.place_reinstate hn hdead (by simp [hs, Node.branchedOn?])
    · rw [if_neg (fun hc => hj hc.1), h.branches, Register.filter_reinstate_of_false]
      · rfl
      · simpa [hs] using Ne.symm hj
  · intro m s' hm hs'
    rw [hsize]
    rw [hstem] at hs'
    rcases (isLive_regrown _ _ _ _).mp hm with ⟨rfl, -⟩ | hm
    · obtain rfl := Option.some.inj (hs.symm.trans hs')
      exact hl
    · exact h.known m s' hm hs'

/-- The lines that a deleted node keeps wait to be put back, and no displayed line is held by it. -/
theorem Holding.waiting_withNode {t : Tree} (h : Holding t) {n : Nat} (s : Stem)
    (hdead : t.nodes.isLive n ≠ true) :
    t.lines.order.filter (fun j => (t.line j).node == n) = [] ∧
      Waiting (t.withNode n s) (t.node n).lines (fun j => (t.line j).node == n) := by
  have hst : t.Stowed n := h.stowed n hdead
  have hnone : t.lines.order.filter (fun j => (t.line j).node == n) = [] := by
    rw [List.filter_eq_nil_iff]
    intro j hj hjn
    have hhome := h.home j ((h.ordered.mem_iff j).mp hj)
    rw [beq_iff_eq.mp hjn] at hhome
    exact hdead hhome
  have hd := display_withNode t n s
  refine ⟨hnone, h.ordered.congr hd, ?_, ?_, ?_, ?_, ?_, ?_⟩
  · intro j hj
    exact Nat.lt_of_lt_of_eq (hst.known j hj) hd.size.symm
  · intro j hj
    rw [hd.isLive]
    exact hst.dead j hj
  · exact fun j hj => beq_iff_eq.mpr (hst.node j hj)
  · simp only [hd.number]
    exact hst.sorted
  · intro j hj
    exact absurd (hnone ▸ hj) List.not_mem_nil
  · intro j hj
    rw [hd.number]
    exact h.counted j (hst.known j hj)

/-- Restoring a deleted node below its parent, together with its lines. -/
theorem Store.restoreNode {t : Tree} (h : Store t) {n : Nat} {s : Stem} (hn : n < t.nodes.size)
    (hdead : t.nodes.isLive n ≠ true) (hs : (t.node n).stem = some s)
    (hp : t.nodes.isLive s.node = true) (htwo : (t.node s.node).children.length < 2)
    (hl : t.lines.isLive s.line = true) :
    Store ((t.withNode n s).unstow (t.node n).lines) := by
  obtain ⟨hnone, hwaiting⟩ := h.holding.waiting_withNode s hdead
  have hst : t.Stowed n := h.holding.stowed n hdead
  have hbranching : Branching (t.withNode n s) :=
    h.branching.withNode h.rooted.ordered hn hdead hs (Register.lt_size_of_isLive hl)
  have hleftv : ∀ j, (t.withNode n s).lines.leftFrom j = t.lines.leftFrom j := fun j =>
    Register.leftFrom_modify _ _ _ _
  have hnodev : ∀ j, ((t.withNode n s).line j).node = (t.line j).node := fun j => by
    rw [line_withNode]
  set ids := (t.node n).lines with hids
  set v := t.withNode n s with hv
  have horderv : v.lines.order = t.lines.order := rfl
  have hun := hwaiting.unstowed
  have hplaces : SamePlaces v (v.unstow ids) := SamePlaces.unstow v ids
  have hnodes : (v.unstow ids).nodes = regrown t.nodes n s.node := hplaces.nodes
  have hlines : ∀ m, ((v.unstow ids).node m).lines = (t.node m).lines := fun m => by
    unfold Tree.node
    rw [hnodes, get_regrown]
  have hnode : ∀ j, ((v.unstow ids).line j).node = (t.line j).node := fun j =>
    (hplaces.node j).trans (hnodev j)
  have hsize : (v.unstow ids).lines.size = t.lines.size :=
    hplaces.size.trans (Register.size_modify _ _ _)
  have hcounted : (v.unstow ids).lines.Counted := by
    apply h.holding.counted.of_leftFrom hun.ordered
    intro j k hk
    rw [hun.leftFrom, hleftv] at hk
    split at hk
    · simp at hk
    · exact hk
  refine ⟨?_, ⟨⟨hun.ordered, ?_, ?_⟩, ?_, hcounted⟩, ?_⟩
  · rw [hnodes]
    exact h.rooted.regrown hn hdead hs hp htwo
  · intro m hm
    rw [hnodes, isLive_regrown] at hm
    simp only [hlines, hnode]
    rcases hm with ⟨rfl, -⟩ | hm
    · rw [hun.chosen, horderv, hnone, List.nil_append]
    · have hmn : n ≠ m := fun hc => hdead (hc ▸ hm)
      rw [h.holding.lines m hm, hun.others]
      · rw [horderv]
      · intro j hj
        simpa [hst.node j hj] using hmn
  · intro j hj
    rw [hnodes, isLive_regrown, hnode]
    by_cases hjn : j ∈ ids
    · exact Or.inl ⟨hst.node j hjn, hn⟩
    · rw [Register.isLive_iff, hun.leftFrom, if_neg hjn, hleftv, hsize, ← Register.isLive_iff] at hj
      exact Or.inr (h.holding.home j hj)
  · intro m hm
    rw [hnodes] at hm
    have hmn : m ≠ n := fun hc => hm ((isLive_regrown _ _ _ _).mpr (Or.inl ⟨hc, hn⟩))
    have hm' : t.nodes.isLive m ≠ true := fun hc =>
      hm ((isLive_regrown _ _ _ _).mpr (Or.inr hc))
    have hst' := h.holding.stowed m hm'
    apply hst'.congr (hlines m) (Nat.le_of_eq hsize.symm)
    · intro j hj
      have hjn : j ∉ ids := fun hc => hmn ((hst'.node j hj).symm.trans (hst.node j hc))
      rw [hun.leftFrom, if_neg hjn, hleftv]
    · exact fun j _ => hnode j
  · exact hbranching.samePlaces hplaces

end TruthTrees.Tree
