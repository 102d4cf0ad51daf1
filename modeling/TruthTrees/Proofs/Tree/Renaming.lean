import TruthTrees.Proofs.Register.Renaming
import TruthTrees.Proofs.Tree.Coherent
import TruthTrees.Tree.Snapshot

/-! Trees that differ in the identities of their lines and nodes and in what was deleted from them.
Only the data that is not derived from other data has to correspond: what a line says, where it
stands, what it rests on and whether it is checkmarked, and where a node grows from and how it is
marked. In coherent trees all else corresponds then, and so both trees are displayed alike. -/
namespace TruthTrees

def Justification.rename (σ : Nat → Nat) : Justification → Justification
  | missing => missing
  | premise => premise
  | line p => line (σ p)

def Stem.rename (σ τ : Nat → Nat) (s : Stem) : Stem := ⟨τ s.node, σ s.line⟩

namespace Tree

structure LineRenames (σ τ : Nat → Nat) (l l' : Line) : Prop where
  formula : l'.formula = l.formula
  node : l'.node = τ l.node
  justification : l'.justification = l.justification.rename σ
  checkmarked : l'.checkmarked = l.checkmarked

structure NodeRenames (σ τ : Nat → Nat) (n n' : Node) : Prop where
  stem : n'.stem = n.stem.map (Stem.rename σ τ)
  closed : n'.closed = n.closed
  markedOpen : n'.markedOpen = n.markedOpen

/-- The live lines and nodes of one tree are those of another one under other identities. -/
structure Renames (σ τ : Nat → Nat) (t u : Tree) : Prop where
  lines : t.lines.Alike σ u.lines
  nodes : t.nodes.Alike τ u.nodes
  line : ∀ i, t.lines.isLive i = true → LineRenames σ τ (t.line i) (u.line (σ i))
  node : ∀ n, t.nodes.isLive n = true → NodeRenames σ τ (t.node n) (u.node (τ n))

/-- Two coherent trees, one of which is the other one under other identities. -/
structure Twins (σ τ : Nat → Nat) (t u : Tree) : Prop extends Renames σ τ t u where
  left : Coherent t
  right : Coherent u

variable {σ τ : Nat → Nat} {t u : Tree} {i j n m : Nat}

namespace Renames

theorem support (h : Renames σ τ t u) (hi : t.lines.isLive i = true) :
    u.support (σ i) = (t.support i).rename σ := (h.line i hi).justification

theorem support_eq_line_iff (h : Renames σ τ t u) (ht : Linked t) {c p : Nat}
    (hc : t.lines.isLive c = true) (hp : t.lines.isLive p = true) :
    u.support (σ c) = .line (σ p) ↔ t.support c = .line p := by
  rw [h.support hc]
  cases hs : t.support c with
  | missing | premise => simp [Justification.rename]
  | line q =>
    have hq := (ht.parent c q hc hs).left_live ht.ordered
    simp [Justification.rename, h.lines.inj hq hp]

/-- The children of a renamed line are its children renamed, in the same order. -/
theorem children (h : Renames σ τ t u) (ht : Linked t) (hu : Linked u)
    (hi : t.lines.isLive i = true) :
    (u.line (σ i)).children = (t.line i).children.map σ := by
  rw [ht.children i hi, hu.children (σ i) (h.lines.isLive hi)]
  apply h.lines.filter
  intro c hc
  rw [Bool.eq_iff_iff, beq_iff_eq, beq_iff_eq, h.support_eq_line_iff ht hc hi]

theorem mem_children_iff (h : Renames σ τ t u) (ht : Linked t) (hu : Linked u)
    (hi : t.lines.isLive i = true) (hj : t.lines.isLive j = true) :
    σ j ∈ (u.line (σ i)).children ↔ j ∈ (t.line i).children := by
  rw [ht.mem_children_iff hi, hu.mem_children_iff (h.lines.isLive hi),
    h.support_eq_line_iff ht hj hi, hj, h.lines.isLive hj]

/-- A renamed line is grounded when the line is. -/
theorem grounded_iff (h : Renames σ τ t u) (ht : Linked t) (hi : t.lines.isLive i = true) :
    Grounded u.support (σ i) ↔ Grounded t.support i := by
  constructor
  · intro hg
    generalize hk : σ i = k at hg
    induction hg generalizing i with
    | premise hp =>
      subst hk
      rw [h.support hi] at hp
      refine .premise ?_
      cases hs : t.support i <;> simp_all [Justification.rename]
    | @line k p hp _ ih =>
      subst hk
      rw [h.support hi] at hp
      cases hs : t.support i with
      | missing | premise => simp [hs, Justification.rename] at hp
      | line q =>
        have hq := (ht.parent i q hi hs).left_live ht.ordered
        rw [hs] at hp
        exact .line hs (ih hq (Justification.line.inj hp))
  · intro hg
    induction hg with
    | premise hp =>
      apply Grounded.premise
      rw [h.support hi, hp]
      rfl
    | @line i p hp _ ih =>
      apply Grounded.line (p := σ p)
      · rw [h.support hi, hp]
        rfl
      · exact ih ((ht.parent i p hi hp).left_live ht.ordered)

/-- Renaming keeps validity, as it keeps what a line rests on. -/
theorem valid (h : Renames σ τ t u) (ht : Linked t) (hu : Linked u)
    (hi : t.lines.isLive i = true) : (u.line (σ i)).valid = (t.line i).valid := by
  rw [Bool.eq_iff_iff, hu.valid (σ i) (h.lines.isLive hi), ht.valid i hi, h.grounded_iff ht hi]

theorem parentCheckmarked (h : Renames σ τ t u) (ht : Linked t) (hu : Linked u)
    (hi : t.lines.isLive i = true) :
    (u.line (σ i)).parentCheckmarked = (t.line i).parentCheckmarked := by
  rw [hu.marked (σ i) (h.lines.isLive hi), ht.marked i hi, h.support hi]
  cases hs : t.support i with
  | missing | premise => rfl
  | line p =>
    have hp := (ht.parent i p hi hs).left_live ht.ordered
    simp [Justification.rename, Justification.parent?, (h.line p hp).checkmarked]

end Renames

namespace Twins

theorem formula (h : Twins σ τ t u) (hi : t.lines.isLive i = true) :
    (u.line (σ i)).formula = (t.line i).formula := (h.line i hi).formula

theorem home (h : Twins σ τ t u) (hi : t.lines.isLive i = true) :
    t.nodes.isLive (t.line i).node = true ∧ (u.line (σ i)).node = τ (t.line i).node :=
  ⟨h.left.store.holding.home i hi, (h.line i hi).node⟩

theorem parent? (h : Twins σ τ t u) (hn : t.nodes.isLive n = true) :
    (u.node (τ n)).parent? = (t.node n).parent?.map τ := by
  unfold Node.parent?
  rw [(h.node n hn).stem, Option.map_map, Option.map_map]
  rfl

theorem branchedOn? (h : Twins σ τ t u) (hn : t.nodes.isLive n = true) :
    (u.node (τ n)).branchedOn? = (t.node n).branchedOn?.map σ := by
  unfold Node.branchedOn?
  rw [(h.node n hn).stem, Option.map_map, Option.map_map]
  rfl

theorem branchedOn?_eq_some_iff (h : Twins σ τ t u) (hn : t.nodes.isLive n = true)
    (hi : t.lines.isLive i = true) :
    (u.node (τ n)).branchedOn? = some (σ i) ↔ (t.node n).branchedOn? = some i := by
  rw [h.branchedOn? hn]
  cases hs : (t.node n).stem with
  | none => simp [Node.branchedOn?, hs]
  | some s =>
    have hlive := (h.left.branched n s hn hs).1
    simp [Node.branchedOn?, hs, h.lines.inj hlive hi]

theorem branches (h : Twins σ τ t u) (hi : t.lines.isLive i = true) :
    (u.line (σ i)).branches = (t.line i).branches.map τ := by
  rw [h.left.store.branching.branches, h.right.store.branching.branches]
  apply h.nodes.filter
  intro n hn
  rw [Bool.eq_iff_iff, beq_iff_eq, beq_iff_eq, h.branchedOn?_eq_some_iff hn hi]

theorem lines_node (h : Twins σ τ t u) (hn : t.nodes.isLive n = true) :
    (u.node (τ n)).lines = (t.node n).lines.map σ := by
  rw [h.left.store.holding.lines n hn, h.right.store.holding.lines _ (h.nodes.isLive hn)]
  apply h.lines.filter
  intro i hi
  obtain ⟨hhome, heq⟩ := h.home hi
  rw [Bool.eq_iff_iff, beq_iff_eq, beq_iff_eq, heq, h.nodes.inj hhome hn]

theorem children_node (h : Twins σ τ t u) (hn : t.nodes.isLive n = true) :
    (u.node (τ n)).children = (t.node n).children.map τ := by
  have hleft := h.left.store.rooted.children n
  have hright := h.right.store.rooted.children (τ n)
  refine hright.trans (Eq.trans ?_ (congrArg (List.map τ) hleft).symm)
  apply h.nodes.filter
  intro m hm
  rw [Bool.eq_iff_iff, beq_iff_eq, beq_iff_eq]
  have hparent := h.parent? hm
  unfold Tree.node at hparent
  rw [hparent]
  cases hs : (t.nodes.get m).stem with
  | none => simp [Node.parent?, hs]
  | some s =>
    have hlive := h.left.store.rooted.parent_live m s hm hs
    simp [Node.parent?, hs, h.nodes.inj hlive hn]

/-- The root corresponds to the root, as no other live node grows from nothing. -/
theorem isLeaf (h : Twins σ τ t u) (hn : t.nodes.isLive n = true) :
    (u.node (τ n)).isLeaf = (t.node n).isLeaf := by
  unfold Node.isLeaf
  rw [h.children_node hn, List.isEmpty_map]

theorem map_root (h : Twins σ τ t u) : τ root = root := by
  have hroot := h.left.store.rooted.root_live
  have hlive := h.nodes.isLive hroot
  have hstem : (u.node (τ root)).stem = none := by
    rw [(h.node root hroot).stem, show (t.node root).stem = none from h.left.store.rooted.root_stem]
    rfl
  by_contra hne
  obtain ⟨s, hs, -⟩ :=
    h.right.store.rooted.stem _ (Register.lt_size_of_isLive hlive) hne
  exact absurd (hstem.symm.trans hs) (by simp)

/-- Twin lines have the same number. -/
theorem lineNumber (h : Twins σ τ t u) (hi : t.lines.isLive i = true) :
    u.lineNumber (σ i) = t.lineNumber i := h.lines.number hi

theorem nodeNumber (h : Twins σ τ t u) (hn : t.nodes.isLive n = true) :
    u.nodeNumber (τ n) = t.nodeNumber n := h.nodes.number hn

/-- Corresponding lines have corresponding numbers in their lists. -/
theorem map_lineNumber (h : Twins σ τ t u) {ids : List Nat}
    (hids : ∀ i ∈ ids, t.lines.isLive i = true) :
    (ids.map σ).map u.lineNumber = ids.map t.lineNumber := by
  rw [List.map_map]
  exact List.map_congr_left (fun i hi => h.lineNumber (hids i hi))

theorem map_nodeNumber (h : Twins σ τ t u) {ids : List Nat}
    (hids : ∀ n ∈ ids, t.nodes.isLive n = true) :
    (ids.map τ).map u.nodeNumber = ids.map t.nodeNumber := by
  rw [List.map_map]
  exact List.map_congr_left (fun n hn => h.nodeNumber (hids n hn))

theorem isLive_of_mem_children (h : Twins σ τ t u) (hi : t.lines.isLive i = true) :
    ∀ c ∈ (t.line i).children, t.lines.isLive c = true :=
  fun _ hc => ((h.left.linked.mem_children_iff hi).mp hc).1

theorem isLive_of_mem_branches (h : Twins σ τ t u) (i : Nat) :
    ∀ n ∈ (t.line i).branches, t.nodes.isLive n = true := by
  intro n hn
  rw [h.left.store.branching.branches] at hn
  exact (h.nodes.left.mem_iff n).mp (List.mem_of_mem_filter hn)

theorem isLive_of_mem_lines (h : Twins σ τ t u) (hn : t.nodes.isLive n = true) :
    ∀ i ∈ (t.node n).lines, t.lines.isLive i = true :=
  fun _ hi => ((h.left.store.holding.mem_lines_iff hn).mp hi).1

theorem isLive_of_mem_children_node (h : Twins σ τ t u) (n : Nat) :
    ∀ c ∈ (t.node n).children, t.nodes.isLive c = true :=
  fun _ hc => (h.left.store.rooted.mem_children_iff.mp hc).1

theorem parent?_number (h : Twins σ τ t u) (hi : t.lines.isLive i = true) :
    (u.line (σ i)).justification.parent?.map u.lineNumber =
      (t.line i).justification.parent?.map t.lineNumber := by
  rw [(h.line i hi).justification]
  cases hs : (t.line i).justification with
  | missing | premise => rfl
  | line p =>
    have hp := (h.left.linked.parent i p hi hs).left_live h.lines.left
    simp [Justification.rename, Justification.parent?, h.lineNumber hp]

theorem premise_iff (h : Twins σ τ t u) (hi : t.lines.isLive i = true) :
    (u.line (σ i)).justification = .premise ↔ (t.line i).justification = .premise := by
  rw [(h.line i hi).justification]
  cases (t.line i).justification <;> simp [Justification.rename]

theorem missing_iff (h : Twins σ τ t u) (hi : t.lines.isLive i = true) :
    (u.line (σ i)).justification = .missing ↔ (t.line i).justification = .missing := by
  rw [(h.line i hi).justification]
  cases (t.line i).justification <;> simp [Justification.rename]

/-- Twin lines look the same. -/
theorem lineView (h : Twins σ τ t u) (hi : t.lines.isLive i = true) :
    u.lineView (σ i) = t.lineView i := by
  obtain ⟨hlive, hhome⟩ := h.home hi
  have ht := h.left.linked
  have hu := h.right.linked
  unfold Tree.lineView
  simp only [h.lineNumber hi, h.formula hi, hhome, h.nodeNumber hlive, h.premise_iff hi,
    h.parent?_number hi, h.children ht hu hi, h.map_lineNumber (h.isLive_of_mem_children hi),
    h.branches hi, h.map_nodeNumber (h.isLive_of_mem_branches i), (h.line i hi).checkmarked,
    h.parentCheckmarked ht hu hi, h.valid ht hu hi]

/-- Twin nodes look the same. -/
theorem nodeView (h : Twins σ τ t u) (hn : t.nodes.isLive n = true) :
    u.nodeView (τ n) = t.nodeView n := by
  have hstem : (u.node (τ n)).parent?.map u.nodeNumber = (t.node n).parent?.map t.nodeNumber ∧
      (u.node (τ n)).branchedOn?.map u.lineNumber =
        (t.node n).branchedOn?.map t.lineNumber := by
    rw [h.parent? hn, h.branchedOn? hn]
    cases hs : (t.node n).stem with
    | none => simp [Node.parent?, Node.branchedOn?, hs]
    | some s =>
      have hparent := h.left.store.rooted.parent_live n s hn hs
      have hline := (h.left.branched n s hn hs).1
      simp [Node.parent?, Node.branchedOn?, hs, h.nodeNumber hparent, h.lineNumber hline]
  unfold Tree.nodeView
  simp only [h.nodeNumber hn, h.lines_node hn, h.map_lineNumber (h.isLive_of_mem_lines hn),
    hstem, h.children_node hn, h.map_nodeNumber (h.isLive_of_mem_children_node n),
    (h.node n hn).closed, (h.node n hn).markedOpen]

/-- Twin trees have the same snapshot. -/
theorem snapshot (h : Twins σ τ t u) : u.snapshot = t.snapshot := by
  unfold Tree.snapshot
  rw [h.lines.order, h.nodes.order, List.map_map, List.map_map]
  congr 1
  · exact List.map_congr_left (fun i hi => h.lineView ((h.lines.left.mem_iff i).mp hi))
  · exact List.map_congr_left (fun n hn => h.nodeView ((h.nodes.left.mem_iff n).mp hn))

/-- Twin trees are printed alike. -/
theorem render (h : Twins σ τ t u) : u.render = t.render := by
  unfold Tree.render
  rw [h.nodes.order, List.map_map]
  congr 1
  apply List.map_congr_left
  intro n hn
  have hlive := (h.nodes.left.mem_iff n).mp hn
  have hlines : (u.node (τ n)).lines.map (fun i => "  " ++ (u.lineView i).render ++ "\n") =
      (t.node n).lines.map (fun i => "  " ++ (t.lineView i).render ++ "\n") := by
    rw [h.lines_node hlive, List.map_map]
    apply List.map_congr_left
    intro i hi
    simp only [Function.comp, h.lineView (h.isLive_of_mem_lines hlive i hi)]
  simp only [Function.comp, h.nodeView hlive, hlines]

/-- The ancestors of a twin are the twins of the ancestors. -/
theorem ancestors (h : Twins σ τ t u) (hn : t.nodes.isLive n = true) :
    u.ancestors (τ n) = (t.ancestors n).map τ := by
  -- A node grows from an older one, so the induction is on its identity.
  induction n using Nat.strongRecOn with
  | ind n ih =>
    have hstem := (h.node n hn).stem
    cases hs : (t.node n).stem with
    | none =>
      rw [hs] at hstem
      rw [ancestors_of_root hs, ancestors_of_root hstem]
      rfl
    | some s =>
      rw [hs] at hstem
      have hparent := h.left.store.rooted.parent_live n s hn hs
      have hlt := h.left.store.rooted.stem_lt hn hs
      have hlt' := h.right.store.rooted.stem_lt (h.nodes.isLive hn) hstem
      rw [ancestors_of_stem hs hlt, ancestors_of_stem hstem hlt', List.map_cons,
        ← ih s.node hlt hparent]
      rfl

theorem isLive_of_mem_ancestors (h : Twins σ τ t u) (hn : t.nodes.isLive n = true) :
    ∀ m ∈ t.ancestors n, t.nodes.isLive m = true :=
  fun _ hm => (h.left.store.rooted.of_mem_ancestors hn hm).1

/-- Corresponding nodes are in corresponding lists. -/
theorem contains_map (h : Twins σ τ t u) {ids : List Nat}
    (hids : ∀ n ∈ ids, t.nodes.isLive n = true) (hn : t.nodes.isLive n = true) :
    (ids.map τ).contains (τ n) = ids.contains n := by
  rw [Bool.eq_iff_iff, List.contains_iff_mem, List.contains_iff_mem, List.mem_map]
  constructor
  · rintro ⟨m, hm, heq⟩
    rwa [← (h.nodes.inj (hids m hm) hn).mp heq]
  · exact fun hmem => ⟨n, hmem, rfl⟩

theorem inAncestry (h : Twins σ τ t u) (hn : t.nodes.isLive n = true)
    (hi : t.lines.isLive i = true) : u.inAncestry (τ n) (σ i) = t.inAncestry n i := by
  obtain ⟨hlive, hhome⟩ := h.home hi
  unfold Tree.inAncestry
  rw [h.ancestors hn, hhome, h.contains_map (h.isLive_of_mem_ancestors hn) hlive, hi,
    h.lines.isLive hi]

end Twins

end Tree

end TruthTrees
