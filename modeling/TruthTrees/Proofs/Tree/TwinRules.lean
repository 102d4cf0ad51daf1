import TruthTrees.Proofs.Tree.Renaming
import TruthTrees.Tree.Rules

/-! The rules do not see identities. Twin trees pass and fail the same checks, and where a check
fails it names the same numbers. -/
namespace TruthTrees

/-- Two shapes that have corresponding live nodes in the same places. -/
inductive Shape.Alike (live : Nat → Prop) (τ : Nat → Nat) : Shape → Shape → Prop
  | leaf {n : Nat} (hn : live n) : Alike live τ (.leaf n) (.leaf (τ n))
  | single {n : Nat} {s s' : Shape} (hn : live n) (h : Alike live τ s s') :
    Alike live τ (.single n s) (.single (τ n) s')
  | fork {n : Nat} {l l' r r' : Shape} (hn : live n) (hl : Alike live τ l l')
      (hr : Alike live τ r r') : Alike live τ (.fork n l r) (.fork (τ n) l' r')

theorem Shape.Alike.node {live : Nat → Prop} {τ : Nat → Nat} {s s' : Shape}
    (h : Alike live τ s s') : live s.node ∧ s'.node = τ s.node := by
  cases h with
  | leaf hn | single hn | fork hn => exact ⟨hn, rfl⟩

namespace Tree

/-- In a tree of nodes, the children of a node are what its shape grows into. -/
theorem Rooted.shape_eq {t : Tree} (h : Rooted t.nodes) (n : Nat) :
    t.shape n = match (t.node n).children with
      | [] => .leaf n
      | [c] => .single n (t.shape c)
      | l :: r :: _ => .fork n (t.shape l) (t.shape r) := by
  have hchild : ∀ c ∈ (t.node n).children, n < c ∧ c < t.nodes.size := by
    intro c hc
    obtain ⟨hlive, hparent⟩ := h.mem_children_iff.mp hc
    obtain ⟨s, hs, rfl⟩ := Option.map_eq_some_iff.mp hparent
    exact ⟨h.stem_lt hlive hs, Register.lt_size_of_isLive hlive⟩
  rw [shape]
  match hc : (t.node n).children with
  | [] => rfl
  | [c] =>
    dsimp only
    rw [if_pos (hchild c (by simp [hc]))]
  | l :: r :: _ =>
    dsimp only
    rw [if_pos ⟨hchild l (by simp [hc]), hchild r (by simp [hc])⟩]

namespace Twins

variable {σ τ : Nat → Nat} {t u : Tree} {i j n m : Nat}

/-- Twin nodes have the same shape below them. -/
theorem shape (h : Twins σ τ t u) (hn : t.nodes.isLive n = true) :
    Shape.Alike (t.nodes.isLive · = true) τ (t.shape n) (u.shape (τ n)) := by
  -- Children are registered after their parents, so the register ends what is below a node.
  induction hk : t.nodes.size - n using Nat.strongRecOn generalizing n with
  | ind k ih =>
    have hbelow : ∀ c ∈ (t.node n).children,
        Shape.Alike (t.nodes.isLive · = true) τ (t.shape c) (u.shape (τ c)) := by
      intro c hc
      obtain ⟨hlive, hparent⟩ := h.left.store.rooted.mem_children_iff.mp hc
      obtain ⟨s, hs, rfl⟩ := Option.map_eq_some_iff.mp hparent
      have hlt := h.left.store.rooted.stem_lt hlive hs
      have hsize := Register.lt_size_of_isLive hlive
      exact ih _ (by omega) hlive rfl
    rw [h.left.store.rooted.shape_eq, h.right.store.rooted.shape_eq, h.children_node hn]
    match hc : (t.node n).children with
    | [] => exact .leaf hn
    | [c] => exact .single hn (hbelow c (by simp [hc]))
    | l :: r :: _ => exact .fork hn (hbelow l (by simp [hc])) (hbelow r (by simp [hc]))

theorem childFormulas (h : Twins σ τ t u) (hi : t.lines.isLive i = true) {nodes : List Nat}
    (hnodes : ∀ n ∈ nodes, t.nodes.isLive n = true) :
    u.childFormulas (σ i) (nodes.map τ) = t.childFormulas i nodes := by
  have hlive := h.isLive_of_mem_children hi
  unfold Tree.childFormulas
  rw [h.children h.left.linked h.right.linked hi, List.filter_map, List.map_map]
  have hfilter : (t.line i).children.filter
        ((fun c => (nodes.map τ).contains (u.line c).node) ∘ σ) =
      (t.line i).children.filter (fun c => nodes.contains (t.line c).node) := by
    apply List.filter_congr
    intro c hc
    obtain ⟨hhome, heq⟩ := h.home (hlive c hc)
    rw [Function.comp, heq, h.contains_map hnodes hhome]
  rw [hfilter]
  apply List.map_congr_left
  intro c hc
  exact h.formula (hlive c (List.mem_of_mem_filter hc))

theorem childFormulas_single (h : Twins σ τ t u) (hi : t.lines.isLive i = true)
    (hn : t.nodes.isLive n = true) : u.childFormulas (σ i) [τ n] = t.childFormulas i [n] := by
  have hnodes : ∀ m ∈ [n], t.nodes.isLive m = true := by simpa using hn
  exact h.childFormulas hi hnodes

/-- The rule for a justification treats twins alike. -/
theorem checkJustify (h : Twins σ τ t u) {c p : Nat} (hc : t.lines.isLive c = true)
    (hp : t.lines.isLive p = true) : u.checkJustify (σ c) (σ p) = t.checkJustify c p := by
  obtain ⟨hlive, hhome⟩ := h.home hc
  have hstem := h.branchedOn?_eq_some_iff hlive hp
  have hmap := h.branchedOn? hlive
  unfold Tree.checkJustify
  simp only [h.premise_iff hc, h.lineNumber hc, h.lineNumber hp, h.formula hc, h.formula hp, hhome]
  cases hb : (t.node (t.line c).node).branchedOn? with
  | none => simp only [hmap, hb, Option.map_none]
  | some i =>
    have hip : σ i = σ p ↔ i = p := by simpa [hmap, hb] using hstem
    simp only [hmap, hb, Option.map_some, hip]

theorem addsUp (h : Twins σ τ t u) (hi : t.lines.isLive i = true) (found : List Formula) :
    u.addsUp (σ i) found = t.addsUp i found := by
  unfold Tree.addsUp
  rw [h.formula hi]

theorem addsUpBelow (h : Twins σ τ t u) (hi : t.lines.isLive i = true) {s s' : Shape}
    (hs : Shape.Alike (t.nodes.isLive · = true) τ s s') (found : List Formula) :
    u.addsUpBelow (σ i) s' found = t.addsUpBelow i s found := by
  induction hs generalizing found with
  | leaf hn =>
    simp only [Tree.addsUpBelow, (h.node _ hn).closed, h.childFormulas_single hi hn, h.addsUp hi]
  | single hn _ ih =>
    simp only [Tree.addsUpBelow, (h.node _ hn).closed, h.childFormulas_single hi hn, h.addsUp hi,
      ih]
  | fork hn _ _ ihl ihr =>
    simp only [Tree.addsUpBelow, (h.node _ hn).closed, h.childFormulas_single hi hn, h.addsUp hi,
      ihl, ihr]

theorem ownsBranches (h : Twins σ τ t u) (hi : t.lines.isLive i = true) {l r : Nat}
    (hl : t.nodes.isLive l = true) (hr : t.nodes.isLive r = true) :
    u.ownsBranches (σ i) (τ l) (τ r) = t.ownsBranches i l r := by
  unfold Tree.ownsBranches
  rw [h.children h.left.linked h.right.linked hi, List.all_map, Bool.eq_iff_iff, List.all_eq_true,
    List.all_eq_true]
  refine forall_congr' fun c => imp_congr_right fun hc => ?_
  obtain ⟨hlive, hhome⟩ := h.home (h.isLive_of_mem_children hi c hc)
  simp only [Function.comp, hhome, h.nodes.inj hlive hl, h.nodes.inj hlive hr,
    h.branchedOn?_eq_some_iff hlive hi]

theorem splitsUp (h : Twins σ τ t u) (hi : t.lines.isLive i = true) {l r : Nat}
    (hl : t.nodes.isLive l = true) (hr : t.nodes.isLive r = true) :
    u.splitsUp (σ i) (τ l) (τ r) = t.splitsUp i l r := by
  unfold Tree.splitsUp
  rw [h.childFormulas_single hi hl, h.childFormulas_single hi hr, h.formula hi]

theorem splitsUpBelow (h : Twins σ τ t u) (hi : t.lines.isLive i = true) {s s' : Shape}
    (hs : Shape.Alike (t.nodes.isLive · = true) τ s s') :
    u.splitsUpBelow (σ i) s' = t.splitsUpBelow i s := by
  induction hs with
  | leaf hn | single hn => exact (h.node _ hn).closed
  | fork hn hl hr ihl ihr =>
    obtain ⟨hlive, hleft⟩ := hl.node
    obtain ⟨hlive', hright⟩ := hr.node
    simp only [Tree.splitsUpBelow, (h.node _ hn).closed, hleft, hright,
      h.ownsBranches hi hlive hlive', h.splitsUp hi hlive hlive', ihl, ihr]

/-- The rule for a checkmark treats twins alike. -/
theorem checkCheckmark (h : Twins σ τ t u) (hi : t.lines.isLive i = true) :
    u.checkCheckmark (σ i) = t.checkCheckmark i := by
  obtain ⟨hlive, hhome⟩ := h.home hi
  have hshape := h.shape hlive
  have hdecomposed : u.isDecomposed (σ i) = t.isDecomposed i := by
    unfold Tree.isDecomposed
    simp only [h.formula hi, hhome, h.addsUpBelow hi hshape, h.splitsUpBelow hi hshape]
  unfold Tree.checkCheckmark
  rw [(h.line i hi).checkmarked, h.lineNumber hi, hdecomposed]

/-- The rule for closing treats twins alike. -/
theorem checkClose (h : Twins σ τ t u) (hn : t.nodes.isLive n = true)
    (hi : t.lines.isLive i = true) (hj : t.lines.isLive j = true) :
    u.checkClose (τ n) (σ i) (σ j) = t.checkClose n i j := by
  have hvalid := fun {k} (hk : t.lines.isLive k = true) => h.valid h.left.linked h.right.linked hk
  unfold Tree.checkClose
  rw [hvalid hi, hvalid hj, h.inAncestry hn hi, h.inAncestry hn hj, h.lineNumber hi,
    h.lineNumber hj, h.nodeNumber hn, h.formula hi, h.formula hj]

theorem unfinishedOn? (h : Twins σ τ t u) (hi : t.lines.isLive i = true) {path : List Nat}
    (hpath : ∀ n ∈ path, t.nodes.isLive n = true) :
    u.unfinishedOn? (path.map τ) (σ i) = t.unfinishedOn? path i := by
  have hbranches : (u.line (σ i)).branches.any (path.map τ).contains =
      (t.line i).branches.any path.contains := by
    rw [h.branches hi, List.any_map, Bool.eq_iff_iff, List.any_eq_true, List.any_eq_true]
    refine exists_congr fun n => and_congr_right fun hn => ?_
    rw [Function.comp, h.contains_map hpath (h.isLive_of_mem_branches i n hn)]
  unfold Tree.unfinishedOn?
  simp only [(h.line i hi).checkmarked, h.missing_iff hi, h.formula hi, h.lineNumber hi,
    h.children h.left.linked h.right.linked hi, List.isEmpty_map, h.childFormulas hi hpath,
    hbranches]

/-- The rule for open branches treats twins alike. -/
theorem checkOpen (h : Twins σ τ t u) (hn : t.nodes.isLive n = true) :
    u.checkOpen (τ n) = t.checkOpen n := by
  have hlive : ∀ m ∈ t.path n, t.nodes.isLive m = true := by
    intro m hm
    exact h.isLive_of_mem_ancestors hn m (List.mem_reverse.mp hm)
  have hpath : u.path (τ n) = (t.path n).map τ := by
    unfold Tree.path
    rw [h.ancestors hn, List.map_reverse]
  have hlines : (u.path (τ n)).flatMap (fun p => (u.node p).lines) =
      ((t.path n).flatMap (fun p => (t.node p).lines)).map σ := by
    rw [hpath, List.flatMap_map, List.map_flatMap]
    exact List.flatMap_congr (fun m hm => h.lines_node (hlive m hm))
  have hfind : ((u.path (τ n)).flatMap (fun p => (u.node p).lines)).findSome?
        (u.unfinishedOn? (u.path (τ n))) =
      ((t.path n).flatMap (fun p => (t.node p).lines)).findSome? (t.unfinishedOn? (t.path n)) := by
    rw [hlines, hpath, List.findSome?_map, ← List.head?_filterMap, ← List.head?_filterMap]
    congr 1
    apply List.filterMap_congr
    intro i hi
    obtain ⟨m, hm, hi⟩ := List.mem_flatMap.mp hi
    exact h.unfinishedOn? (h.isLive_of_mem_lines (hlive m hm) i hi) hlive
  unfold Tree.checkOpen
  simp only [h.isLeaf hn, (h.node n hn).markedOpen, h.nodeNumber hn, hfind]

theorem uncheckedStem? (h : Twins σ τ t u) (hn : t.nodes.isLive n = true) :
    u.uncheckedStem? (τ n) = t.uncheckedStem? n := by
  unfold Tree.uncheckedStem?
  rw [h.branchedOn? hn]
  cases hs : (t.node n).stem with
  | none => simp [Node.branchedOn?, hs]
  | some s =>
    have hline := (h.left.branched n s hn hs).1
    simp [Node.branchedOn?, hs, (h.line s.line hline).checkmarked, h.lineNumber hline]

theorem unclosed? (h : Twins σ τ t u) (require : Bool) {s s' : Shape}
    (hs : Shape.Alike (t.nodes.isLive · = true) τ s s') :
    u.unclosed? require s' = t.unclosed? require s := by
  induction hs with
  | leaf hn =>
    simp only [Tree.unclosed?, h.uncheckedStem? hn, (h.node _ hn).closed, h.nodeNumber hn]
  | single hn _ ih => simp only [Tree.unclosed?, h.uncheckedStem? hn, ih]
  | fork hn _ _ ihl ihr => simp only [Tree.unclosed?, h.uncheckedStem? hn, ihl, ihr]

/-- Twin trees get the same verdict on being closed. -/
theorem checkAllClosed (h : Twins σ τ t u) (require : Bool) :
    u.checkAllClosed require = t.checkAllClosed require := by
  have hshape := h.shape h.left.store.rooted.root_live
  rw [h.map_root] at hshape
  unfold Tree.checkAllClosed
  rw [h.unclosed? require hshape]

/-- Twin trees get the same verdict on being open. -/
theorem checkAnyOpen (h : Twins σ τ t u) : u.checkAnyOpen = t.checkAnyOpen := by
  have hleaves : u.leaves = t.leaves.map τ := h.nodes.filter (fun n hn => h.isLeaf hn)
  have hany : u.leaves.any (fun n => (u.node n).markedOpen) =
      t.leaves.any (fun n => (t.node n).markedOpen) := by
    rw [hleaves, List.any_map, Bool.eq_iff_iff, List.any_eq_true, List.any_eq_true]
    refine exists_congr fun n => and_congr_right fun hn => ?_
    have hlive := (h.nodes.left.mem_iff n).mp (List.mem_of_mem_filter hn)
    rw [Function.comp, (h.node n hlive).markedOpen]
  unfold Tree.checkAnyOpen
  rw [hany]

end Twins

end Tree

end TruthTrees
