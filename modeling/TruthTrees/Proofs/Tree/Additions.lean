import TruthTrees.Proofs.Tree.RemnantSteps

/-! Deleting what was just added gives back the tree that was there before, with what was deleted as
a remnant. -/
namespace TruthTrees.Tree

variable {t : Tree}

/-- Nothing rests on a line without children. -/
theorem dependents_eq_nil {i : Nat} (h : (t.line i).children = []) : t.dependents i = [] := by
  unfold dependents
  cases t.lines.size with
  | zero => rfl
  | succ k => rw [dependentsWithin, h, List.flatMap_nil]

/-- A line that is new has no part in the links of the others. -/
theorem detachedLine_of_isNew {i j : Nat} (h : IsNew (t.line i)) (hj : j ≠ i) :
    t.detachedLine i j = t.line j := by
  have hp : ¬ t.support i = .line j := h.support j
  unfold detachedLine
  simp [h.children, h.parentCheckmarked, dependents_eq_nil h.children, hp, hj]

/-- Deleting a new line does not touch the others. -/
theorem Coherent.line_withoutLine_of_isNew (h : Coherent t) {i j : Nat}
    (hi : t.lines.isLive i = true) (hnew : IsNew (t.line i)) (hj : j ≠ i) :
    (t.withoutLine i).line j = t.line j := by
  unfold Tree.withoutLine
  set t' := t.modifyNode (t.line i).node (fun n => { n with lines := n.lines.filter (· ≠ i) })
  have hlinked : Linked t' := h.linked.of_lines rfl
  have hnew' : IsNew (t'.line i) := hnew
  rw [line_detach hlinked.toTied hi, detachedLine_of_isNew hnew' hj]
  rfl

/-- Deleting a line that was just entered into the display and into a node. -/
theorem Coherent.deleteLine_insert (h : Coherent t) {k : Nat} (hk : k ≤ t.lines.order.length)
    {l : Line} (hl : IsNew l) (hb : l.branches = []) {g : List Nat → List Nat}
    (hg : (g (t.node l.node).lines).filter (· ≠ t.lines.size) = (t.node l.node).lines)
    (hu : Coherent (({ t with lines := t.lines.insert k l } : Tree).modifyNode l.node
      (fun nd => { nd with lines := g nd.lines }))) :
    ∃ r, Fits t r ∧ (({ t with lines := t.lines.insert k l } : Tree).modifyNode l.node
      (fun nd => { nd with lines := g nd.lines })).deleteLine t.lines.size = .ok (t.extend r) := by
  set i := t.lines.size with hi
  set u := ({ t with lines := t.lines.insert k l } : Tree).modifyNode l.node
    (fun nd => { nd with lines := g nd.lines }) with hudef
  have hline : ∀ j, u.line j = if j = i then l else t.line j := line_insert t k l
  have hui : u.line i = l := by rw [hline, if_pos rfl]
  have hlive : u.lines.isLive i = true := (Register.isLive_insert _ _ _ _).mpr (Or.inl rfl)
  have hleft : ∀ j, u.lines.leftFrom j = t.lines.leftFrom j := fun j =>
    h.linked.ordered.leftFrom_insert hk l j
  have hsize : u.lines.size = i + 1 := Register.size_insert _ _ _
  have hnobranch : (u.line i).branches = [] := by rw [hui, hb]
  have hok : u.deleteLine i = .ok (u.withoutLine i) :=
    deleteLine_ok_iff.mpr ⟨hlive, hnobranch, rfl⟩
  have hlines : t.lines.Continues (u.withoutLine i).lines := by
    refine ⟨?_, ?_, ?_, ?_⟩
    · have hnot : i ∉ t.lines.order := fun hc => absurd (Register.lt_size_of_isLive
        ((h.linked.ordered.mem_iff i).mp hc)) (Nat.lt_irrefl _)
      rw [order_withoutLine hu.linked.ordered hlive, hu.linked.ordered.erase_eq_filter,
        show u.lines.order = t.lines.order.insertIdx k i from Register.order_insert _ _ _,
        List.filter_insertIdx_of_false (by simp), List.filter_eq_self]
      intro j hj
      have hji : j ≠ i := fun hc => hnot (hc ▸ hj)
      simpa using hji
    · rw [size_withoutLine, hsize]
      exact Nat.le_succ i
    · intro j hj
      have hji : j ≠ i := Nat.ne_of_lt hj
      have hnew : IsNew (u.line i) := by rwa [hui]
      refine (hu.line_withoutLine_of_isNew hlive hnew hji).trans ?_
      rw [hline, if_neg hji]
      rfl
    · intro j hj
      have hji : j ≠ i := Nat.ne_of_lt hj
      rw [leftFrom_withoutLine hu.linked.ordered hlive, if_neg hji, hleft]
  have hnodes : (u.withoutLine i).nodes = t.nodes := by
    have hback := modifyNode_back (t := t) (n := l.node)
      (f := fun nd => { nd with lines := g nd.lines })
      (g := fun nd => { nd with lines := nd.lines.filter (· ≠ i) }) (by dsimp only; rw [hg])
    rw [nodes_withoutLine, hui]
    exact congrArg Tree.nodes hback
  obtain ⟨r, hfits, heq⟩ := h.exists_extend (hu.withoutLine hlive hnobranch) hlines
    (hnodes ▸ Register.Continues.refl t.nodes)
    (fun j hj hlt => by
      rw [size_withoutLine, hsize] at hlt
      obtain rfl : j = i := by omega
      rw [branches_withoutLine, hnobranch])
    (fun m hm hlt => by
      rw [hnodes] at hlt
      exact absurd hlt (Nat.not_lt.mpr hm))
  exact ⟨r, hfits, by rw [hok, heq]⟩

/-- Deleting a premise that was just added. -/
theorem Coherent.deleteLine_addPremise (h : Coherent t) (φ : Formula) :
    ∃ r, Fits t r ∧ (t.addPremise φ).2.deleteLine t.lines.size = .ok (t.extend r) := by
  have hu := h.addPremise φ
  apply h.deleteLine_insert t.premiseCount_le ⟨fun _ => by simp, rfl, rfl, by simp⟩ rfl _ hu
  rw [Register.filter_place, List.filter_eq_self]
  intro j hj
  rw [h.store.holding.mem_lines_iff h.store.rooted.root_live] at hj
  have hne : j ≠ t.lines.size := Nat.ne_of_lt (Register.lt_size_of_isLive hj.1)
  simpa using hne

/-- Deleting a line that was just added. -/
theorem Coherent.deleteLine_withNewLine (h : Coherent t) {n : Nat} (hn : t.nodes.isLive n = true)
    (φ : Formula) :
    ∃ r, Fits t r ∧ (t.withNewLine n φ).deleteLine t.lines.size = .ok (t.extend r) := by
  have hu := h.withNewLine hn φ
  rw [withNewLine_eq] at hu ⊢
  apply h.deleteLine_insert (Nat.le_refl _) (g := fun ids => ids ++ [t.lines.size])
    ⟨fun _ => by simp, rfl, rfl, by simp⟩ rfl _ hu
  dsimp only
  rw [List.filter_append, List.filter_cons_of_neg (by simp), List.filter_nil, List.append_nil,
    List.filter_eq_self]
  intro j hj
  rw [h.store.holding.mem_lines_iff hn] at hj
  have hne : j ≠ t.lines.size := Nat.ne_of_lt (Register.lt_size_of_isLive hj.1)
  simpa using hne

/-- A node that holds no lines only has to be taken off its stem. -/
theorem deleteNode_eq_withoutNode {u : Tree} {n : Nat} (hok : t.deleteNode n = .ok u)
    (hlines : (t.node n).lines = []) :
    ∃ s, (t.node n).stem = some s ∧ u = t.withoutNode n s := by
  obtain ⟨-, -, s, hs, rfl⟩ := deleteNode_ok_iff.mp hok
  refine ⟨s, hs, ?_⟩
  rw [hlines]
  rfl

/-- What is left of a tree when a node was branched and the two branches were deleted. -/
def unforked (t : Tree) (n i : Nat) : Tree :=
  ((t.withFork n i).withoutNode (t.nodes.size + 1) ⟨n, i⟩).withoutNode t.nodes.size ⟨n, i⟩

section Unforked

variable {n i : Nat}

/-- The two branches leave their stems behind. -/
theorem node_unforked (hn : t.nodes.isLive n = true) (hleaf : (t.node n).children = []) (m : Nat) :
    (t.unforked n i).node m = { t.node m with
      stem := if m = t.nodes.size ∨ m = t.nodes.size + 1 then some ⟨n, i⟩
        else (t.node m).stem } := by
  have hlt := Register.lt_size_of_isLive hn
  unfold unforked node
  rw [nodes_withoutNode, nodes_withoutNode, nodes_withFork, get_cut, get_cut, get_forked]
  by_cases hm : m = n
  · subst hm
    have hchildren : (t.nodes.get m).children = [] := hleaf
    simp [cut, size_forked, hchildren, show m < t.nodes.size + 2 by omega]
  · simp [hm]

theorem line_unforked (h : Coherent t) (j : Nat) : (t.unforked n i).line j = t.line j := by
  have hbranches : ∀ m ∈ (t.line j).branches, m < t.nodes.size := by
    intro m hm
    rw [h.store.branching.branches, List.mem_filter, h.store.rooted.ordered.mem_iff] at hm
    exact Register.lt_size_of_isLive hm.1
  have hkeep : ∀ k, t.nodes.size ≤ k →
      (t.line j).branches.filter (· ≠ k) = (t.line j).branches := by
    intro k hk
    rw [List.filter_eq_self]
    intro m hm
    have hne : m ≠ k := Nat.ne_of_lt (Nat.lt_of_lt_of_le (hbranches m hm) hk)
    simpa using hne
  have hsize : (t.withFork n i).lines.size = t.lines.size := Register.size_modify _ _ _
  have hsize' : ((t.withFork n i).withoutNode (t.nodes.size + 1) ⟨n, i⟩).lines.size =
      t.lines.size := (Register.size_modify _ _ _).trans hsize
  unfold unforked
  rw [line_withoutNode, line_withoutNode, line_withFork, hsize, hsize']
  by_cases hj : j = i ∧ j < t.lines.size
  · have hback : (((t.line j).branches ++ [t.nodes.size, t.nodes.size + 1]).filter
        (· ≠ t.nodes.size + 1)).filter (· ≠ t.nodes.size) = (t.line j).branches := by
      rw [List.filter_append, List.filter_append, hkeep _ (Nat.le_succ _),
        hkeep _ (Nat.le_refl _)]
      simp
    simp only [if_pos hj]
    rw [hback]
  · simp only [if_neg hj]

/-- Both new nodes are displayed until they are taken off, one after the other. -/
theorem isLive_unforking (t : Tree) (n i : Nat) :
    (forked t.nodes n i).isLive (t.nodes.size + 1) = true ∧
      (cut (forked t.nodes n i) (t.nodes.size + 1) n).isLive t.nodes.size = true := by
  rw [isLive_cut, isLive_forked, isLive_forked]
  exact ⟨Or.inl (Or.inr rfl), Nat.ne_of_lt (Nat.lt_succ_self _), Or.inl (Or.inl rfl)⟩

/-- A fork that is taken back leaves the display as it was. -/
theorem order_unforked (h : t.nodes.Ordered) : (t.unforked n i).nodes.order = t.nodes.order := by
  obtain ⟨hright, hleft⟩ := isLive_unforking t n i
  have hordered := ordered_forked h n i
  unfold unforked
  rw [nodes_withoutNode, nodes_withoutNode, nodes_withFork,
    order_cut (ordered_cut hordered hright n) hleft, order_cut hordered hright, order_forked,
    List.filter_filter, List.filter_append, List.filter_eq_self.mpr]
  · simp
  · intro m hm
    have hlt := h.lt_size hm
    simp only [Bool.and_eq_true, decide_eq_true_eq]
    omega

theorem leftFrom_unforked (h : t.nodes.Ordered) {m : Nat} (hm : m < t.nodes.size) :
    (t.unforked n i).nodes.leftFrom m = t.nodes.leftFrom m := by
  obtain ⟨hright, hleft⟩ := isLive_unforking t n i
  have hordered := ordered_forked h n i
  unfold unforked
  rw [nodes_withoutNode, nodes_withoutNode, nodes_withFork,
    leftFrom_cut (ordered_cut hordered hright n) hleft, leftFrom_cut hordered hright,
    if_neg (by omega), if_neg (by omega), leftFrom_forked h]

/-- The two new nodes are the leaves that a deletion finds. -/
theorem leafPair_withFork (hn : t.nodes.isLive n = true) :
    (t.withFork n i).leafPair n = .ok (t.nodes.size, t.nodes.size + 1) := by
  have hlt := Register.lt_size_of_isLive hn
  have hnode : ∀ m, (t.withFork n i).node m = (forked t.nodes n i).get m := fun _ => rfl
  have hnew : ∀ m, t.nodes.size ≤ m → ((t.withFork n i).node m).children = [] := by
    intro m hm
    rw [hnode, get_forked]
    dsimp only
    rw [if_neg (by omega), Register.get_of_size_le hm]
    rfl
  refine leafPair_ok_iff.mpr ⟨?_, ?_, hnew _ (Nat.le_refl _), hnew _ (Nat.le_succ _)⟩
  · exact (isLive_forked _ _ _ _).mpr (Or.inr hn)
  · rw [hnode, get_forked]
    dsimp only
    rw [if_pos ⟨rfl, by omega⟩]

/-- The new nodes hold no lines, so that only their stems are concerned. -/
theorem eq_unforked {u : Tree}
    (hok : (t.withFork n i).deleteBranch n = (u, .ok (t.nodes.size, t.nodes.size + 1))) :
    u = t.unforked n i := by
  obtain ⟨-, u₁, hright, hleft⟩ := deleteBranch_ok_iff.mp hok
  have hnode : ∀ m, (t.withFork n i).node m = (forked t.nodes n i).get m := fun _ => rfl
  have hlines : ∀ m, t.nodes.size ≤ m → ((t.withFork n i).node m).lines = [] := by
    intro m hm
    rw [hnode, get_forked, Register.get_of_size_le hm]
    rfl
  have hstem : ∀ m, m = t.nodes.size ∨ m = t.nodes.size + 1 →
      ((t.withFork n i).node m).stem = some ⟨n, i⟩ := by
    intro m hm
    rw [hnode, get_forked]
    exact if_pos hm
  obtain ⟨s, hs, rfl⟩ := deleteNode_eq_withoutNode hright (hlines _ (Nat.le_succ _))
  obtain rfl := Option.some.inj (hs.symm.trans (hstem _ (Or.inr rfl)))
  have hnode₁ : ((t.withFork n i).withoutNode (t.nodes.size + 1) ⟨n, i⟩).node t.nodes.size =
      { (t.withFork n i).node t.nodes.size with
        children := (((t.withFork n i).withoutNode (t.nodes.size + 1) ⟨n, i⟩).node
          t.nodes.size).children } := by
    unfold node
    rw [nodes_withoutNode, get_cut]
  obtain ⟨s', hs', rfl⟩ := deleteNode_eq_withoutNode hleft
    (by rw [hnode₁]; exact hlines _ (Nat.le_refl _))
  rw [hnode₁] at hs'
  obtain rfl := Option.some.inj (hs'.symm.trans (hstem _ (Or.inl rfl)))
  rfl

end Unforked

/-- Deleting branches that were just grown. -/
theorem Coherent.deleteBranch_withFork (h : Coherent t) {n i : Nat} (hn : t.nodes.isLive n = true)
    (hleaf : (t.node n).children = []) (hi : t.inAncestry n i = true) :
    ∃ r, Fits t r ∧ (t.withFork n i).deleteBranch n =
      (t.extend r, .ok (t.nodes.size, t.nodes.size + 1)) := by
  have hu := h.withFork hn hleaf hi
  obtain ⟨v, hok⟩ := hu.deleteBranch_ok (leafPair_withFork hn)
  have hv : Coherent v := hu.of_deleteBranch hok
  obtain rfl := eq_unforked hok
  have hsize : (t.unforked n i).nodes.size = t.nodes.size + 2 := by
    simp [unforked, nodes_withoutNode, cut, nodes_withFork, size_forked]
  have hlines : t.lines.Continues (t.unforked n i).lines := by
    refine ⟨rfl, Nat.le_of_eq ?_, fun j _ => line_unforked h j, fun j _ => ?_⟩
    · simp [unforked, withoutNode, Tree.withFork, modifyLine]
    · simp [unforked, withoutNode, Tree.withFork, modifyLine]
  have hnodes : t.nodes.Continues (t.unforked n i).nodes := by
    refine ⟨order_unforked h.store.rooted.ordered, by omega, ?_,
      fun m hm => leftFrom_unforked h.store.rooted.ordered hm⟩
    intro m hm
    refine (node_unforked hn hleaf m).trans ?_
    rw [if_neg (by omega)]
    rfl
  obtain ⟨r, hfits, heq⟩ := h.exists_extend hv hlines hnodes
    (fun j hj _ => by
      rw [line_unforked h, line, Register.get_of_size_le hj]
      rfl)
    (fun m hm hlt => by
      rw [node_unforked hn hleaf, node, Register.get_of_size_le hm]
      exact ⟨rfl, rfl, ⟨n, i⟩, if_pos (by omega), Register.lt_size_of_isLive hn⟩)
  exact ⟨r, hfits, by rw [hok, ← heq]⟩

end TruthTrees.Tree
