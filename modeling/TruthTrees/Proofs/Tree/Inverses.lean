import TruthTrees.Proofs.Tree.Coherent

/-! What was just done to a coherent tree can be taken back, and gives exactly the tree that was
there before, deleted lines and nodes included. For lines and nodes that are deleted, less is enough
than that the tree is coherent. -/
namespace TruthTrees.Tree

variable {t u : Tree}

/-- A deleted line can be put back. -/
theorem Tied.restoreLine_of_deleteLine (h : Tied t) (hheld : Held t) {i : Nat}
    (hok : t.deleteLine i = .ok u) : u.restoreLine i = .ok t := by
  obtain ⟨hi, -, rfl⟩ := deleteLine_ok_iff.mp hok
  set n := (t.line i).node with hn
  set t' := t.modifyNode n (fun nd => { nd with lines := nd.lines.filter (· ≠ i) }) with ht'
  have hplaces : SamePlaces t' (t.withoutLine i) := SamePlaces.detach t' i
  have htied : Tied t' := h.congr (Register.SameDisplay.refl _) (fun _ => rfl)
  have hnode : ((t.withoutLine i).line i).node = n := hplaces.node i
  have hnlive := hheld.home i hi
  set u := t.withoutLine i with hu
  set v := (u.redisplay i).modifyNode n
    (fun nd => { nd with lines := (u.redisplay i).lines.place i nd.lines }) with hv
  have hreturn : Returning t' v i :=
    htied.returning (u := u.modifyNode n
      (fun nd => { nd with lines := (u.redisplay i).lines.place i nd.lines })) hi rfl
  have hlines : (v.reattach i).lines = t.lines :=
    (Returning.lines_reattach htied hi hreturn).trans (lines_modifyNode t n _)
  have hplace : ∀ ids, (u.redisplay i).lines.place i ids = t.lines.place i ids := hreturn.place i
  have hlist : t.lines.place i ((t.node n).lines.filter (· ≠ i)) = (t.node n).lines := by
    rw [hheld.lines n hnlive, List.filter_filter]
    apply hheld.ordered.place_filter hi
    · simp
    · simp [hn]
    · intro j _ hj
      simp [hj]
  have hnodes : (v.reattach i).nodes = t.nodes := by
    have hvn : (v.reattach i).nodes = (t.nodes.modify n
        (fun nd => { nd with lines := nd.lines.filter (· ≠ i) })).modify n
          (fun nd => { nd with lines := t.lines.place i nd.lines }) := by
      rw [((Relinked.refl v).reattach i).nodes, hv, nodes_modifyNode]
      simp only [hplace]
      rw [show (u.redisplay i).nodes = t'.nodes from hplaces.nodes]
      rfl
    rw [hvn]
    apply ((Register.SameDisplay.modify _ n _).trans (Register.SameDisplay.modify _ n _)).eq_of_get
    intro m _
    rw [Register.get_modify, Register.get_modify, Register.size_modify]
    by_cases hm : m = n ∧ m < t.nodes.size
    · rw [if_pos hm, if_pos hm]
      dsimp only
      rw [hm.1, show (t.nodes.get n).lines = (t.node n).lines from rfl, hlist]
      rfl
    · rw [if_neg hm, if_neg hm]
  have hdone : u.withLine i = t := by
    have hw : u.withLine i = v.reattach i := by
      unfold Tree.withLine
      rw [hnode]
    rw [hw]
    exact eq_of_parts hlines hnodes
  refine restoreLine_ok_iff.mpr ⟨?_, ?_, ?_, hdone.symm⟩
  · rw [hplaces.size]
    exact Register.lt_size_of_isLive hi
  · exact fun hc => ((isLive_detach t' i i).mp hc).1 rfl
  · rw [hnode, hplaces.nodes, ht', nodes_modifyNode, Register.isLive_modify]
    exact hnlive

/-- A line that was deleted can be restored, and the tree is then what it was. -/
theorem Coherent.restoreLine_of_deleteLine (h : Coherent t) {i : Nat}
    (hok : t.deleteLine i = .ok u) : u.restoreLine i = .ok t :=
  h.linked.toTied.restoreLine_of_deleteLine h.store.holding.toHeld hok

theorem cut_dead (r : Register Node) (n p : Nat) : (cut r n p).isLive n ≠ true := fun hc =>
  ((isLive_cut r n p n).mp hc).1 rfl

section Cut

variable {r : Register Node} {n : Nat} {s : Stem}

/-- The parent of a node that was cut off has room for it. -/
theorem Growing.length_children_cut (h : Growing r) (hn : r.isLive n = true)
    (hs : (r.get n).stem = some s) :
    ((Tree.cut r n s.node).get s.node).children.length < 2 := by
  have hmem := h.mem_children hn hs
  rw [get_cut]
  dsimp only
  rw [if_pos ⟨rfl, lt_size_of_mem_children hmem⟩]
  calc ((r.get s.node).children.filter (· ≠ n)).length
      < (r.get s.node).children.length :=
        List.length_filter_lt_length_iff_exists.mpr ⟨n, hmem, by simp⟩
    _ ≤ 2 := h.children_le s.node

/-- Nothing grows from a leaf, so it does not grow from itself. -/
theorem Growing.stem_ne (h : Growing r) (hn : r.isLive n = true) (hs : (r.get n).stem = some s)
    (hleaf : (r.get n).children = []) : s.node ≠ n := by
  intro hc
  have hmem := h.mem_children hn hs
  rw [hc, hleaf] at hmem
  exact absurd hmem List.not_mem_nil

/-- A leaf that was cut off grows back as it was. -/
theorem Growing.regrown_cut (h : Growing r) (hn : r.isLive n = true)
    (hs : (r.get n).stem = some s) : Tree.regrown (Tree.cut r n s.node) n s.node = r := by
  set c := Tree.cut r n s.node with hc
  have hsize : c.size = r.size := by simp [hc, Tree.cut]
  have hd : Register.SameDisplay r (r.modify s.node
      (fun nd => { nd with children := nd.children.filter (· ≠ n) })) :=
    Register.SameDisplay.modify r s.node _
  have hback : c.reinstate n = r.modify s.node
      (fun nd => { nd with children := nd.children.filter (· ≠ n) }) :=
    (h.ordered.congr hd).reinstate_withdraw ((hd.isLive n).trans hn)
  have hnumber : ∀ m, (c.reinstate n).number m = r.number m := by
    intro m
    rw [hback, hd.number]
  have hplace : r.place n ((r.get s.node).children.filter (· ≠ n)) = (r.get s.node).children := by
    rw [h.children, List.filter_filter]
    apply h.ordered.place_filter hn
    · simp
    · simp [Node.parent?, hs]
    · intro m _ hm
      simp [hm]
  have hdisplay : Register.SameDisplay r (Tree.regrown c n s.node) := by
    unfold Tree.regrown
    rw [hback]
    exact hd.trans (Register.SameDisplay.modify _ _ _)
  apply hdisplay.eq_of_get
  intro m _
  rw [get_regrown, hsize, Register.place_congr hnumber n, hc, get_cut]
  dsimp only
  by_cases hm : m = s.node ∧ m < r.size
  · rw [if_pos hm, if_pos hm, hm.1, hplace]
  · rw [if_neg hm, if_neg hm]

end Cut

/-- A node that no longer grows from its stem can be made to grow from it again. -/
theorem withNode_withoutNode (hg : Growing t.nodes) (hb : Branching t) {n : Nat} {s : Stem}
    (hn : t.nodes.isLive n = true) (hs : (t.node n).stem = some s) :
    (t.withoutNode n s).withNode n s = t := by
  set u := t.withoutNode n s with hu
  have hnodes : (u.withNode n s).nodes = t.nodes := hg.regrown_cut hn hs
  have hub : Branching u := hb.withoutNode hg.ordered hn hs
  have hsize : u.lines.size = t.lines.size := Register.size_modify _ _ _
  have hbranching : Branching (u.withNode n s) := by
    apply hub.withNode (hg.cut hn hs).ordered
    · rw [hu, nodes_withoutNode]
      simpa [Tree.cut] using Register.lt_size_of_isLive hn
    · exact cut_dead t.nodes n s.node
    · exact (stem_cut t.nodes n s.node n).trans hs
    · rw [hsize]
      exact hb.known n s hn hs
  have hlines : (u.withNode n s).lines = t.lines := by
    apply ((display_withoutNode t n s).trans (display_withNode u n s)).eq_of_get
    intro j _
    have hbranches : ((u.withNode n s).line j).branches = (t.line j).branches := by
      rw [hbranching.branches, hb.branches]
      unfold Tree.node
      rw [hnodes]
    have hline : (u.withNode n s).line j = t.line j := by
      rw [line_withNode] at hbranches ⊢
      dsimp only at hbranches ⊢
      rw [hbranches, hu, line_withoutNode]
    exact hline
  exact eq_of_parts hlines hnodes

/-- A node that has lost its lines and its stem can be made to grow from its stem again, still
without its lines. -/
theorem Indexed.withNode_withoutNode_stow (h : Indexed t) {n : Nat} {s : Stem}
    (hn : t.nodes.isLive n = true) (hs : (t.node n).stem = some s) (ids : List Nat) :
    ((t.stow ids).withoutNode n s).withNode n s = t.stow ids := by
  have hplaces : SamePlaces t (t.stow ids) := SamePlaces.stow t ids
  apply withNode_withoutNode
  · rw [hplaces.nodes]
    exact h.growing
  · exact h.branching.samePlaces hplaces
  · rw [hplaces.nodes]
    exact hn
  · rw [hplaces.nodeEq]
    exact hs

/-- A node that was deleted with its lines can be put back as long as the line that it was branched
on is still there, and nothing but the tree that was there before comes of it. -/
theorem Indexed.restoreNode_of_deleteNode_iff (h : Indexed t) (htied : Tied t) {v : Tree} {n : Nat}
    {s : Stem} (hs : (t.node n).stem = some s) (hp : t.nodes.isLive s.node = true)
    (hok : t.deleteNode n = .ok u) : u.restoreNode n = .ok v ↔
      (t.lines.isLive s.line = true ∧ (t.line s.line).node ≠ n) ∧ v = t := by
  obtain ⟨hn, hleaf, s', hs', rfl⟩ := deleteNode_ok_iff.mp hok
  obtain rfl := Option.some.inj (hs.symm.trans hs')
  rw [stow_eq_foldl]
  set ids := (t.node n).lines with hids
  set x := (t.stow ids).withoutNode n s with hx
  have hmem : ∀ j, j ∈ ids ↔ t.lines.isLive j = true ∧ (t.line j).node = n :=
    fun j => h.held.mem_lines_iff hn
  have hnodes : x.nodes = cut t.nodes n s.node := nodes_stow_withoutNode
  have hstem : (x.node n).stem = some s := by
    unfold Tree.node
    rw [hnodes, stem_cut]
    exact hs
  have hline : x.lines.isLive s.line = true ↔
      t.lines.isLive s.line = true ∧ (t.line s.line).node ≠ n := by
    rw [hx, isLive_stow_withoutNode, hmem]
    tauto
  have hdone : (x.withNode n s).unstow (x.node n).lines = t := by
    rw [hx, lines_stow_withoutNode, h.withNode_withoutNode_stow hn hs ids]
    exact unstow_stow htied (h.held.nodup_lines hn) (fun j hj => ((hmem j).mp hj).1)
  rw [restoreNode_ok_iff, ← hline]
  constructor
  · rintro ⟨-, -, s', hs', -, -, hl, hv⟩
    obtain rfl := Option.some.inj (hstem.symm.trans hs')
    exact ⟨hl, hv.trans hdone⟩
  · rintro ⟨hl, hv⟩
    refine ⟨?_, ?_, s, hstem, ?_, ?_, hl, hv.trans hdone.symm⟩
    · rw [hnodes]
      simpa [Tree.cut] using Register.lt_size_of_isLive hn
    · rw [hnodes]
      exact cut_dead t.nodes n s.node
    · rw [hnodes]
      exact (isLive_cut _ _ _ _).mpr ⟨h.growing.stem_ne hn hs hleaf, hp⟩
    · unfold Tree.node
      rw [hnodes]
      exact h.growing.length_children_cut hn hs

/-- A node that was deleted can be restored, and the tree is then what it was. -/
theorem Coherent.restoreNode_of_deleteNode (h : Coherent t) {n : Nat}
    (hok : t.deleteNode n = .ok u) : u.restoreNode n = .ok t := by
  obtain ⟨hn, hleaf, s, hs, -⟩ := deleteNode_ok_iff.mp hok
  have hp := h.store.rooted.parent_live n s hn hs
  obtain ⟨hlive, -⟩ := h.branched n s hn hs
  have hne := h.branched.stem_line_node_ne h.store.rooted hleaf hn hs
  exact (h.store.indexed.restoreNode_of_deleteNode_iff h.linked.toTied hs hp hok).mpr
    ⟨⟨hlive, hne⟩, rfl⟩

/-- The nodes after one of them was deleted. -/
theorem nodes_of_deleteNode {n : Nat} (hok : t.deleteNode n = .ok u) :
    ∃ s, (t.node n).stem = some s ∧ u.nodes = cut t.nodes n s.node := by
  obtain ⟨-, -, s, hs, rfl⟩ := deleteNode_ok_iff.mp hok
  refine ⟨s, hs, ?_⟩
  rw [stow_eq_foldl, nodes_withoutNode, (SamePlaces.stow t _).nodes]

structure Pair (t : Tree) (n l r : Nat) : Prop where
  left_live : t.nodes.isLive l = true
  right_live : t.nodes.isLive r = true
  left_stem : ∃ i, (t.node l).stem = some ⟨n, i⟩
  right_stem : ∃ i, (t.node r).stem = some ⟨n, i⟩
  ne : l ≠ r
  left_ne : n ≠ l
  right_ne : n ≠ r

theorem Growing.pair (h : Growing t.nodes) {n l r : Nat} (hchildren : (t.node n).children = [l, r])
    (hl : n ≠ l) (hr : n ≠ r) : Pair t n l r := by
  have hchild : ∀ m ∈ [l, r], t.nodes.isLive m = true ∧ ∃ i, (t.node m).stem = some ⟨n, i⟩ := by
    intro m hm
    rw [← hchildren] at hm
    obtain ⟨hlive, hparent⟩ := h.mem_children_iff.mp hm
    obtain ⟨⟨p, i⟩, hs, hp⟩ := Option.map_eq_some_iff.mp hparent
    dsimp only at hp
    subst hp
    exact ⟨hlive, i, hs⟩
  have hnodup : [l, r].Nodup := by
    rw [← hchildren, show (t.node n).children = _ from h.children n]
    exact h.ordered.nodup.filter _
  exact ⟨(hchild l (by simp)).1, (hchild r (by simp)).1, (hchild l (by simp)).2,
    (hchild r (by simp)).2, by simpa using hnodup, hl, hr⟩

theorem Rooted.pair (h : Rooted t.nodes) {n l r : Nat} (hchildren : (t.node n).children = [l, r]) :
    Pair t n l r := by
  have hne : ∀ m ∈ [l, r], n ≠ m := by
    intro m hm
    rw [← hchildren] at hm
    obtain ⟨hlive, hparent⟩ := h.mem_children_iff.mp hm
    obtain ⟨s, hs, hp⟩ := Option.map_eq_some_iff.mp hparent
    exact Nat.ne_of_lt (hp ▸ h.stem_lt hlive hs)
  exact h.toGrowing.pair hchildren (hne l (by simp)) (hne r (by simp))

/-- Two leaves are different from the node that they grow from. -/
theorem Growing.leafPair (h : Growing t.nodes) {n l r : Nat} (hpair : t.leafPair n = .ok (l, r)) :
    Pair t n l r := by
  obtain ⟨-, hchildren, hl, hr⟩ := leafPair_ok_iff.mp hpair
  apply h.pair hchildren
  · rintro rfl
    simp [hchildren] at hl
  · rintro rfl
    simp [hchildren] at hr

/-- When a node has two children and both are leaves, they can be deleted. -/
theorem Coherent.deleteBranch_ok (h : Coherent t) {n l r : Nat}
    (hpair : t.leafPair n = .ok (l, r)) : ∃ u, t.deleteBranch n = (u, .ok (l, r)) := by
  obtain ⟨-, hchildren, hl, hr⟩ := leafPair_ok_iff.mp hpair
  have hp := h.store.rooted.pair hchildren
  obtain ⟨i, hstem⟩ := hp.right_stem
  obtain ⟨j, hstem'⟩ := hp.left_stem
  have hright :
      t.deleteNode r = .ok (((t.node r).lines.reverse.foldl detach t).withoutNode r ⟨n, i⟩) :=
    deleteNode_ok_iff.mpr ⟨hp.right_live, hr, _, hstem, rfl⟩
  obtain ⟨s, hs, hnodes⟩ := nodes_of_deleteNode hright
  -- The right branch goes first. The left one is then still a live leaf on the same stem.
  set t₁ := ((t.node r).lines.reverse.foldl detach t).withoutNode r ⟨n, i⟩ with ht₁
  have hlive : t₁.nodes.isLive l = true := by
    rw [hnodes, isLive_cut]
    exact ⟨hp.ne, hp.left_live⟩
  have hleaf : (t₁.node l).children = [] := by
    unfold node
    rw [hnodes, get_cut]
    dsimp only
    rw [show (t.nodes.get l).children = [] from hl]
    simp
  have hstem₁ : (t₁.node l).stem = some ⟨n, j⟩ := by
    unfold node
    rw [hnodes, stem_cut]
    exact hstem'
  exact ⟨_, deleteBranch_ok_iff.mpr
    ⟨hpair, t₁, hright, deleteNode_ok_iff.mpr ⟨hlive, hleaf, _, hstem₁, rfl⟩⟩⟩

/-- Deleting a pair of branches is refused before anything was deleted. -/
theorem Coherent.deleteBranch_error (h : Coherent t) {n : Nat} {e : Refusal}
    (herror : t.deleteBranch n = (u, .error e)) : u = t := by
  cases hpair : t.leafPair n with
  | ok pair =>
    obtain ⟨v, hok⟩ := h.deleteBranch_ok hpair
    simp [hok] at herror
  | error e' =>
    simp only [deleteBranch, hpair] at herror
    exact (Prod.mk.inj herror).1.symm

/-- A deletion of a branch that is carried out leaves the tree coherent. -/
theorem Coherent.of_deleteBranch (h : Coherent t) {n l r : Nat}
    (hok : t.deleteBranch n = (u, .ok (l, r))) : Coherent u := by
  obtain ⟨-, t₁, hr, hl⟩ := deleteBranch_ok_iff.mp hok
  exact (h.of_deleteNode hr).of_deleteNode hl

theorem Growing.nodes_of_deleteBranch (h : Growing t.nodes) {n l r : Nat}
    (hok : t.deleteBranch n = (u, .ok (l, r))) : u.nodes = Tree.cut (Tree.cut t.nodes r n) l n := by
  obtain ⟨hpair, t₁, hr, hl⟩ := deleteBranch_ok_iff.mp hok
  have hp := h.leafPair hpair
  obtain ⟨s, hs, hnodes⟩ := nodes_of_deleteNode hr
  obtain ⟨s', hs', hnodes'⟩ := nodes_of_deleteNode hl
  obtain ⟨i, hstem⟩ := hp.right_stem
  obtain ⟨j, hstem'⟩ := hp.left_stem
  obtain rfl := Option.some.inj (hs.symm.trans hstem)
  have hs₁ : (t₁.node l).stem = (t.node l).stem := by
    unfold node
    rw [hnodes, stem_cut]
  obtain rfl := Option.some.inj (hs'.symm.trans (hs₁.trans hstem'))
  rw [hnodes', hnodes]

/-- Deleting the branches of a node leaves the node as a leaf. -/
theorem Growing.leaf_of_deleteBranch (h : Growing t.nodes) {n l r : Nat}
    (hok : t.deleteBranch n = (u, .ok (l, r))) :
    u.nodes.isLive n = true ∧ (u.node n).children = [] := by
  obtain ⟨hpair, -⟩ := deleteBranch_ok_iff.mp hok
  obtain ⟨hn, hchildren, -, -⟩ := leafPair_ok_iff.mp hpair
  have hp := h.leafPair hpair
  have hlt := Register.lt_size_of_isLive hn
  have hsize : (Tree.cut t.nodes r n).size = t.nodes.size := by simp [Tree.cut]
  have hright : ((Tree.cut t.nodes r n).get n).children = [l] := by
    rw [get_cut]
    dsimp only
    rw [if_pos ⟨rfl, hlt⟩, show (t.nodes.get n).children = _ from hchildren]
    simp [hp.ne]
  unfold node
  rw [h.nodes_of_deleteBranch hok]
  constructor
  · rw [isLive_cut, isLive_cut]
    exact ⟨hp.left_ne, hp.right_ne, hn⟩
  · rw [get_cut]
    dsimp only
    rw [if_pos ⟨rfl, hsize ▸ hlt⟩, hright]
    simp

/-- Deleted branches can be put back. -/
theorem Coherent.restoreBranch_of_deleteBranch (h : Coherent t) {n l r : Nat}
    (hok : t.deleteBranch n = (u, .ok (l, r))) : u.restoreBranch n (l, r) = (t, .ok ()) := by
  obtain ⟨hn, hleaf⟩ := h.store.rooted.leaf_of_deleteBranch hok
  obtain ⟨-, t₁, hr, hl⟩ := deleteBranch_ok_iff.mp hok
  exact restoreBranch_ok_iff.mpr ⟨hn, hleaf, t₁,
    (h.of_deleteNode hr).restoreNode_of_deleteNode hl, h.restoreNode_of_deleteNode hr⟩

/-- A line rests on what it rested on before, once it is made to do so again. -/
theorem Linked.relink_back (h : Linked t) {p c : Nat} (hbefore : t.Before p c)
    (hp : t.support c ≠ .premise) :
    match t.support c with
    | .line q => (t.relink p c).link q c = .ok t
    | _ => (t.relink p c).unlink c = .ok t := by
  have hrewired := h.rewired_relink hbefore hp
  have hsupport : (t.relink p c).support c = .line p := by rw [hrewired.support, if_pos rfl]
  have hclive := hbefore.right_live h.ordered
  have hclive' : (t.relink p c).lines.isLive c = true := (hrewired.relinked.isLive c).trans hclive
  cases hs : t.support c with
  | premise => exact absurd hs hp
  | missing =>
    have hback := hrewired.linked.rewired_sever hclive' (by simp [hsupport])
    exact unlink_ok_iff.mpr ⟨hclive', (Rewired.eq_of_back h hrewired (hs ▸ hback)).symm⟩
  | line q =>
    have hqc := h.parent c q hclive hs
    have hqc' : (t.relink p c).Before q c := by
      unfold Before
      rw [hrewired.relinked.order]
      exact hqc
    have hback := hrewired.linked.rewired_relink hqc' (by simp [hsupport])
    exact link_ok_iff.mpr ⟨hqc'.left_live hrewired.linked.ordered, hclive',
      (Rewired.eq_of_back h hrewired (hs ▸ hback)).symm⟩

/-- A checkmark can be taken back. -/
theorem Linked.setCheckmarked_back (h : Linked t) {i : Nat} (hi : t.lines.isLive i = true)
    {b : Bool} (hb : (t.line i).checkmarked = !b) :
    (t.setCheckmarked i b).setCheckmarked i (!b) = t := by
  have hr : Relinked t (t.setCheckmarked i b) := (Relinked.refl t).setCheckmarked i b
  have hi' : (t.setCheckmarked i b).lines.isLive i = true := (hr.isLive i).trans hi
  have hlinked := h.setCheckmarked hi b
  have hline := line_setCheckmarked (Register.lt_size_of_isLive hi)
    (fun c hc => h.lt_size_of_mem_children hi hc) b
  have hline' := line_setCheckmarked (Register.lt_size_of_isLive hi')
    (fun c hc => hlinked.lt_size_of_mem_children hi' hc) (!b)
  -- Sound links are determined by what the lines rest on and by their checkmarks.
  apply h.eq_of_relinked (hlinked.setCheckmarked hi' (!b)) (hr.setCheckmarked i (!b))
  · intro j _
    unfold support
    rw [hline', hline]
  · intro j _
    rw [hline', hline]
    by_cases hj : j = i
    · simp [hj, hb]
    · simp [hj]
  · intro j hj
    have hji : j ≠ i := fun hc => hj (hc ▸ hi)
    have hjc : j ∉ (t.line i).children := fun hc => hj ((h.mem_children_iff hi).mp hc).1
    have hchildren : ((t.setCheckmarked i b).line i).children = (t.line i).children := by rw [hline]
    rw [hline', hchildren, hline]
    simp [hji, hjc]

/-- A change to a node is taken back by one that undoes it on that node. -/
theorem modifyNode_back {n : Nat} {f g : Node → Node} (h : g (f (t.node n)) = t.node n) :
    (t.modifyNode n f).modifyNode n g = t := by
  have hnodes : (t.nodes.modify n f).modify n g = t.nodes := by
    apply ((Register.SameDisplay.modify _ n _).trans (Register.SameDisplay.modify _ n _)).eq_of_get
    intro m _
    rw [Register.get_modify, Register.get_modify, Register.size_modify]
    by_cases hm : m = n ∧ m < t.nodes.size
    · rw [if_pos hm, if_pos hm, hm.1]
      exact h
    · rw [if_neg hm, if_neg hm]
  exact eq_of_parts (t := t) rfl hnodes

theorem setClosed_back {n : Nat} {b : Bool} (hb : (t.node n).closed = !b) :
    (t.setClosed n b).setClosed n (!b) = t :=
  modifyNode_back (by rw [← hb])

theorem setOpen_back {n : Nat} {b : Bool} (hb : (t.node n).markedOpen = !b) :
    (t.setOpen n b).setOpen n (!b) = t :=
  modifyNode_back (by rw [← hb])

end TruthTrees.Tree
