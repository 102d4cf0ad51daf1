import TruthTrees.Proofs.Tree.Remnants

/-! What is done to a coherent tree is done alike to the tree with remnants. -/
namespace TruthTrees.Tree

variable {t u : Tree} {r : Remnants}

theorem Relinked.extend (h : Relinked t u) (r : Remnants) : Relinked (t.extend r) (u.extend r) := by
  have hline : ∀ i, ((u.extend r).line i).formula = ((t.extend r).line i).formula ∧
      ((u.extend r).line i).node = ((t.extend r).line i).node ∧
      ((u.extend r).line i).branches = ((t.extend r).line i).branches := by
    intro i
    by_cases hi : i < t.lines.size
    · rw [line_extend hi, line_extend (h.size.symm ▸ hi)]
      exact ⟨h.formula i, h.node i, h.branches i⟩
    · have heq : (u.extend r).line i = (t.extend r).line i :=
        Register.get_extend_congr r.lines h.size (Nat.le_of_not_lt hi)
      rw [heq]
      exact ⟨rfl, rfl, rfl⟩
  refine ⟨⟨?_, ?_, fun i => (hline i).1, fun i => (hline i).2.1, fun i => (hline i).2.2⟩, ?_⟩
  · exact congrArg (Register.extend · r.nodes) h.nodes
  · exact (h.display.extend r.lines).size
  · exact h.display.extend r.lines

/-- There is only one way to change what a line rests on. -/
theorem Rewired.unique {v : Tree} {c : Nat} {x : Justification} (h : Rewired t u c x)
    (h' : Rewired t v c x) : v = u := by
  have hr : Relinked u v :=
    ⟨⟨h'.relinked.nodes.trans h.relinked.nodes.symm, h'.relinked.size.trans h.relinked.size.symm,
      fun i => (h'.relinked.formula i).trans (h.relinked.formula i).symm,
      fun i => (h'.relinked.node i).trans (h.relinked.node i).symm,
      fun i => (h'.relinked.branches i).trans (h.relinked.branches i).symm⟩,
      h.relinked.display.symm.trans h'.relinked.display⟩
  apply h.linked.eq_of_relinked h'.linked hr
  · intro i _
    rw [h'.support, h.support]
  · intro i _
    rw [h'.checkmarked, h.checkmarked]
  · intro i hi
    rw [h.relinked.isLive] at hi
    rw [h'.dead i hi, h.dead i hi]

theorem Rewired.extend {c : Nat} {x : Justification} (h : Rewired t u c x)
    (hc : c < t.lines.size) (hr : Fits t r) : Rewired (t.extend r) (u.extend r) c x := by
  have hsize := h.relinked.size
  have hold : ∀ j, j < t.lines.size → (u.extend r).line j = u.line j := fun j hj =>
    line_extend (hsize.symm ▸ hj)
  have hnew : ∀ j, ¬ j < t.lines.size → (u.extend r).line j = (t.extend r).line j := fun j hj =>
    Register.get_extend_congr r.lines hsize (Nat.le_of_not_lt hj)
  have hfits : Fits u r := hr.congr (by rw [h.relinked.nodes])
  refine ⟨h.linked.extend hfits, h.relinked.extend r, ?_, ?_, ?_⟩
  · intro j
    unfold Tree.support
    by_cases hj : j < t.lines.size
    · rw [hold j hj, line_extend hj]
      exact h.support j
    · have hjc : j ≠ c := fun hjc => hj (hjc ▸ hc)
      rw [hnew j hj, if_neg hjc]
  · intro j
    by_cases hj : j < t.lines.size
    · rw [hold j hj, line_extend hj, h.checkmarked]
    · rw [hnew j hj]
  · intro j hj
    rw [hr.isLive_line] at hj
    by_cases hlt : j < t.lines.size
    · rw [hold j hlt, line_extend hlt, h.dead j hj]
    · exact hnew j hlt

/-- Lines that have left the tree do not matter when two others are linked. -/
theorem extend_relink (h : Linked t) (hr : Fits t r) {p c : Nat} (hbefore : t.Before p c)
    (hp : t.support c ≠ .premise) : (t.extend r).relink p c = (t.relink p c).extend r := by
  have hc := hbefore.right_live h.ordered
  apply Rewired.unique
  · exact (h.rewired_relink hbefore hp).extend (Register.lt_size_of_isLive hc) hr
  · apply (h.extend hr).rewired_relink hbefore
    rw [support_extend hc]
    exact hp

theorem extend_modifyLine (r : Remnants) {i : Nat} (hi : i < t.lines.size) (f : Line → Line) :
    (t.extend r).modifyLine i f = (t.modifyLine i f).extend r := by
  unfold modifyLine Tree.extend
  rw [Register.extend_modify _ _ hi]

theorem extend_modifyLines (r : Remnants) {ids : List Nat} (h : ∀ j ∈ ids, j < t.lines.size)
    (f : Line → Line) : (t.extend r).modifyLines ids f = (t.modifyLines ids f).extend r := by
  unfold modifyLines Tree.extend
  rw [Register.extend_modifyAll _ _ h]

theorem extend_modifyNode (r : Remnants) {n : Nat} (hn : n < t.nodes.size) (f : Node → Node) :
    (t.extend r).modifyNode n f = (t.modifyNode n f).extend r := by
  unfold modifyNode Tree.extend
  rw [Register.extend_modify _ _ hn]

theorem extend_setCheckmarked (h : Linked t) (r : Remnants) {i : Nat}
    (hi : t.lines.isLive i = true) (b : Bool) :
    (t.extend r).setCheckmarked i b = (t.setCheckmarked i b).extend r := by
  have hlt := Register.lt_size_of_isLive hi
  set v := t.modifyLine i (fun l => { l with checkmarked := b }) with hv
  have hsize : v.lines.size = t.lines.size := Register.size_modify _ _ _
  have hchildren : (v.line i).children = (t.line i).children := by
    rw [hv, line_modifyLine_of_lt hlt, if_pos rfl]
  unfold setCheckmarked
  dsimp only
  rw [extend_modifyLine r hlt, ← hv, line_extend (hsize.symm ▸ hlt), extend_modifyLines]
  intro j hj
  rw [hchildren] at hj
  rw [hsize]
  exact h.lt_size_of_mem_children hi hj

/-- A chain above a live line depends on the live lines only. -/
theorem Descending.restsOn_congr (h : t.Descending) {f : Nat → Justification}
    (hf : ∀ j, t.lines.isLive j = true → f j = t.support j) {i j : Nat}
    (hj : t.lines.isLive j = true) : RestsOn f i j ↔ RestsOn t.support i j := by
  constructor
  · intro hij
    induction hij with
    | single hs => exact .single (hf _ hj ▸ hs)
    | tail _ hs ih =>
      have hs' := hf _ hj ▸ hs
      exact .tail (ih ((h.parent _ _ hj hs').left_live h.ordered)) hs'
  · intro hij
    induction hij with
    | single hs => exact .single ((hf _ hj).trans hs)
    | tail _ hs ih =>
      exact .tail (ih ((h.parent _ _ hj hs).left_live h.ordered)) ((hf _ hj).trans hs)

/-- Nothing that has left the tree rests on a line in it. -/
theorem mem_dependents_extend (h : Linked t) (hr : Fits t r) {i : Nat}
    (hi : t.lines.isLive i = true) (j : Nat) :
    j ∈ (t.extend r).dependents i ↔ j ∈ t.dependents i := by
  have hi' : (t.extend r).lines.isLive i = true := (hr.isLive_line i).trans hi
  rw [(h.extend hr).mem_dependents_iff hi', h.mem_dependents_iff hi, hr.isLive_line]
  apply and_congr_right
  intro hj
  exact h.restsOn_congr (fun k hk => support_extend hk) hj

/-- Lines that have left the tree do not matter when another is taken out. -/
theorem extend_detach (h : Linked t) (hr : Fits t r) {i : Nat} (hi : t.lines.isLive i = true) :
    (t.extend r).detach i = (t.detach i).extend r := by
  have hlt := Register.lt_size_of_isLive hi
  have hi' : (t.extend r).lines.isLive i = true := (hr.isLive_line i).trans hi
  have hplaces := SamePlaces.detach t i
  have hplaces' := SamePlaces.detach (t.extend r) i
  have hline := line_extend_of_isLive (r := r) hi
  have hsupport := support_extend (r := r) hi
  have hnodes : ((t.extend r).detach i).nodes = ((t.detach i).extend r).nodes :=
    hplaces'.nodes.trans (congrArg (Register.extend · r.nodes) hplaces.nodes).symm
  apply eq_of_parts _ hnodes
  have hordered : (t.extend r).lines.Ordered := h.ordered.extend hr.lines_dead
  apply ((ordered_detach h.ordered hi).extend hr.lines_dead).ext (ordered_detach hordered hi')
  · exact hplaces'.size.trans ((t.lines.size_extend _).trans
      ((congrArg (· + r.lines.length) hplaces.size).symm.trans (Register.size_extend _ _).symm))
  · intro j _
    have hgoal : ((t.extend r).detach i).line j = ((t.detach i).extend r).line j := by
      rw [line_detach (h.extend hr).toTied hi']
      by_cases hj : j < t.lines.size
      · rw [line_extend (hplaces.size.symm ▸ hj), line_detach h.toTied hi]
        unfold detachedLine
        have hsj : (t.extend r).support j = t.support j :=
          congrArg Line.justification (line_extend hj)
        simp only [hline, hsupport, line_extend hj, hr.isLive_line, mem_dependents_extend h hr hi,
          hsj]
      · have hnew : ((t.detach i).extend r).line j = (t.extend r).line j :=
          Register.get_extend_congr r.lines hplaces.size (Nat.le_of_not_lt hj)
        have hdead : t.lines.isLive j ≠ true := fun hc => hj (Register.lt_size_of_isLive hc)
        have hji : j ≠ i := fun hc => hdead (hc ▸ hi)
        have hjc : j ∉ (t.line i).children := fun hc => hj (h.lt_size_of_mem_children hi hc)
        have hjp : ¬ t.support i = .line j := fun hc =>
          hdead (h.parent_live i j hi hc)
        have hjd : j ∉ t.dependents i := fun hc => hj (h.lt_size_of_mem_dependents hi hc)
        rw [hnew]
        unfold detachedLine
        simp only [hline, hsupport, hr.isLive_line, mem_dependents_extend h hr hi]
        simp [hji, hjc, hjp, hjd, hdead]
    exact hgoal
  · intro j _
    rw [leftFrom_detach hordered hi']
    by_cases hj : j < t.lines.size
    · rw [(t.detach i).lines.leftFrom_extend_of_lt _ (hplaces.size.symm ▸ hj),
        leftFrom_detach h.ordered hi,
        show (t.extend r).lines.leftFrom j = _ from t.lines.leftFrom_extend_of_lt _ hj]
      rfl
    · have hji : j ≠ i := fun hc => hj (hc ▸ hlt)
      rw [if_neg hji]
      exact (Register.leftFrom_extend_congr r.lines hplaces.size (Nat.le_of_not_lt hj)).symm
  · rw [order_detach hordered hi']
    exact (order_detach h.ordered hi).symm

theorem extend_stow (h : Linked t) (hr : Fits t r) {ids : List Nat} (hids : ids.Nodup)
    (hlive : ∀ i ∈ ids, t.lines.isLive i = true) :
    (t.extend r).stow ids = (t.stow ids).extend r := by
  induction ids with
  | nil => rfl
  | cons i ids ih =>
    obtain ⟨hi, hids⟩ := List.nodup_cons.mp hids
    have hrest : ∀ j ∈ ids, t.lines.isLive j = true := fun j hj => hlive j (by simp [hj])
    rw [stow_cons, stow_cons, ih hids hrest]
    apply extend_detach (h.stow hids hrest)
    · exact hr.congr (by rw [(SamePlaces.stow t ids).nodes])
    · exact (isLive_stow ids i).mpr ⟨hi, hlive i (by simp)⟩

/-- Deleting a line commutes with what has left the tree before. -/
theorem Coherent.extend_deleteLine (h : Coherent t) (hr : Fits t r) {i : Nat}
    (hok : t.deleteLine i = .ok u) : (t.extend r).deleteLine i = .ok (u.extend r) := by
  obtain ⟨hi, hb, rfl⟩ := deleteLine_ok_iff.mp hok
  have hline := line_extend_of_isLive (r := r) hi
  have hn := Register.lt_size_of_isLive (h.store.holding.home i hi)
  refine deleteLine_ok_iff.mpr ⟨(hr.isLive_line i).trans hi, by rw [hline, hb], ?_⟩
  unfold Tree.withoutLine
  rw [hline, extend_modifyNode r hn]
  set t' := t.modifyNode (t.line i).node
    (fun nd => { nd with lines := nd.lines.filter (· ≠ i) }) with ht'
  have hlinked : Linked t' := h.linked.of_lines (lines_modifyNode t _ _)
  have hfits : Fits t' r := hr.congr (Register.size_modify _ _ _)
  have hlive : t'.lines.isLive i = true := hi
  exact (extend_detach hlinked hfits hlive).symm

theorem extend_withoutNode (ho : t.nodes.Ordered) (hr : Fits t r) {n : Nat} {s : Stem}
    (hn : t.nodes.isLive n = true) (hp : s.node < t.nodes.size) (hl : s.line < t.lines.size) :
    (t.extend r).withoutNode n s = (t.withoutNode n s).extend r := by
  unfold withoutNode
  dsimp only
  rw [extend_modifyLine r hl, extend_modifyNode r (by simpa using hp)]
  have hd : Register.SameDisplay t.nodes ((t.modifyLine s.line
      (fun l => { l with branches := l.branches.filter (· ≠ n) })).modifyNode s.node
        (fun p => { p with children := p.children.filter (· ≠ n) })).nodes := by
    rw [nodes_modifyNode, nodes_modifyLine]
    exact Register.SameDisplay.modify _ _ _
  exact eq_of_parts rfl
    (Register.extend_withdraw (ho.congr hd) hr.nodes_dead ((hd.isLive n).trans hn))

/-- Deleting a node commutes with what has left the tree before. -/
theorem Coherent.extend_deleteNode (h : Coherent t) (hr : Fits t r) {n : Nat}
    (hok : t.deleteNode n = .ok u) : (t.extend r).deleteNode n = .ok (u.extend r) := by
  obtain ⟨hn, hleaf, s, hs, rfl⟩ := deleteNode_ok_iff.mp hok
  have hnode := node_extend_of_isLive (r := r) hn
  refine deleteNode_ok_iff.mpr ⟨(hr.isLive_node n).trans hn, by rw [hnode, hleaf], s,
    by rw [hnode, hs], ?_⟩
  rw [stow_eq_foldl, stow_eq_foldl, hnode]
  have hlive : ∀ i ∈ (t.node n).lines, t.lines.isLive i = true :=
    fun i hi => ((h.store.holding.mem_lines_iff hn).mp hi).1
  have hplaces := SamePlaces.stow t (t.node n).lines
  rw [extend_stow h.linked hr (h.store.holding.nodup_lines hn) hlive, extend_withoutNode]
  · rw [hplaces.nodes]
    exact h.store.rooted.ordered
  · exact hr.congr (by rw [hplaces.nodes])
  · rw [hplaces.nodes]
    exact hn
  · rw [hplaces.nodes]
    exact Register.lt_size_of_isLive (h.store.rooted.parent_live n s hn hs)
  · rw [hplaces.size]
    exact h.store.branching.known n s hn hs

theorem size_nodes_of_deleteNode {n : Nat} (hok : t.deleteNode n = .ok u) :
    u.nodes.size = t.nodes.size := by
  obtain ⟨s, -, hnodes⟩ := nodes_of_deleteNode hok
  simp [hnodes, cut]

/-- Deleting a branch commutes with what has left the tree before. -/
theorem Coherent.extend_deleteBranch (h : Coherent t) (hr : Fits t r) {n l m : Nat}
    (hok : t.deleteBranch n = (u, .ok (l, m))) :
    (t.extend r).deleteBranch n = (u.extend r, .ok (l, m)) := by
  obtain ⟨hpair, t₁, hright, hleft⟩ := deleteBranch_ok_iff.mp hok
  obtain ⟨hn, hchildren, hl, hm⟩ := leafPair_ok_iff.mp hpair
  have hp := h.store.rooted.pair hchildren
  refine deleteBranch_ok_iff.mpr ⟨leafPair_ok_iff.mpr ⟨?_, ?_, ?_, ?_⟩, t₁.extend r, ?_, ?_⟩
  · rw [hr.isLive_node, hn]
  · rw [node_extend_of_isLive hn, hchildren]
  · rw [node_extend_of_isLive hp.left_live, hl]
  · rw [node_extend_of_isLive hp.right_live, hm]
  · exact h.extend_deleteNode hr hright
  · exact (h.of_deleteNode hright).extend_deleteNode
      (hr.congr (size_nodes_of_deleteNode hright)) hleft

theorem size_nodes_of_deleteLine {i : Nat} (hok : t.deleteLine i = .ok u) :
    u.nodes.size = t.nodes.size := by
  obtain ⟨-, -, rfl⟩ := deleteLine_ok_iff.mp hok
  rw [nodes_withoutLine, Register.size_modify]

theorem size_nodes_of_deleteBranch {n l m : Nat} (hok : t.deleteBranch n = (u, .ok (l, m))) :
    u.nodes.size = t.nodes.size := by
  obtain ⟨-, t₁, hright, hleft⟩ := deleteBranch_ok_iff.mp hok
  exact (size_nodes_of_deleteNode hleft).trans (size_nodes_of_deleteNode hright)

end TruthTrees.Tree
