import TruthTrees.Proofs.Tree.Additions
import TruthTrees.Proofs.Tree.Forks
import TruthTrees.Proofs.Tree.Warrants
import TruthTrees.Tree.Snapshot

/-! Edits lead from one sheet to another and back again. Whatever an edit did to a sheet it also
does to the sheet with remnants, and a user does not see remnants. -/
namespace TruthTrees

/-- A sheet with a coherent tree that is worked on at a node of the tree. Nodes have grown in pairs,
and lines rest on others for good reasons. -/
structure Sheet.Coherent (s : Sheet) : Prop where
  tree : s.tree.Coherent
  current : s.tree.nodes.isLive s.current = true
  forked : Tree.Forked s.tree.nodes
  warranted : s.tree.Warranted

def Sheet.extend (s : Sheet) (r : Tree.Remnants) : Sheet := { s with tree := s.tree.extend r }

/-- Remnants leave a sheet coherent. -/
theorem Sheet.Coherent.extend {s : Sheet} (h : s.Coherent) {r : Tree.Remnants}
    (hr : s.tree.Fits r) : (s.extend r).Coherent where
  tree := h.tree.extend hr
  current := (hr.isLive_node s.current).trans h.current
  forked := h.forked.extend h.tree.store.rooted hr
  warranted := h.warranted.extend h.tree hr

def Sheet.view (s : Sheet) : Snapshot × Nat := (s.tree.snapshot, s.currentNumber)

namespace Tree

variable {t : Tree} {r : Remnants}

theorem lineNumber_extend {i : Nat} (hi : t.lines.isLive i = true) :
    (t.extend r).lineNumber i = t.lineNumber i :=
  t.lines.number_extend_of_lt r.lines (Register.lt_size_of_isLive hi)

theorem nodeNumber_extend {n : Nat} (hn : t.nodes.isLive n = true) :
    (t.extend r).nodeNumber n = t.nodeNumber n :=
  t.nodes.number_extend_of_lt r.nodes (Register.lt_size_of_isLive hn)

/-- Remnants do not show in a line. -/
theorem Coherent.lineView_extend (h : t.Coherent) {i : Nat} (hi : t.lines.isLive i = true) :
    (t.extend r).lineView i = t.lineView i := by
  have hline := line_extend_of_isLive (r := r) hi
  have hnode := nodeNumber_extend (r := r) (h.store.holding.home i hi)
  have hparent : (t.line i).justification.parent?.map (t.extend r).lineNumber =
      (t.line i).justification.parent?.map t.lineNumber := by
    cases hs : (t.line i).justification with
    | line p =>
      have hp := (h.linked.parent i p hi hs).left_live h.linked.ordered
      exact congrArg some (lineNumber_extend hp)
    | _ => rfl
  have hchildren : (t.line i).children.map (t.extend r).lineNumber =
      (t.line i).children.map t.lineNumber := by
    apply List.map_congr_left
    intro c hc
    exact lineNumber_extend ((h.linked.mem_children_iff hi).mp hc).1
  have hbranches : (t.line i).branches.map (t.extend r).nodeNumber =
      (t.line i).branches.map t.nodeNumber := by
    apply List.map_congr_left
    intro n hn
    rw [h.store.branching.branches, List.mem_filter, h.store.rooted.ordered.mem_iff] at hn
    exact nodeNumber_extend hn.1
  unfold lineView
  dsimp only
  rw [hline, lineNumber_extend hi, hnode, hparent, hchildren, hbranches]

/-- Remnants do not show in a node. -/
theorem Coherent.nodeView_extend (h : t.Coherent) {n : Nat} (hn : t.nodes.isLive n = true) :
    (t.extend r).nodeView n = t.nodeView n := by
  have hnode := node_extend_of_isLive (r := r) hn
  have hlines : (t.node n).lines.map (t.extend r).lineNumber =
      (t.node n).lines.map t.lineNumber := by
    apply List.map_congr_left
    intro i hi
    exact lineNumber_extend ((h.store.holding.mem_lines_iff hn).mp hi).1
  have hchildren : (t.node n).children.map (t.extend r).nodeNumber =
      (t.node n).children.map t.nodeNumber := by
    apply List.map_congr_left
    intro m hm
    exact nodeNumber_extend (h.store.rooted.mem_children_iff.mp hm).1
  have hparent : (t.node n).parent?.map (t.extend r).nodeNumber =
      (t.node n).parent?.map t.nodeNumber := by
    unfold Node.parent?
    cases hs : (t.node n).stem with
    | none => rfl
    | some s => exact congrArg some (nodeNumber_extend (h.store.rooted.parent_live n s hn hs))
  -- A live node could remember a line that is not displayed, were it not for `branched`.
  have hstem : (t.node n).branchedOn?.map (t.extend r).lineNumber =
      (t.node n).branchedOn?.map t.lineNumber := by
    unfold Node.branchedOn?
    cases hs : (t.node n).stem with
    | none => rfl
    | some s => exact congrArg some (lineNumber_extend (h.branched n s hn hs).1)
  unfold nodeView
  dsimp only
  rw [hnode, nodeNumber_extend hn, hlines, hparent, hchildren, hstem]

/-- Remnants are not seen. -/
theorem Coherent.snapshot_extend (h : t.Coherent) (r : Remnants) :
    (t.extend r).snapshot = t.snapshot := by
  have hlines : t.lines.order.map (t.extend r).lineView = t.lines.order.map t.lineView := by
    apply List.map_congr_left
    intro i hi
    exact h.lineView_extend ((h.linked.ordered.mem_iff i).mp hi)
  have hnodes : t.nodes.order.map (t.extend r).nodeView = t.nodes.order.map t.nodeView := by
    apply List.map_congr_left
    intro n hn
    exact h.nodeView_extend ((h.store.rooted.ordered.mem_iff n).mp hn)
  exact congrArg₂ Snapshot.mk hlines hnodes

end Tree

/-- Remnants do not show on the sheet. -/
theorem Sheet.Coherent.view_extend {s : Sheet} (h : s.Coherent) (r : Tree.Remnants) :
    (s.extend r).view = s.view :=
  Prod.ext (h.tree.snapshot_extend r) (Tree.nodeNumber_extend h.current)

namespace Edit

/-- What an edit that stands in a history has done: it leads from one sheet to another one. Lines
and branches that were put in are described by their deletion, which is the exact one of the two
ways. -/
inductive Leads : Edit → Sheet → Sheet → Prop
  | insert {t u : Tree} {i n : Nat} (h : u.deleteLine i = .ok t) :
    Leads (.insert i) ⟨t, n⟩ ⟨u, n⟩
  | remove {t u : Tree} {i n : Nat} (h : t.deleteLine i = .ok u) :
    Leads (.remove i) ⟨t, n⟩ ⟨u, n⟩
  | graft {t u : Tree} {n l m : Nat} (h : u.deleteBranch n = (t, .ok (l, m))) :
    Leads (.graft n (l, m)) ⟨t, n⟩ ⟨u, n⟩
  | prune {t u : Tree} {n l m : Nat} (h : t.deleteBranch n = (u, .ok (l, m))) :
    Leads (.prune n (l, m)) ⟨t, n⟩ ⟨u, n⟩
  | justify {t : Tree} {p c n : Nat} (hbefore : t.Before p c) (hp : t.support c ≠ .premise) :
    Leads (.justify c (t.support c).parent? (some p)) ⟨t, n⟩ ⟨t.relink p c, n⟩
  | checkmark {t : Tree} {i n : Nat} {b : Bool} (hi : t.lines.isLive i = true)
    (hb : (t.line i).checkmarked = !b) : Leads (.checkmark i b) ⟨t, n⟩ ⟨t.setCheckmarked i b, n⟩
  | close {t : Tree} {m n : Nat} {b : Bool} (hm : t.nodes.isLive m = true)
    (hb : (t.node m).closed = !b) : Leads (.close m b) ⟨t, n⟩ ⟨t.setClosed m b, n⟩
  | markOpen {t : Tree} {m n : Nat} {b : Bool} (hm : t.nodes.isLive m = true)
    (hb : (t.node m).markedOpen = !b) : Leads (.markOpen m b) ⟨t, n⟩ ⟨t.setOpen m b, n⟩
  | goTo {t : Tree} {m n : Nat} : Leads (.goTo m n) ⟨t, m⟩ ⟨t, n⟩

/-- Pruning does not move a user who works at the node above the pair. -/
theorem apply_prune {t u : Tree} {n l m : Nat} (h : t.Coherent)
    (hok : t.deleteBranch n = (u, .ok (l, m))) :
    (Edit.prune n (l, m)).apply ⟨t, n⟩ = (⟨u, n⟩, .ok ()) := by
  obtain ⟨hpair, -⟩ := Tree.deleteBranch_ok_iff.mp hok
  obtain ⟨-, hchildren, -, -⟩ := Tree.leafPair_ok_iff.mp hpair
  have hp := h.store.rooted.pair hchildren
  have hcurrent : ¬(n = l ∨ n = m) := not_or.mpr ⟨hp.left_ne, hp.right_ne⟩
  simp only [apply, hok, if_neg hcurrent]

/-- An edit can be made again. -/
theorem Leads.apply_eq {e : Edit} {p s : Sheet} (h : e.Leads p s) (hp : p.Coherent)
    (hs : s.Coherent) : e.apply p = (s, .ok ()) := by
  cases h with
  | insert h => simp only [apply, hs.tree.restoreLine_of_deleteLine h, settle]
  | remove h => simp only [apply, h, settle]
  | graft h => simp only [apply, hs.tree.restoreBranch_of_deleteBranch h]
  | prune h => exact apply_prune hp.tree h
  | @justify t q c n hbefore hsupport =>
    have hlinked := hp.tree.linked
    have hok : t.link q c = .ok (t.relink q c) := Tree.link_ok_iff.mpr
      ⟨hbefore.left_live hlinked.ordered, hbefore.right_live hlinked.ordered, rfl⟩
    simp only [apply_link, hok, settle]
  | checkmark | close | markOpen | goTo => rfl

/-- An edit can be taken back. -/
theorem Leads.inverse_apply_eq {e : Edit} {p s : Sheet} (h : e.Leads p s) (hp : p.Coherent)
    (hs : s.Coherent) : e.inverse.apply s = (p, .ok ()) := by
  cases h with
  | insert h => simp only [inverse, apply, h, settle]
  | remove h => simp only [inverse, apply, hp.tree.restoreLine_of_deleteLine h, settle]
  | graft h => exact apply_prune hs.tree h
  | prune h => simp only [inverse, apply, hp.tree.restoreBranch_of_deleteBranch h]
  | @justify t q c n hbefore hsupport =>
    have hback := hp.tree.linked.relink_back hbefore hsupport
    cases hc : t.support c with
    | line q' =>
      rw [hc] at hback
      simp only [inverse, Justification.parent?, apply_link, hback, settle]
    | premise => exact absurd hc hsupport
    | missing =>
      rw [hc] at hback
      simp only [inverse, Justification.parent?, apply_unlink, hback, settle]
  | checkmark hi hb => simp only [inverse, apply, hp.tree.linked.setCheckmarked_back hi hb]
  | close hm hb => simp only [inverse, apply, Tree.setClosed_back hb]
  | markOpen hm hb => simp only [inverse, apply, Tree.setOpen_back hb]
  | goTo => rfl

/-- Edits register no nodes. -/
theorem Leads.size_nodes {e : Edit} {p s : Sheet} (h : e.Leads p s) :
    s.tree.nodes.size = p.tree.nodes.size := by
  cases h with
  | insert h => exact (Tree.size_nodes_of_deleteLine h).symm
  | remove h => exact Tree.size_nodes_of_deleteLine h
  | graft h => exact (Tree.size_nodes_of_deleteBranch h).symm
  | prune h => exact Tree.size_nodes_of_deleteBranch h
  | @justify t q c =>
    have hr : Tree.Relinked t (t.relink q c) :=
      (((Tree.Relinked.refl t).sever c).hook q c).revalidate c
    exact congrArg Register.size hr.nodes
  | @checkmark t i _ b =>
    exact congrArg Register.size ((Tree.Relinked.refl t).setCheckmarked i b).nodes
  | close | markOpen => exact Register.size_modify _ _ _
  | goTo => rfl

/-- An edit does the same when there are remnants. -/
theorem Leads.extend {e : Edit} {p s : Sheet} (h : e.Leads p s) (hp : p.Coherent)
    (hs : s.Coherent) {r : Tree.Remnants} (hr : p.tree.Fits r) :
    e.Leads (p.extend r) (s.extend r) := by
  have hr' : s.tree.Fits r := hr.congr h.size_nodes
  cases h with
  -- An insertion is told by its deletion, which starts from the later sheet.
  | insert h => exact .insert (hs.tree.extend_deleteLine hr' h)
  | remove h => exact .remove (hp.tree.extend_deleteLine hr h)
  | graft h => exact .graft (hs.tree.extend_deleteBranch hr' h)
  | prune h => exact .prune (hp.tree.extend_deleteBranch hr h)
  | @justify t q c n hbefore hsupport =>
    have hc := hbefore.right_live hp.tree.linked.ordered
    have hc' := Tree.support_extend (r := r) hc
    have hlead := Leads.justify (t := t.extend r) (p := q) (c := c) (n := n) hbefore (by rwa [hc'])
    rwa [hc', Tree.extend_relink hp.tree.linked hr hbefore hsupport] at hlead
  | @checkmark t i n b hi hb =>
    have hlead := Leads.checkmark (t := t.extend r) (i := i) (n := n) (b := b)
      ((hr.isLive_line i).trans hi) (by rwa [Tree.line_extend_of_isLive hi])
    rwa [Tree.extend_setCheckmarked hp.tree.linked r hi b] at hlead
  | @close t m n b hm hb =>
    have hlead := Leads.close (t := t.extend r) (m := m) (n := n) (b := b)
      ((hr.isLive_node m).trans hm) (by rwa [Tree.node_extend_of_isLive hm])
    rwa [show (t.extend r).setClosed m b = (t.setClosed m b).extend r from
      Tree.extend_modifyNode r (Register.lt_size_of_isLive hm) _] at hlead
  | @markOpen t m n b hm hb =>
    have hlead := Leads.markOpen (t := t.extend r) (m := m) (n := n) (b := b)
      ((hr.isLive_node m).trans hm) (by rwa [Tree.node_extend_of_isLive hm])
    rwa [show (t.extend r).setOpen m b = (t.setOpen m b).extend r from
      Tree.extend_modifyNode r (Register.lt_size_of_isLive hm) _] at hlead
  | goTo => exact .goTo

end Edit

end TruthTrees
