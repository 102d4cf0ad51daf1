import TruthTrees.Proofs.Session.Justifications

/-! What is deleted from a tree and restored at once, on every tree whose lists and links can be
relied on. Such a tree need not come from a session: a line may rest on one that is displayed below
it, and a node may be branched on a line of another branch. A deleted line always comes back. Two
deleted branches come back if and only if the lines that they were branched on are still there, and
nothing else than the tree that was there before comes of it. -/
namespace TruthTrees

namespace Tree

/-- What can be relied on in the links between the live lines of a tree, wherever these are
displayed. -/
structure WellLinked (t : Tree) : Prop where
  parent_live : ∀ c p, t.lines.isLive c = true → (t.line c).justification = .line p →
    t.lines.isLive p = true
  children : ∀ p, t.lines.isLive p = true → ListsByNumber t.lines (t.line p).children
    (fun c => t.lines.isLive c = true ∧ (t.line c).justification = .line p)
  acyclic : ∀ i, t.lines.isLive i = true → ¬ RestsOn t.support i i
  valid_iff : ∀ i, t.lines.isLive i = true → ((t.line i).valid = true ↔ Grounded t.support i)
  marked : ∀ c p, t.lines.isLive c = true → (t.line c).justification = .line p →
    (t.line c).parentCheckmarked = (t.line p).checkmarked

variable {t u : Tree}

theorem Linked.wellLinked (h : Linked t) : WellLinked t where
  parent_live := h.parent_live
  children _ hp := h.listsByNumber hp
  acyclic := h.irrefl
  valid_iff := h.valid
  marked := h.mirrored

theorem ordered_of_count {α : Type} {r : Register α}
    (h : ∀ i, r.order.count i = if r.isLive i then 1 else 0)
    (hnumber : ∀ k (hk : k < r.order.length), r.number r.order[k] = k + 1) : r.Ordered := by
  have hmem : ∀ i, i ∈ r.order ↔ r.isLive i = true := by
    intro i
    rw [← List.count_pos_iff, h]
    by_cases hi : r.isLive i = true <;> simp [hi]
  refine ⟨?_, hmem, ?_⟩
  · rw [List.nodup_iff_count_le_one]
    intro i
    rw [h]
    split <;> omega
  · intro i hi
    have hk := List.idxOf_lt_length_of_mem ((hmem i).mpr hi)
    have hat := hnumber _ hk
    rwa [List.getElem_idxOf hk] at hat

/-- Good storage is enough for the index. -/
theorem WellStored.indexed (h : WellStored t) : Indexed t := by
  have hlines := ordered_of_count h.lines_listed h.lines_numbered
  have hnodes := ordered_of_count h.nodes_listed h.nodes_numbered
  have hbranches : ∀ i, (t.line i).branches =
      t.nodes.order.filter (fun m => (t.node m).branchedOn? == some i) := fun i =>
    (h.line_branches i).eq_filter hnodes (fun _ => beq_iff_eq)
  refine ⟨⟨hnodes, ?_, h.node_children_le⟩, ⟨hlines, ?_, h.line_node⟩, ⟨hbranches, ?_⟩⟩
  · exact fun n => (h.node_children n).eq_filter hnodes (fun _ => beq_iff_eq)
  · exact fun n hn => (h.node_lines n hn).eq_filter hlines (fun _ => beq_iff_eq)
  · intro n s hn hs
    by_contra hlt
    have hmem : n ∈ (t.line s.line).branches :=
      ((h.line_branches s.line).1 n).mpr ⟨hn, congrArg (Option.map Stem.line) hs⟩
    rw [show t.line s.line = default from Register.get_of_size_le (Nat.le_of_not_lt hlt)] at hmem
    exact absurd hmem List.not_mem_nil

/-- Good links over an ordered register tie marks and justifications together. -/
theorem WellLinked.tied (h : WellLinked t) (ho : t.lines.Ordered) : Tied t where
  ordered := ho
  parent_live := h.parent_live
  irrefl := h.acyclic
  children p hp := (h.children p hp).eq_filter ho (fun _ => beq_iff_eq)
  valid := h.valid_iff
  mirrored := h.marked

theorem Indexed.of_deleteNode (h : Indexed t) {n : Nat} (hok : t.deleteNode n = .ok u) :
    Indexed u := by
  obtain ⟨hn, -, s, hs, rfl⟩ := deleteNode_ok_iff.mp hok
  rw [stow_eq_foldl]
  exact h.deleteNode hn hs

theorem Tied.of_deleteNode (h : Tied t) (hheld : Held t) {n : Nat} (hok : t.deleteNode n = .ok u) :
    Tied u := by
  obtain ⟨hn, -, s, -, rfl⟩ := deleteNode_ok_iff.mp hok
  have hlive : ∀ j ∈ (t.node n).lines, t.lines.isLive j = true := fun j hj =>
    ((hheld.mem_lines_iff hn).mp hj).1
  rw [stow_eq_foldl]
  apply (h.stow (hheld.nodup_lines hn) hlive).congr (display_withoutNode _ n s)
  intro j
  unfold links
  rw [line_withoutNode]

/-- A deleted node takes the lines along that it holds, and no other one. -/
theorem Held.isLive_of_deleteNode (h : Held t) {n : Nat} (hok : t.deleteNode n = .ok u) (i : Nat) :
    u.lines.isLive i = true ↔ t.lines.isLive i = true ∧ (t.line i).node ≠ n := by
  obtain ⟨hn, -, s, -, rfl⟩ := deleteNode_ok_iff.mp hok
  rw [stow_eq_foldl, isLive_stow_withoutNode, h.mem_lines_iff hn]
  tauto

theorem node_of_deleteNode {n : Nat} (hok : t.deleteNode n = .ok u) (i : Nat) :
    (u.line i).node = (t.line i).node := by
  obtain ⟨-, -, s, -, rfl⟩ := deleteNode_ok_iff.mp hok
  rw [stow_eq_foldl, node_stow_withoutNode]

/-- The line that a node was branched on is in the tree and is not held by one of the given
nodes. -/
def StemStays (t : Tree) (n : Nat) (gone : List Nat) : Prop :=
  ∃ i, (t.node n).branchedOn? = some i ∧ t.lines.isLive i = true ∧ (t.line i).node ∉ gone

/-- A stem stays when its line is in the tree and in none of the nodes that go. -/
theorem stemStays_iff {n : Nat} {s : Stem} (hs : (t.node n).stem = some s) (gone : List Nat) :
    t.StemStays n gone ↔ t.lines.isLive s.line = true ∧ (t.line s.line).node ∉ gone := by
  unfold StemStays Node.branchedOn?
  rw [hs]
  simp

theorem Indexed.restoreBranch_of_deleteBranch_iff (h : Indexed t) (htied : Tied t) {n l r : Nat}
    (hok : t.deleteBranch n = (u, .ok (l, r))) (v : Tree) :
    u.restoreBranch n (l, r) = (v, .ok ()) ↔
      (t.StemStays l [l, r] ∧ t.StemStays r [r]) ∧ v = t := by
  obtain ⟨hn, hleaf⟩ := h.growing.leaf_of_deleteBranch hok
  obtain ⟨hpair, t₁, hr, hl⟩ := deleteBranch_ok_iff.mp hok
  obtain ⟨hnlive, -⟩ := leafPair_ok_iff.mp hpair
  have hp := h.growing.leafPair hpair
  obtain ⟨i, hright⟩ := hp.right_stem
  obtain ⟨j, hleft⟩ := hp.left_stem
  obtain ⟨s, -, hnodes⟩ := nodes_of_deleteNode hr
  have hnlive₁ : t₁.nodes.isLive n = true := by
    rw [hnodes, isLive_cut]
    exact ⟨hp.right_ne, hnlive⟩
  have hleft₁ : (t₁.node l).stem = some ⟨n, j⟩ := by
    unfold node
    rw [hnodes, stem_cut]
    exact hleft
  have hback (w : Tree) : u.restoreNode l = .ok w ↔ t.StemStays l [l, r] ∧ w = t₁ := by
    rw [(h.of_deleteNode hr).restoreNode_of_deleteNode_iff (htied.of_deleteNode h.held hr) hleft₁
      hnlive₁ hl, h.held.isLive_of_deleteNode hr, node_of_deleteNode hr, stemStays_iff hleft]
    simp only [List.mem_cons, List.not_mem_nil, or_false]
    tauto
  have hback₁ : t₁.restoreNode r = .ok v ↔ t.StemStays r [r] ∧ v = t := by
    rw [h.restoreNode_of_deleteNode_iff htied hright hnlive hr, stemStays_iff hright]
    simp only [List.mem_singleton]
  rw [restoreBranch_ok_iff]
  constructor
  · rintro ⟨-, -, w, hw, hv⟩
    obtain ⟨hstays, rfl⟩ := (hback w).mp hw
    obtain ⟨hstays', rfl⟩ := hback₁.mp hv
    exact ⟨⟨hstays, hstays'⟩, rfl⟩
  · rintro ⟨⟨hstays, hstays'⟩, hv⟩
    exact ⟨hn, hleaf, t₁, (hback t₁).mpr ⟨hstays, rfl⟩, hback₁.mpr ⟨hstays', hv⟩⟩

/-- A line that was deleted can be restored, and two branches that were deleted can be restored
exactly if the lines that they were branched on did not go, neither before nor with them. What is
restored is the whole tree as it was, deleted lines and nodes included. -/
theorem restore_of_delete (hstored : WellStored t) (hlinked : WellLinked t) :
    (∀ i u, t.deleteLine i = .ok u → u.restoreLine i = .ok t) ∧
      ∀ n l r u, t.deleteBranch n = (u, .ok (l, r)) →
        ∀ v, u.restoreBranch n (l, r) = (v, .ok ()) ↔
          (t.StemStays l [l, r] ∧ t.StemStays r [r]) ∧ v = t := by
  have hindexed := hstored.indexed
  have htied := hlinked.tied hindexed.held.ordered
  constructor
  · exact fun i u hok => htied.restoreLine_of_deleteLine hindexed.held hok
  · exact fun n l r u hok v => hindexed.restoreBranch_of_deleteBranch_iff htied hok v

/-- Lines of both branches rest on each other, in both directions, and are checkmarked. Both
branches are deleted at once and come back, and so does a line on which one of the other branch
rests. -/
theorem restore_of_delete_crossing :
    let s := (Session.start {}).runAll [.addPremise "or(a,b)", .branch 1, .goTo 2, .addLine "a",
      .justify 2 1, .goTo 3, .addLine "a", .justify 3 2, .goTo 2, .addLine "a", .justify 4 3,
      .goTo 3, .addLine "b", .justify 5 1, .checkmark 1, .checkmark 2, .checkmark 3, .goTo 1]
    let t := s.tree
    let u := (t.deleteBranch root).1
    ((t.line 2).justification = .line 1 ∧ (t.line 3).justification = .line 2 ∧
      (t.line 1).node = 1 ∧ (t.line 2).node = 2 ∧ (t.line 3).node = 1) ∧
    (t.deleteBranch root = (u, .ok (1, 2)) ∧ u.lines.order = [0] ∧
      u.restoreBranch root (1, 2) = (t, .ok ())) ∧
    ∃ w, t.deleteLine 2 = .ok w ∧ w.restoreLine 2 = .ok t := by
  intro s t u
  have hs : Session.Reachable {} s := Session.reachable_iff_exists_runAll.mpr ⟨_, rfl⟩
  obtain ⟨-, past, future, htimeline⟩ := hs.timeline
  have ht := htimeline.coherent.tree
  obtain ⟨hline, hbranch⟩ := restore_of_delete (t := t) ht.store.wellStored ht.linked.wellLinked
  have hok : t.deleteBranch root = (u, .ok (1, 2)) := Prod.ext rfl (by decide +kernel)
  have hleft : t.StemStays 1 [1, 2] := ⟨0, by decide +kernel⟩
  have hright : t.StemStays 2 [2] := ⟨0, by decide +kernel⟩
  refine ⟨by decide +kernel, ⟨hok, by decide +kernel, ?_⟩, t.withoutLine 2, ?_⟩
  · exact (hbranch root 1 2 u hok t).mpr ⟨⟨hleft, hright⟩, rfl⟩
  · have hdelete : t.deleteLine 2 = .ok (t.withoutLine 2) :=
      deleteLine_ok_iff.mpr ⟨by decide +kernel, by decide +kernel, rfl⟩
    exact ⟨hdelete, hline 2 _ hdelete⟩

/-- A node is branched on a line of another branch, which is then deleted. Its own two branches can
still be deleted, but not restored, although all lists and links can be relied on. -/
theorem restoreBranch_refused_after_deleteBranch :
    let t := Tree.empty.performAll [.readPremise "or(x,y)", .branch 0 0, .readLine 1 "or(p,q)",
      .branch 2 1, .deleteNode 1]
    WellStored t ∧ WellLinked t ∧ (t.deleteBranch 2).2 = .ok (3, 4) ∧
      ((t.deleteBranch 2).1.restoreBranch 2 (3, 4)).2.isOk = false := by
  intro t
  have hsize : t.lines.size = 2 := by decide +kernel
  have hdead : t.lines.isLive 1 = false := by decide +kernel
  have hpremise : t.support 0 = .premise := by decide +kernel
  have hvalid : (t.line 0).valid = true := by decide +kernel
  have hchildren : (t.line 0).children = [] := by decide +kernel
  have hzero : ∀ i, t.lines.isLive i = true → i = 0 := by
    intro i hi
    have hlt := Register.lt_size_of_isLive hi
    have hne : i ≠ 1 := by
      rintro rfl
      simp [hdead] at hi
    omega
  have hlinks : WellLinked t := by
    have hnone : ∀ c p, t.lines.isLive c = true → t.support c ≠ .line p := by
      intro c p hc
      simp [hzero c hc, hpremise]
    constructor
    · exact fun c p hc hp => absurd hp (hnone c p hc)
    · intro p hp
      rw [hzero p hp, hchildren]
      refine ⟨fun c => ?_, .nil⟩
      simp only [List.not_mem_nil, false_iff]
      exact fun hc => hnone c 0 hc.1 hc.2
    · intro i hi hcycle
      obtain ⟨p, -, hp⟩ := Relation.TransGen.tail'_iff.mp hcycle
      exact hnone i p hi hp
    · intro i hi
      rw [hzero i hi]
      exact iff_of_true hvalid (.premise hpremise)
    · exact fun c p hc hp => absurd hp (hnone c p hc)
  exact ⟨(store_empty.performAll _).wellStored, hlinks, by decide +kernel, by decide +kernel⟩

end Tree

end TruthTrees
