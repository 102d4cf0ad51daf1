import TruthTrees.Proofs.Session.Invariants
import TruthTrees.Proofs.Tree.ClosedTrees
import TruthTrees.Proofs.Tree.Survival

/-! The two marks of a node. A closed node is not marked open, but a node that is marked open is
closed without taking the mark away. This is the only way in which a node comes to have both marks,
and in which all branches can be closed while one of them is open. -/
namespace TruthTrees

namespace Tree

variable {t u : Tree} {n : Nat}

def MarksApart (t : Tree) : Prop :=
  ∀ n, t.nodes.isLive n = true → ¬ ((t.node n).closed = true ∧ (t.node n).markedOpen = true)

namespace MarksApart

/-- Marks stay apart when a node has no more of them than before. -/
theorem transfer (h : t.MarksApart) (hnode : ∀ n, u.nodes.isLive n = true →
    (u.node n).closed = true → (u.node n).markedOpen = true →
    t.nodes.isLive n = true ∧ (t.node n).closed = true ∧ (t.node n).markedOpen = true) :
    u.MarksApart := by
  rintro n hn ⟨hclosed, hopen⟩
  obtain ⟨hnt, hmarks⟩ := hnode n hn hclosed hopen
  exact h n hnt hmarks

theorem of_nodes_eq (h : t.MarksApart) (hnodes : u.nodes = t.nodes) : u.MarksApart := by
  unfold MarksApart node
  rw [hnodes]
  exact h

/-- A change to a node keeps the marks apart when it does not bring them together there. -/
theorem modifyNode (h : t.MarksApart) (m : Nat) {f : Node → Node}
    (hf : (f (t.node m)).closed = true → (f (t.node m)).markedOpen = true →
      (t.node m).closed = true ∧ (t.node m).markedOpen = true) :
    (t.modifyNode m f).MarksApart := by
  apply h.transfer
  intro n hn hclosed hopen
  refine ⟨(Register.isLive_modify _ _ _ _).symm.trans hn, ?_⟩
  rw [node_modifyNode] at hclosed hopen
  split at hclosed
  · rename_i hnm
    rw [if_pos hnm] at hopen
    obtain rfl := hnm.1
    exact hf hclosed hopen
  · rename_i hnm
    rw [if_neg hnm] at hopen
    exact ⟨hclosed, hopen⟩

theorem insert (h : t.MarksApart) (k : Nat) (l : Line) (m : Nat) (g : List Nat → List Nat) :
    MarksApart (({ t with lines := t.lines.insert k l } : Tree).modifyNode m
      (fun nd => { nd with lines := g nd.lines })) := by
  have hlines : MarksApart { t with lines := t.lines.insert k l } := h.of_nodes_eq rfl
  exact hlines.modifyNode m (fun hclosed hopen => ⟨hclosed, hopen⟩)

theorem withoutLine (h : t.MarksApart) (i : Nat) : (t.withoutLine i).MarksApart := by
  apply h.transfer
  intro n hn hclosed hopen
  obtain ⟨lines, hnode⟩ := node_withoutLine t i n
  rw [nodes_withoutLine, Register.isLive_modify] at hn
  rw [hnode] at hclosed hopen
  exact ⟨hn, hclosed, hopen⟩

theorem withFork (h : t.MarksApart) (m i : Nat) : (t.withFork m i).MarksApart := by
  apply h.transfer
  intro n hn hclosed hopen
  unfold node at hclosed hopen
  rw [nodes_withFork, get_forked] at hclosed hopen
  rw [nodes_withFork, isLive_forked] at hn
  refine ⟨hn.resolve_left fun hnew => ?_, hclosed, hopen⟩
  rw [show t.nodes.get n = {} from Register.get_of_size_le (by omega)] at hclosed
  simp at hclosed

/-- Deleting a branch keeps the marks apart. -/
theorem of_deleteBranch (h : t.MarksApart) (ht : Coherent t) {m l r : Nat}
    (hok : t.deleteBranch m = (u, .ok (l, r))) : u.MarksApart := by
  apply h.transfer
  intro n hn hclosed hopen
  obtain ⟨children, hnode, -⟩ := ht.node_of_deleteBranch hok n
  rw [hnode] at hclosed hopen
  exact ⟨((ht.isLive_of_deleteBranch hok n).mp hn).2, hclosed, hopen⟩

end MarksApart

/-- When no branch below the root is found unclosed, none is below any other node. -/
theorem Coherent.unclosed?_eq_none (h : Coherent t) (hf : Forked t.nodes) {require : Bool}
    (hclosed : t.unclosed? require (t.shape root) = none) (hn : t.nodes.isLive n = true) :
    t.unclosed? require (t.shape n) = none := by
  induction n using Nat.strongRecOn with
  | ind n ih =>
    by_cases hroot : n = root
    · rw [hroot]
      exact hclosed
    · obtain ⟨s, hs, hlt⟩ := h.store.rooted.stem n (Register.lt_size_of_isLive hn) hroot
      have hparent := h.store.rooted.parent_live n s hn hs
      have hmem := h.store.rooted.mem_children hn hs
      have habove := ih s.node hlt hparent
      rcases hf s.node hparent with hleaf | ⟨left, right, i, hfork⟩
      · rw [hleaf] at hmem
        simp at hmem
      · rw [h.store.rooted.shape_of_fork hfork, unclosed?, Option.or_eq_none_iff,
          Option.or_eq_none_iff] at habove
        rw [hfork.children, List.mem_pair] at hmem
        rcases hmem with rfl | rfl
        · exact habove.2.1
        · exact habove.2.2

/-- When all branches are closed, every leaf is. -/
theorem Coherent.closed_of_leaf (h : Coherent t) (hf : Forked t.nodes) {require : Bool}
    (hok : t.checkAllClosed require = .ok ()) (hn : t.nodes.isLive n = true)
    (hleaf : (t.node n).isLeaf = true) : (t.node n).closed = true := by
  have hroot : t.unclosed? require (t.shape root) = none := by
    unfold checkAllClosed at hok
    split at hok <;> simp_all
  have hbelow := h.unclosed?_eq_none hf hroot hn
  rw [shape_of_leaf (List.isEmpty_iff.mp hleaf), unclosed?, Option.or_eq_none_iff] at hbelow
  simpa using hbelow.2

/-- An open branch ends in a leaf that is marked. -/
theorem exists_leaf_of_checkAnyOpen (hordered : t.nodes.Ordered) (hok : t.checkAnyOpen = .ok ()) :
    ∃ n, t.nodes.isLive n = true ∧ (t.node n).isLeaf = true ∧ (t.node n).markedOpen = true := by
  unfold checkAnyOpen at hok
  split at hok
  · rename_i hany
    obtain ⟨n, hn, hopen⟩ := List.any_eq_true.mp hany
    obtain ⟨horder, hleaf⟩ := List.mem_filter.mp hn
    exact ⟨n, (hordered.mem_iff n).mp horder, hleaf, hopen⟩
  · simp at hok

end Tree

namespace Session

variable {s : Session}

theorem checkAllClosed_of_run (hok : (s.run .checkAllClosed).2.isOk = true) :
    s.tree.checkAllClosed s.config.requireCheckmarks = .ok () := by
  cases hcheck : s.tree.checkAllClosed s.config.requireCheckmarks with
  | ok => rfl
  | error => simp [run, settle, checkAllClosed, hcheck, bind, Except.bind, Except.mapError,
      Except.isOk, Except.toBool] at hok

theorem checkAnyOpen_of_run (hok : (s.run .checkAnyOpen).2.isOk = true) :
    s.tree.checkAnyOpen = .ok () := by
  cases hcheck : s.tree.checkAnyOpen with
  | ok => rfl
  | error => simp [run, settle, checkAnyOpen, hcheck, bind, Except.bind, Except.mapError,
      Except.isOk, Except.toBool] at hok

/-- As long as marks are apart, not all branches are closed when one of them is open. -/
theorem not_checks_of_marksApart (h : s.sheet.Coherent) (hmarks : s.tree.MarksApart) :
    ¬ ((s.run .checkAllClosed).2.isOk = true ∧ (s.run .checkAnyOpen).2.isOk = true) := by
  rintro ⟨hall, hany⟩
  obtain ⟨n, hn, hleaf, hopen⟩ :=
    Tree.exists_leaf_of_checkAnyOpen h.tree.store.rooted.ordered (checkAnyOpen_of_run hany)
  have hclosed := h.tree.closed_of_leaf h.forked (checkAllClosed_of_run hall) hn hleaf
  exact hmarks n hn ⟨hclosed, hopen⟩

def closesOpen (s : Session) : Command → Bool
  | .close _ _ => (s.tree.node s.current).markedOpen
  | _ => false

/-- Commands that close no open branch keep the marks apart. -/
theorem kept_marksApart : Kept closesOpen Tree.MarksApart := by
  constructor
  case empty =>
    rintro n - ⟨hclosed, -⟩
    exact absurd hclosed (by cases n <;> exact Bool.false_ne_true)
  case extend =>
    intro p r _ hr h
    apply h.transfer
    intro n hn hclosed hopen
    rw [hr.isLive_node] at hn
    rw [Tree.node_extend_of_isLive hn] at hclosed hopen
    exact ⟨hn, hclosed, hopen⟩
  case change =>
    intro s c u _ hs _ hchange hharm h
    have ht := hs.tree
    cases hchange with
    | addPremise φ => exact h.insert _ _ _ _
    | addLine φ =>
      rw [Tree.withNewLine_eq]
      exact h.insert _ _ _ (fun ids => ids ++ [s.tree.lines.size])
    | deleteLine _ _ _ => exact h.withoutLine _
    | justify _ _ hsupport hbefore =>
      exact h.of_nodes_eq (ht.linked.rewired_relink hbefore hsupport).relinked.nodes
    | @checkmark _ i _ _ =>
      exact h.of_nodes_eq ((Tree.Relinked.refl s.tree).setCheckmarked i true).nodes
    | branch _ _ _ _ => exact h.withFork _ _
    | deleteBranch hdelete => exact h.of_deleteBranch ht hdelete
    | goTo => exact h
    | close _ =>
      refine h.modifyNode _ fun _ hopen => ?_
      have hunmarked : (s.tree.node s.current).markedOpen = false := hharm
      exact absurd (hunmarked.symm.trans hopen) (by simp)
    | reopen _ => exact h.modifyNode _ fun hclosed _ => absurd hclosed (by simp)
    | markOpen hclosed =>
      exact h.modifyNode _ fun hc _ => absurd (hclosed.symm.trans hc) (by simp)

/-- A node that is closed while it is marked open has both marks. -/
theorem not_marksApart_of_close {c : Command} (h : s.sheet.Coherent)
    (hok : (s.run c).2.isOk = true) (hc : s.closesOpen c = true) :
    ¬ (s.run c).1.tree.MarksApart := by
  cases c with
  | close first second =>
    rcases hrun : s.run (.close first second) with ⟨s', e | reply⟩
    · rw [hrun] at hok
      simp [Except.isOk, Except.toBool] at hok
    · have hchange := run_changes h rfl hrun
      generalize s'.tree = u at hchange
      cases hchange with
      | close hcheck =>
        intro hmarks
        have hlive : (s.tree.setClosed s.current true).nodes.isLive s.current = true :=
          (Register.isLive_modify _ _ _ _).trans h.current
        apply hmarks s.current hlive
        rw [Tree.setClosed, Tree.node_modifyNode,
          if_pos ⟨rfl, Register.lt_size_of_isLive h.current⟩]
        exact ⟨rfl, hc⟩
  | _ => simp [closesOpen] at hc

/-- As long as no node is closed that is marked open, and only so long, no live node has both marks
and not all branches are closed while one of them is open. -/
theorem marks_apart_iff_avoids {config : Config} {cs : List Command} :
    (start config).avoids closesOpen cs = true ↔
      ∀ k, let s := (start config).runAll (cs.take k)
        (∀ n, s.tree.nodes.isLive n = true →
          ¬ ((s.tree.node n).closed = true ∧ (s.tree.node n).markedOpen = true)) ∧
        ¬ ((s.run .checkAllClosed).2.isOk = true ∧ (s.run .checkAnyOpen).2.isOk = true) := by
  have hiff : (start config).avoids closesOpen cs = true ↔
      ∀ k, ((start config).runAll (cs.take k)).tree.MarksApart :=
    kept_marksApart.avoids_iff not_marksApart_of_close
  rw [hiff]
  constructor
  · intro hmarks k
    have hs : Reachable config ((start config).runAll (cs.take k)) :=
      reachable_iff_exists_runAll.mpr ⟨_, rfl⟩
    obtain ⟨-, past, future, ht⟩ := hs.timeline
    exact ⟨hmarks k, not_checks_of_marksApart ht.coherent (hmarks k)⟩
  · exact fun hall k => (hall k).1

/-- One branch is marked open, which is taken back before it is closed, and is marked open again
when it is no longer closed; the other one stays closed. -/
theorem marks_apart_iff_avoids_reopened :
    let cs : List Command := [.addPremise "or(a,b)", .addPremise "not(b)", .branch 1, .goTo 3,
      .addLine "b", .justify 3 1, .close 3 2, .goTo 2, .addLine "a", .justify 4 1, .checkmark 1,
      .markOpen, .undo, .addLine "b", .justify 5 1, .close 5 2, .reopen 2, .markOpen]
    let s := (start {}).runAll cs
    (start {}).avoids closesOpen cs = true ∧ (s.tree.node 1).markedOpen = true ∧
      (s.tree.node 2).closed = true ∧ s.tree.MarksApart ∧
      (s.run .checkAllClosed).2.isOk = false := by
  intro cs s
  have hcs : (start {}).avoids closesOpen cs = true := by decide +kernel
  have hany : (s.run .checkAnyOpen).2.isOk = true := by decide +kernel
  have hmarks := marks_apart_iff_avoids.mp hcs cs.length
  rw [List.take_length] at hmarks
  refine ⟨hcs, by decide +kernel, by decide +kernel, hmarks.1, ?_⟩
  rw [Bool.eq_false_iff]
  exact fun hall => hmarks.2 ⟨hall, hany⟩

/-- A node that is marked open can be closed. Then it has both marks, and all branches are closed
while one of them is open. -/
theorem marks_together_closed :
    let s := (start {}).runAll [.addPremise "a", .addPremise "not(a)", .markOpen, .close 1 2]
    (s.tree.nodes.isLive Tree.root = true ∧ (s.tree.node Tree.root).closed = true ∧
      (s.tree.node Tree.root).markedOpen = true) ∧
    (s.run .checkAllClosed).2.isOk = true ∧ (s.run .checkAnyOpen).2.isOk = true := by
  decide +kernel

end Session

end TruthTrees
