import TruthTrees.Proofs.Session.Invariants
import TruthTrees.Proofs.Tree.ClosedTrees
import TruthTrees.Proofs.Tree.Survival

/-! What a closed node promises. A node is closed by two valid lines on the path to it that
contradict each other. They stay there as long as no command takes the support of such a line away;
the commands that do are carried out all the same, and leave the node closed. -/
namespace TruthTrees

namespace Tree

variable {t u : Tree} {n : Nat}

/-- Two valid lines in the ancestry of a node, one of which says the negation of the other one. -/
structure Clash (t : Tree) (n i j : Nat) : Prop where
  left_valid : (t.line i).valid = true
  right_valid : (t.line j).valid = true
  left_above : t.inAncestry n i = true
  right_above : t.inAncestry n j = true
  negation : (Formula.not (t.line i).formula).equivalent (t.line j).formula = true

def Contradicted (t : Tree) (n : Nat) : Prop := ∃ i j, t.Clash n i j

def ClosedByContradiction (t : Tree) : Prop :=
  ∀ n, t.nodes.isLive n = true → (t.node n).closed = true → t.Contradicted n

/-- A node can be closed by the lines that contradict each other in its ancestry. -/
theorem isOk_checkClose_iff_clash {i j : Nat} :
    (t.checkClose n i j).isOk = true ↔ t.Clash n i j := by
  rw [isOk_checkClose_iff]
  constructor
  · rintro ⟨hi, hj, hiabove, hjabove, hnot⟩
    exact ⟨hi, hj, hiabove, hjabove, hnot⟩
  · rintro ⟨hi, hj, hiabove, hjabove, hnot⟩
    exact ⟨hi, hj, hiabove, hjabove, hnot⟩

theorem Clash.lt_size {i j : Nat} (h : t.Clash n i j) :
    i < t.lines.size ∧ j < t.lines.size :=
  ⟨Register.lt_size_of_isLive (inAncestry_iff.mp h.left_above).1,
    Register.lt_size_of_isLive (inAncestry_iff.mp h.right_above).1⟩

instance (t : Tree) (n : Nat) : Decidable (t.Contradicted n) :=
  decidable_of_iff (∃ i ∈ List.range t.lines.size, ∃ j ∈ List.range t.lines.size,
      (t.checkClose n i j).isOk = true) (by
    simp only [Contradicted, isOk_checkClose_iff_clash, List.mem_range]
    constructor
    · rintro ⟨i, -, j, -, h⟩
      exact ⟨i, j, h⟩
    · rintro ⟨i, j, h⟩
      exact ⟨i, h.lt_size.1, j, h.lt_size.2, h⟩)

def clashes (t : Tree) (n i : Nat) : Bool :=
  (List.range t.lines.size).any (fun j =>
    (t.checkClose n i j).isOk || (t.checkClose n j i).isOk)

/-- Both lines of a contradiction are such lines. -/
theorem Clash.clashes {i j : Nat} (h : t.Clash n i j) :
    t.clashes n i = true ∧ t.clashes n j = true := by
  have hok := isOk_checkClose_iff_clash.mpr h
  simp only [Tree.clashes, List.any_eq_true, List.mem_range, Bool.or_eq_true]
  exact ⟨⟨j, h.lt_size.2, Or.inl hok⟩, ⟨i, h.lt_size.1, Or.inr hok⟩⟩

/-- Whether one of the given nodes is closed and could be closed by a line, or by one that rests on
it. -/
def upholds (t : Tree) (nodes : List Nat) (i : Nat) : Bool :=
  (i :: t.dependents i).any (fun j =>
    nodes.any (fun n => (t.node n).closed && t.clashes n j))

/-- A line by which a closed node could be closed is neither a line that does not uphold the node
nor rests on one. -/
theorem not_mem_of_upholds {nodes : List Nat} {i j : Nat} (h : t.upholds nodes i = false)
    (hn : n ∈ nodes) (hclosed : (t.node n).closed = true) (hj : t.clashes n j = true) :
    j ≠ i ∧ j ∉ t.dependents i := by
  rw [upholds, List.any_eq_false] at h
  have hnot : j ∉ i :: t.dependents i := by
    intro hmem
    apply h j hmem
    rw [List.any_eq_true]
    exact ⟨n, hn, by rw [hclosed, hj]; rfl⟩
  rwa [List.mem_cons, not_or] at hnot

/-- A contradiction stays when its lines stay where they are and stay valid. -/
theorem Contradicted.transfer (h : t.Contradicted n) (hanc : u.ancestors n = t.ancestors n)
    (hline : ∀ i, t.lines.isLive i = true → (t.line i).valid = true → t.clashes n i = true →
      u.lines.isLive i = true ∧ (u.line i).valid = true ∧
        (u.line i).formula = (t.line i).formula ∧ (u.line i).node = (t.line i).node) :
    u.Contradicted n := by
  obtain ⟨i, j, hij⟩ := h
  obtain ⟨hi, hiabove⟩ := inAncestry_iff.mp hij.left_above
  obtain ⟨hj, hjabove⟩ := inAncestry_iff.mp hij.right_above
  obtain ⟨hilive, hivalid, hiformula, hinode⟩ := hline i hi hij.left_valid hij.clashes.1
  obtain ⟨hjlive, hjvalid, hjformula, hjnode⟩ := hline j hj hij.right_valid hij.clashes.2
  refine ⟨i, j, hivalid, hjvalid, ?_, ?_, ?_⟩
  · rw [inAncestry_iff, hinode, hanc]
    exact ⟨hilive, hiabove⟩
  · rw [inAncestry_iff, hjnode, hanc]
    exact ⟨hjlive, hjabove⟩
  · rw [hiformula, hjformula]
    exact hij.negation

namespace ClosedByContradiction

/-- A closed node keeps its contradiction where its lines and ancestors are preserved. -/
theorem preserves (h : t.ClosedByContradiction) (hr : Rooted t.nodes) (hp : Preserves t u)
    (hclosed : ∀ n, u.nodes.isLive n = true → (u.node n).closed = true →
      t.nodes.isLive n = true ∧ (t.node n).closed = true) : u.ClosedByContradiction := by
  intro n hn hc
  obtain ⟨hnt, hct⟩ := hclosed n hn hc
  apply (h n hnt hct).transfer (hp.ancestors hr hnt)
  intro i hi hvalid _
  obtain ⟨hlive, branches, marked, parentMarked, hline⟩ := hp.line i hi
  rw [hline]
  exact ⟨hlive, hvalid, rfl, rfl⟩

/-- A new line takes no contradiction away. -/
theorem insert (h : t.ClosedByContradiction) (hr : Rooted t.nodes) (k : Nat) (l : Line) (m : Nat)
    (g : List Nat → List Nat) : ClosedByContradiction
      (({ t with lines := t.lines.insert k l } : Tree).modifyNode m
        (fun nd => { nd with lines := g nd.lines })) := by
  refine h.preserves hr (Preserves.insert t k l m (fun _ => rfl)) ?_
  intro n hn hc
  refine ⟨(Register.isLive_modify _ _ _ _).symm.trans hn, ?_⟩
  rw [node_modifyNode] at hc
  split at hc <;> exact hc

/-- A node may be closed where it is contradicted, and reopened anywhere. -/
theorem setClosed (h : t.ClosedByContradiction) (hr : Rooted t.nodes) {m : Nat} {b : Bool}
    (hb : b = true → t.Contradicted m) : (t.setClosed m b).ClosedByContradiction := by
  have hp : Preserves t (t.setClosed m b) := Preserves.modifyNode t m (fun _ => rfl)
  have hcontradicted : ∀ n, t.nodes.isLive n = true → t.Contradicted n →
      (t.setClosed m b).Contradicted n := by
    intro n hn hc
    apply hc.transfer (hp.ancestors hr hn)
    exact fun i hi hvalid _ => ⟨hi, hvalid, rfl, rfl⟩
  intro n hn hc
  have hnt : t.nodes.isLive n = true := (Register.isLive_modify _ _ _ _).symm.trans hn
  rw [Tree.setClosed, node_modifyNode] at hc
  split at hc
  · rename_i hnm
    exact hcontradicted n hnt (hnm.1 ▸ hb hc)
  · exact hcontradicted n hnt (h n hnt hc)

theorem withFork (h : t.ClosedByContradiction) (hr : Rooted t.nodes) (m i : Nat) :
    (t.withFork m i).ClosedByContradiction := by
  apply h.preserves hr (Preserves.withFork t m i)
  intro n hn hc
  have hclosed : (t.node n).closed = true := by
    unfold node at hc
    rw [nodes_withFork, get_forked] at hc
    exact hc
  rw [nodes_withFork, isLive_forked] at hn
  refine ⟨hn.resolve_left fun hnew => ?_, hclosed⟩
  rw [show t.node n = {} from Register.get_of_size_le (by omega)] at hclosed
  simp at hclosed

/-- Making a line rest on a valid line takes no validity away, and making it rest on another one
only that of the line and of those that rest on it. -/
theorem relink (h : t.ClosedByContradiction) (ht : Coherent t) {p c : Nat}
    (hbefore : t.Before p c) (hs : t.support c ≠ .premise)
    (hharm : (t.line p).valid = true ∨ t.upholds t.nodes.order c = false) :
    (t.relink p c).ClosedByContradiction := by
  have hw := ht.linked.rewired_relink hbefore hs
  intro n hn hc
  rw [hw.relinked.nodes] at hn
  rw [hw.relinked.nodeEq] at hc
  have hanc : (t.relink p c).ancestors n = t.ancestors n :=
    ancestors_congr fun m _ => by rw [hw.relinked.nodeEq]
  apply (h n hn hc).transfer hanc
  intro i hlive hvalid hi
  refine ⟨(hw.relinked.isLive i).trans hlive, ?_, hw.relinked.formula i, hw.relinked.node i⟩
  apply ht.linked.valid_relink hbefore hs hlive hvalid
  refine hharm.imp_right fun hupholds => ?_
  exact not_mem_of_upholds hupholds ((ht.store.rooted.ordered.mem_iff n).mpr hn) hc hi

/-- Lines can be taken out that do not uphold a closed node which stays. -/
theorem shed (h : t.ClosedByContradiction) (ht : Coherent t) (hu : Coherent u) {gone : List Nat}
    (hshed : Shed t u gone) (nodes : List Nat)
    (hnode : ∀ n, u.nodes.isLive n = true → t.nodes.isLive n = true ∧ n ∈ nodes)
    (hclosed : ∀ n, (u.node n).closed = (t.node n).closed)
    (hstem : ∀ n, (u.node n).stem = (t.node n).stem)
    (hharm : ∀ g ∈ gone, t.upholds nodes g = false) : u.ClosedByContradiction := by
  intro n hn hc
  obtain ⟨hnt, hmem⟩ := hnode n hn
  rw [hclosed] at hc
  have hanc : u.ancestors n = t.ancestors n :=
    ancestors_congr fun m _ => by unfold Node.parent?; rw [hstem]
  apply (h n hnt hc).transfer hanc
  intro i hlive hvalid hi
  have hfree : ∀ g ∈ gone, i ≠ g ∧ i ∉ t.dependents g :=
    fun g hg => not_mem_of_upholds (hharm g hg) hmem hc hi
  have hiu : u.lines.isLive i = true :=
    (hshed.isLive i).mpr ⟨fun hg => (hfree i hg).1 rfl, hlive⟩
  refine ⟨hiu, ?_, hshed.formula i, hshed.node i⟩
  exact hshed.valid ht.linked hu.linked hiu hvalid (fun g hg _ => (hfree g hg).2)

/-- Deleting a line that upholds no closed node leaves every contradiction. -/
theorem withoutLine (h : t.ClosedByContradiction) (ht : Coherent t) {i : Nat}
    (hi : t.lines.isLive i = true) (hb : (t.line i).branches = [])
    (hharm : t.upholds t.nodes.order i = false) : (t.withoutLine i).ClosedByContradiction := by
  apply h.shed ht (ht.withoutLine hi hb) (Shed.withoutLine ht.linked hi) t.nodes.order
  · intro n hn
    rw [nodes_withoutLine, Register.isLive_modify] at hn
    exact ⟨hn, (ht.store.rooted.ordered.mem_iff n).mpr hn⟩
  · intro n
    obtain ⟨lines, hnode⟩ := node_withoutLine t i n
    rw [hnode]
  · intro n
    obtain ⟨lines, hnode⟩ := node_withoutLine t i n
    rw [hnode]
  · simpa using hharm

/-- Deleting a branch leaves the contradictions that its lines do not uphold. -/
theorem deleteBranch (h : t.ClosedByContradiction) (ht : Coherent t) {m l r : Nat}
    (hok : t.deleteBranch m = (u, .ok (l, r)))
    (hharm : ∀ n ∈ [l, r], ∀ g ∈ (t.node n).lines,
      t.upholds (t.nodes.order.filter (· ∉ [l, r])) g = false) : u.ClosedByContradiction := by
  apply h.shed ht (ht.of_deleteBranch hok) (Shed.deleteBranch ht hok)
    (t.nodes.order.filter (· ∉ [l, r]))
  · intro n hn
    obtain ⟨hpair, hlive⟩ := (ht.isLive_of_deleteBranch hok n).mp hn
    exact ⟨hlive, List.mem_filter.mpr
      ⟨(ht.store.rooted.ordered.mem_iff n).mpr hlive, decide_eq_true hpair⟩⟩
  · intro n
    obtain ⟨children, hnode, -⟩ := ht.node_of_deleteBranch hok n
    rw [hnode]
  · intro n
    obtain ⟨children, hnode, -⟩ := ht.node_of_deleteBranch hok n
    rw [hnode]
  · intro g hg
    rcases List.mem_append.mp hg with hg | hg
    · exact hharm l (by simp) g hg
    · exact hharm r (by simp) g hg

end ClosedByContradiction

end Tree

namespace Session

/-- Whether a command takes away a line by which a closed node could be closed, or a line that this
one rests on: whether it is deleted, goes with a pair of branches while the closed node stays, or is
made to rest on a line that is not valid. -/
def undermines (s : Session) : Command → Bool
  | .deleteLine number =>
    (s.tree.lines.withNumber? number).any (s.tree.upholds s.tree.nodes.order)
  | .justify child parent =>
    (s.tree.lines.withNumber? child).any (fun c =>
      (s.tree.lines.withNumber? parent).any (fun p =>
        !(s.tree.line p).valid && s.tree.upholds s.tree.nodes.order c))
  | .deleteBranch =>
    let pair := (s.tree.node s.current).children
    pair.any (fun m => (s.tree.node m).lines.any
      (s.tree.upholds (s.tree.nodes.order.filter (· ∉ pair))))
  | _ => false

/-- Commands that undermine nothing keep closed nodes contradicted. -/
theorem kept_closedByContradiction : Kept undermines Tree.ClosedByContradiction := by
  constructor
  case empty =>
    intro n _ hc
    exact absurd hc (by cases n <;> exact Bool.false_ne_true)
  case extend =>
    intro p r hp hr h
    refine h.preserves hp.tree.store.rooted (Tree.Preserves.extend hr) ?_
    intro n hn hc
    rw [hr.isLive_node] at hn
    exact ⟨hn, Tree.node_extend_of_isLive hn ▸ hc⟩
  case change =>
    intro s c u _ hs _ hchange hharm h
    have ht := hs.tree
    have hr := ht.store.rooted
    cases hchange with
    | addPremise φ => exact h.insert hr _ _ _ _
    | addLine φ =>
      rw [Tree.withNewLine_eq]
      exact h.insert hr _ _ _ (fun ids => ids ++ [s.tree.lines.size])
    | @deleteLine number i hi hlive hb =>
      apply h.withoutLine ht hlive hb
      simpa [undermines, hi] using hharm
    | @justify child parent c p hc hp hsupport hbefore =>
      apply h.relink ht hbefore hsupport
      simpa [undermines, hc, hp, or_iff_not_imp_left] using hharm
    | @checkmark number i hlive hi =>
      have hnodes := ((Tree.Relinked.refl s.tree).setCheckmarked i true).nodes
      refine h.preserves hr (Tree.Preserves.setCheckmarked ht.linked hlive true) ?_
      intro n hn hc
      rw [Tree.node, hnodes] at hc
      exact ⟨hnodes ▸ hn, hc⟩
    | branch hn hleaf hclosed hi => exact h.withFork hr _ _
    | @deleteBranch u l r hdelete =>
      obtain ⟨-, hchildren, -, -⟩ :=
        Tree.leafPair_ok_iff.mp (Tree.deleteBranch_ok_iff.mp hdelete).1
      apply h.deleteBranch ht hdelete
      rw [undermines, hchildren] at hharm
      intro n hn g hg
      have hlines := List.any_eq_false.mp hharm n hn
      exact Bool.eq_false_iff.mpr (List.any_eq_false.mp (Bool.eq_false_iff.mpr hlines) g hg)
    | goTo => exact h
    | @close first second i j hcheck =>
      refine h.setClosed hr fun _ => ⟨i, j, Tree.isOk_checkClose_iff_clash.mp ?_⟩
      rw [hcheck]
      rfl
    | reopen hn => exact h.setClosed hr (by simp)
    | markOpen =>
      refine h.preserves hr (Tree.Preserves.modifyNode s.tree s.current (fun _ => rfl)) ?_
      intro n hn hc
      refine ⟨(Register.isLive_modify _ _ _ _).symm.trans hn, ?_⟩
      rw [Tree.setOpen, Tree.node_modifyNode] at hc
      split at hc <;> exact hc

/-- As long as no command takes away a line by which a closed node could be closed, or what such a
line rests on, every closed node has two valid lines in its ancestry one of which says the negation
of the other one. -/
theorem contradicted_of_closed {config : Config} {cs : List Command}
    (hcs : (start config).avoids undermines cs = true) :
    ∀ n, ((start config).runAll cs).tree.nodes.isLive n = true →
      (((start config).runAll cs).tree.node n).closed = true →
      ((start config).runAll cs).tree.Contradicted n :=
  kept_closedByContradiction.holds hcs

/-- A line that closed a node comes to rest on another valid line, which is undone and made again,
and a premise in the ancestry of the node is deleted that has no part in the contradiction. -/
theorem contradicted_of_closed_rejustified :
    let cs : List Command := [.addPremise "and(a,b)", .addPremise "not(a)", .addPremise "and(a,c)",
      .addPremise "d", .addLine "a", .justify 5 1, .close 5 2, .justify 5 3, .undo, .redo,
      .deleteLine 4]
    let s := (start {}).runAll cs
    (start {}).avoids undermines cs = true ∧ (s.tree.node Tree.root).closed = true ∧
      s.tree.Contradicted Tree.root := by
  intro cs s
  have hcs : (start {}).avoids undermines cs = true := by decide +kernel
  have hclosed : (s.tree.node Tree.root).closed = true := by decide +kernel
  exact ⟨hcs, hclosed, contradicted_of_closed hcs Tree.root (by decide +kernel) hclosed⟩

/-- After some commands of a new session a live node is closed, and yet no two valid lines in its
ancestry contradict each other. -/
def ClosesWithoutContradiction (cs : List Command) : Prop :=
  let t := ((start {}).runAll cs).tree
  ∃ n, t.nodes.isLive n = true ∧ (t.node n).closed = true ∧ ¬ t.Contradicted n

/-- Commands that take support away leave closed nodes without a contradiction. In the first of
these sessions a line is deleted that closed a node; in the second one it is made to rest on a line
that is not valid; in the third one the line that it rested on goes with its branch. -/
theorem closesWithoutContradiction_undermined :
    ClosesWithoutContradiction [.addPremise "a", .addPremise "not(a)", .close 1 2,
      .deleteLine 2] ∧
    ClosesWithoutContradiction [.addPremise "and(a,b)", .addPremise "not(a)", .addLine "and(a,c)",
      .addLine "a", .justify 4 1, .close 4 2, .justify 4 3] ∧
    ClosesWithoutContradiction [.addPremise "or(a,b)", .addPremise "not(a)", .branch 1, .goTo 2,
      .addLine "a", .justify 3 1, .goTo 1, .addLine "a", .justify 4 3, .close 4 2,
      .deleteBranch] := by
  refine ⟨⟨Tree.root, ?_⟩, ⟨Tree.root, ?_⟩, ⟨Tree.root, ?_⟩⟩
  all_goals decide +kernel

end Session

end TruthTrees
