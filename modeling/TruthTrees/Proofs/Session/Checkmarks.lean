import TruthTrees.Proofs.Session.Invariants
import TruthTrees.Proofs.Tree.Decomposed

/-! What a checkmark promises. A line is checkmarked when it was taken apart on all branches below
it, and a checkmark is taken back when a line goes that it was earned by. Three kinds of commands
change what was found below a line without a look at its checkmark. As long as no checkmark relies
on what they change, every checkmark could be given again. -/
namespace TruthTrees

namespace Tree

variable {t u : Tree} {i n : Nat}

/-- Every checkmarked line passes the check that it was checkmarked by. -/
def CheckmarksEarned (t : Tree) : Prop :=
  ∀ i, t.lines.isLive i = true → (t.line i).checkmarked = true → t.isDecomposed i = true

def reopened (t : Tree) (nodes : List Nat) : Tree :=
  nodes.foldl (fun t n => t.setClosed n false) t

/-- Whether a line is checkmarked and would not be decomposed if some nodes were not closed. -/
def relies (t : Tree) (nodes : List Nat) (i : Nat) : Bool :=
  (t.line i).checkmarked && !(t.reopened nodes).isDecomposed i

/-- Being closed is all that changes about a node, and it changes about no other node. -/
theorem node_setClosed (t : Tree) (n m : Nat) (b : Bool) : ∃ closed,
    (t.setClosed n b).node m = { t.node m with closed := closed } ∧
      (m ≠ n → closed = (t.node m).closed) ∧ (m = n → m < t.nodes.size → closed = b) := by
  rw [setClosed, node_modifyNode]
  split
  · rename_i hm
    exact ⟨b, rfl, fun hc => absurd hm.1 hc, fun _ _ => rfl⟩
  · rename_i hm
    exact ⟨_, rfl, fun _ => rfl, fun hc hlt => absurd ⟨hc, hlt⟩ hm⟩

/-- All checkmarks are earned when those are that were there before or were just given, and what
they were earned by is carried over. -/
theorem checkmarksEarned_of_carries (ht : Coherent t) (hf : Forked t.nodes) (hu : Coherent u)
    (hfu : Forked u.nodes)
    (hmark : ∀ i, u.lines.isLive i = true → (u.line i).checkmarked = true →
      t.lines.isLive i = true ∧ t.isDecomposed i = true ∧ Carries t u i) :
    u.CheckmarksEarned := by
  intro i hi hchecked
  obtain ⟨hit, hdecomposed, hcarries⟩ := hmark i hi hchecked
  have hhome := ht.store.holding.home i hit
  have hhome' : u.nodes.isLive (t.line i).node = true :=
    hcarries.home ▸ hu.store.holding.home i hi
  exact hcarries.isDecomposed ht.store.rooted hf hu.store.rooted hfu hhome hhome' hdecomposed

/-- What preserves lines and nodes carries over the decomposition of a line. -/
theorem Preserves.carries (hp : Preserves t u) (ht : Listed t) (hi : t.lines.isLive i = true)
    (hclosed : ∀ n, t.nodes.isLive n = true → (t.node n).closed = true → (u.node n).closed = true)
    (hstands : ∀ n, t.nodes.isLive n = true → Stands t u i n) : Carries t u i := by
  have hline : ∀ j, t.lines.isLive j = true → (u.line j).formula = (t.line j).formula ∧
      (u.line j).node = (t.line j).node ∧ (u.line j).children = (t.line j).children := by
    intro j hj
    obtain ⟨-, branches, marked, parentMarked, heq⟩ := hp.line j hj
    rw [heq]
    exact ⟨rfl, rfl, rfl⟩
  obtain ⟨hformula, hhome, hchildren⟩ := hline i hi
  refine ⟨hformula, hhome, hchildren, ?_, fun n hn _ => hclosed n hn,
    fun n hn _ => (hp.node n hn).2, fun n hn _ => hstands n hn⟩
  intro c hc
  obtain ⟨hcformula, hchome, -⟩ := hline c ((ht.mem_children_iff hi).mp hc).1
  exact ⟨hcformula, hchome⟩

/-- A line lists the same lines after another one was moved from one parent to another, unless it is
one of these parents. -/
theorem Linked.children_relink (h : Linked t) {p c : Nat} (hbefore : t.Before p c)
    (hs : t.support c ≠ .premise) (hi : t.lines.isLive i = true)
    (hsame : p = i ↔ t.support c = .line i) :
    ((t.relink p c).line i).children = (t.line i).children := by
  have hw := h.rewired_relink hbefore hs
  rw [hw.linked.children i ((hw.relinked.isLive i).trans hi), h.children i hi, hw.relinked.order]
  apply List.filter_congr
  intro j _
  rw [hw.support, Bool.eq_iff_iff, beq_iff_eq, beq_iff_eq]
  by_cases hj : j = c
  · rw [if_pos hj, hj, ← hsame, Justification.line.injEq]
  · rw [if_neg hj]

/-- A line that keeps its checkmark when two branches are deleted has nothing in them. -/
theorem Coherent.node_not_mem_of_deleteBranch (h : Coherent t) {m l r : Nat}
    (hok : t.deleteBranch m = (u, .ok (l, r))) (hi : u.lines.isLive i = true)
    (hmark : (u.line i).checkmarked = true) :
    ∀ c ∈ (t.line i).children, (t.line c).node ∉ [l, r] := by
  have hshed := Shed.deleteBranch h hok
  obtain ⟨-, hchildren, -, -⟩ := leafPair_ok_iff.mp (deleteBranch_ok_iff.mp hok).1
  have hpair := h.store.rooted.pair hchildren
  intro c hc hmem
  obtain ⟨hclive, hsupport⟩ := (h.linked.mem_children_iff ((hshed.isLive i).mp hi).2).mp hc
  refine ((hshed.checkmarked i hi).mp hmark).2 c ?_ hsupport
  have hlines := fun n hn => h.store.holding.mem_lines_iff (n := n) (i := c) hn
  rcases List.mem_pair.mp hmem with hl | hr
  · exact List.mem_append_left _ ((hlines l hpair.left_live).mpr ⟨hclive, hl⟩)
  · exact List.mem_append_right _ ((hlines r hpair.right_live).mpr ⟨hclive, hr⟩)

theorem childFormulas_eq_nil {nodes : List Nat}
    (h : ∀ c ∈ (t.line i).children, (t.line c).node ∉ nodes) : t.childFormulas i nodes = [] := by
  unfold childFormulas
  rw [List.map_eq_nil_iff, List.filter_eq_nil_iff]
  intro c hc
  rw [List.contains_iff_mem]
  exact h c hc

/-- Seen without the marks by which two branches are closed, such a line is carried over when they
are deleted. -/
theorem Coherent.carries_of_deleteBranch (h : Coherent t) {m l r : Nat}
    (hok : t.deleteBranch m = (u, .ok (l, r))) (hi : u.lines.isLive i = true)
    (hmark : (u.line i).checkmarked = true) : Carries (t.reopened [l, r]) u i := by
  have hshed := Shed.deleteBranch h hok
  have hnone := h.node_not_mem_of_deleteBranch hok hi hmark
  obtain ⟨hm, hchildren, hleaf, -⟩ := leafPair_ok_iff.mp (deleteBranch_ok_iff.mp hok).1
  have hpair := h.store.rooted.pair hchildren
  have hnode : ∀ n, ∃ closed, (t.reopened [l, r]).node n = { t.node n with closed := closed } ∧
      (n ∉ [l, r] → closed = (t.node n).closed) ∧ (n = l → closed = false) := by
    intro n
    obtain ⟨c, hc, hother, hself⟩ := node_setClosed t l n false
    obtain ⟨c', hc', hother', hself'⟩ := node_setClosed (t.setClosed l false) r n false
    rw [hc] at hc' hother'
    refine ⟨c', hc', ?_, ?_⟩
    · intro hn
      rw [List.mem_pair, not_or] at hn
      exact (hother' hn.2).trans (hother hn.1)
    · rintro rfl
      rw [hother' hpair.ne]
      exact hself rfl (Register.lt_size_of_isLive hpair.left_live)
  have hlive : ∀ n, u.nodes.isLive n = true → n ∉ [l, r] :=
    fun n hn => ((h.isLive_of_deleteBranch hok n).mp hn).1
  refine ⟨hshed.formula i, hshed.node i,
    hshed.children_of_checkmarked h.linked.toListed (h.of_deleteBranch hok).linked.toListed hi
      hmark,
    fun c _ => ⟨hshed.formula c, hshed.node c⟩, ?_, ?_, ?_⟩
  · intro n _ hn hclosed
    obtain ⟨c, hc, hother, -⟩ := hnode n
    obtain ⟨children, hu, -⟩ := h.node_of_deleteBranch hok n
    rw [hc] at hclosed
    rw [hu]
    exact (hother (hlive n hn)).symm.trans hclosed
  · intro n _ _
    obtain ⟨c, hc, -⟩ := hnode n
    obtain ⟨children, hu, -⟩ := h.node_of_deleteBranch hok n
    rw [hc, hu]
  · intro n _ _
    by_cases hnm : n = m
    · subst hnm
      obtain ⟨c, hc, -⟩ := hnode n
      obtain ⟨cl, hcl, -, hopen⟩ := hnode l
      refine .pruned (l := l) (r := r) ?_ ?_ ?_ ?_ (h.store.rooted.leaf_of_deleteBranch hok).2
      · rw [hc]
        exact hchildren
      · rw [hcl]
        exact hleaf
      · rw [hcl]
        exact hopen rfl
      · apply childFormulas_eq_nil
        intro d hd hdl
        exact hnone d hd (List.mem_pair.mpr (Or.inl (List.mem_singleton.mp hdl)))
    · obtain ⟨c, hc, -⟩ := hnode n
      obtain ⟨children, hu, hsame⟩ := h.node_of_deleteBranch hok n
      refine .same ?_
      rw [hu, hc]
      exact hsame hnm

section Earned

variable (ht : Coherent t) (hf : Forked t.nodes) (hu : Coherent u) (hfu : Forked u.nodes)
include ht hf hu hfu

/-- Where all that lives stays, nodes may be closed, and leaves may grow that are not closed. -/
theorem checkmarksEarned_of_preserves (hp : Preserves t u)
    (hmark : ∀ i, u.lines.isLive i = true → (u.line i).checkmarked = true →
      t.lines.isLive i = true ∧ t.isDecomposed i = true)
    (hnode : ∀ n, t.nodes.isLive n = true →
      ((t.node n).closed = true → (u.node n).closed = true) ∧
      ((u.node n).children = (t.node n).children ∨
        (t.node n).children = [] ∧ (t.node n).closed = false)) : u.CheckmarksEarned := by
  apply checkmarksEarned_of_carries ht hf hu hfu
  intro i hi hchecked
  obtain ⟨hit, hdecomposed⟩ := hmark i hi hchecked
  refine ⟨hit, hdecomposed, hp.carries ht.linked.toListed hit (fun n hn => (hnode n hn).1) ?_⟩
  intro n hn
  rcases (hnode n hn).2 with hsame | ⟨hleaf, hopen⟩
  · exact .same hsame
  · exact .grown hleaf hopen

end Earned

namespace CheckmarksEarned

variable (h : t.CheckmarksEarned) (ht : Coherent t) (hf : Forked t.nodes)
include h ht hf

/-- A new line has no checkmark yet. -/
theorem insert {k m : Nat} {l : Line} {g : List Nat → List Nat} (hl : l.checkmarked = false)
    (hu : Coherent (({ t with lines := t.lines.insert k l } : Tree).modifyNode m
      (fun nd => { nd with lines := g nd.lines })))
    (hfu : Forked (({ t with lines := t.lines.insert k l } : Tree).modifyNode m
      (fun nd => { nd with lines := g nd.lines })).nodes) :
    CheckmarksEarned (({ t with lines := t.lines.insert k l } : Tree).modifyNode m
      (fun nd => { nd with lines := g nd.lines })) := by
  refine checkmarksEarned_of_preserves ht hf hu hfu (Preserves.insert t k l m (fun _ => rfl)) ?_ ?_
  · intro i hi hchecked
    rw [line_modifyNode, line_insert] at hchecked
    by_cases hnew : i = t.lines.size
    · rw [if_pos hnew, hl] at hchecked
      simp at hchecked
    · rw [if_neg hnew] at hchecked
      have hit := ((Register.isLive_insert _ _ _ _).mp hi).resolve_left hnew
      exact ⟨hit, h i hit hchecked⟩
  · intro n _
    rw [node_modifyNode]
    split
    · exact ⟨id, Or.inl rfl⟩
    · exact ⟨id, Or.inl rfl⟩

/-- Marks of nodes may change, except that closed nodes stay closed. -/
theorem modifyNode {m : Nat} {f : Node → Node}
    (hmarks : ∀ nd, (f nd).stem = nd.stem ∧ (f nd).children = nd.children ∧
      (nd.closed = true → (f nd).closed = true))
    (hu : Coherent (t.modifyNode m f)) (hfu : Forked (t.modifyNode m f).nodes) :
    (t.modifyNode m f).CheckmarksEarned := by
  refine checkmarksEarned_of_preserves ht hf hu hfu
    (Preserves.modifyNode t m (fun nd => (hmarks nd).1)) (fun i hi hc => ⟨hi, h i hi hc⟩) ?_
  intro n _
  rw [node_modifyNode]
  split
  · exact ⟨(hmarks _).2.2, Or.inl (hmarks _).2.1⟩
  · exact ⟨id, Or.inl rfl⟩

/-- A checkmark on a decomposed line is earned, and the others stay so. -/
theorem setCheckmarked (hi : t.lines.isLive i = true) (hdecomposed : t.isDecomposed i = true)
    (hu : Coherent (t.setCheckmarked i true)) (hfu : Forked (t.setCheckmarked i true).nodes) :
    (t.setCheckmarked i true).CheckmarksEarned := by
  have hr := (Relinked.refl t).setCheckmarked i true
  refine checkmarksEarned_of_preserves ht hf hu hfu (Preserves.setCheckmarked ht.linked hi true)
    ?_ ?_
  · intro j hj hchecked
    rw [hr.isLive] at hj
    rw [line_setCheckmarked (Register.lt_size_of_isLive hi)
      (fun k hk => ht.linked.lt_size_of_mem_children hi hk)] at hchecked
    by_cases hji : j = i
    · exact ⟨hj, hji ▸ hdecomposed⟩
    · exact ⟨hj, h j hj (by simpa [hji] using hchecked)⟩
  · intro n _
    rw [hr.nodeEq]
    exact ⟨id, Or.inl rfl⟩

/-- Only a leaf grows, and not when it is closed. -/
theorem withFork {m : Nat} (hleaf : (t.node m).children = []) (hopen : (t.node m).closed = false)
    (hu : Coherent (t.withFork m i)) (hfu : Forked (t.withFork m i).nodes) :
    (t.withFork m i).CheckmarksEarned := by
  refine checkmarksEarned_of_preserves ht hf hu hfu (Preserves.withFork t m i) ?_ ?_
  · intro j hj hchecked
    have hjt : t.lines.isLive j = true := (Register.isLive_modify _ _ _ _).symm.trans hj
    rw [line_withFork] at hchecked
    exact ⟨hjt, h j hjt hchecked⟩
  · intro n _
    have hnode : (t.withFork m i).node n = (forked t.nodes m i).get n := rfl
    rw [hnode, get_forked]
    refine ⟨id, ?_⟩
    by_cases hnm : n = m
    · exact Or.inr (hnm ▸ ⟨hleaf, hopen⟩)
    · left
      dsimp only
      rw [if_neg (fun hc => hnm hc.1)]
      rfl

/-- The checkmarks that a deletion leaves are still earned. -/
theorem withoutLine (hi : t.lines.isLive i = true) (hu : Coherent (t.withoutLine i))
    (hfu : Forked (t.withoutLine i).nodes) : (t.withoutLine i).CheckmarksEarned := by
  have hshed := Shed.withoutLine ht.linked hi
  apply checkmarksEarned_of_carries ht hf hu hfu
  intro j hj hchecked
  have hjt := ((hshed.isLive j).mp hj).2
  refine ⟨hjt, h j hjt ((hshed.checkmarked j hj).mp hchecked).1, hshed.formula j, hshed.node j,
    hshed.children_of_checkmarked ht.linked.toListed hu.linked.toListed hj hchecked,
    fun c _ => ⟨hshed.formula c, hshed.node c⟩, ?_, ?_, ?_⟩
  all_goals
    intro n _ _
    obtain ⟨lines, hnode⟩ := node_withoutLine t i n
  · rw [hnode]
    exact id
  · rw [hnode]
  · exact .same (by rw [hnode])

/-- A line may be moved if neither the line that it rested on nor the one that it rests on then is
checkmarked. -/
theorem relink {p c : Nat} (hbefore : t.Before p c) (hs : t.support c ≠ .premise)
    (hharm : t.support c ≠ .line p →
      (t.line p).checkmarked = false ∧ (t.line c).parentCheckmarked = false)
    (hu : Coherent (t.relink p c)) (hfu : Forked (t.relink p c).nodes) :
    (t.relink p c).CheckmarksEarned := by
  have hw := ht.linked.rewired_relink hbefore hs
  have hc := hbefore.right_live ht.linked.ordered
  apply checkmarksEarned_of_carries ht hf hu hfu
  intro i hi hchecked
  rw [hw.relinked.isLive] at hi
  rw [hw.checkmarked] at hchecked
  have hsame : p = i ↔ t.support c = .line i := by
    by_cases hp : t.support c = .line p
    · rw [hp, Justification.line.injEq]
    · obtain ⟨hpfree, hcfree⟩ := hharm hp
      constructor
      · rintro rfl
        rw [hpfree] at hchecked
        simp at hchecked
      · intro hi'
        rw [← ht.linked.mirrored _ _ hc hi', hcfree] at hchecked
        simp at hchecked
  refine ⟨hi, h i hi hchecked, hw.relinked.formula i, hw.relinked.node i,
    ht.linked.children_relink hbefore hs hi hsame,
    fun d _ => ⟨hw.relinked.formula d, hw.relinked.node d⟩, ?_, ?_, ?_⟩
  all_goals
    intro n _ _
    have hnode := hw.relinked.nodeEq n
  · rw [hnode]
    exact id
  · rw [hnode]
  · exact .same (by rw [hnode])

end CheckmarksEarned

end Tree

namespace Session

/-- Whether a command changes something that a checkmark relies on: whether it moves a line to or
away from a checkmarked line, reopens a node that a checkmarked line relies on, or deletes two
branches that a checkmarked line relies on which has nothing in them. -/
def loosens (s : Session) : Command → Bool
  | .justify child parent =>
    (s.tree.lines.withNumber? child).any (fun c =>
      (s.tree.lines.withNumber? parent).any (fun p => s.tree.support c != .line p &&
        ((s.tree.line p).checkmarked || (s.tree.line c).parentCheckmarked)))
  | .reopen number =>
    (s.tree.nodes.withNumber? number).any (fun n => s.tree.lines.order.any (s.tree.relies [n]))
  | .deleteBranch =>
    let pair := (s.tree.node s.current).children
    s.tree.lines.order.any (fun i => !pair.contains (s.tree.line i).node &&
      (s.tree.childFormulas i pair).isEmpty && s.tree.relies pair i)
  | _ => false

theorem coherent_reopened {sheet : Sheet} (h : sheet.Coherent) (nodes : List Nat) :
    Sheet.Coherent { sheet with tree := sheet.tree.reopened nodes } := by
  induction nodes generalizing sheet with
  | nil => exact h
  | cons n nodes ih =>
    have hn : Sheet.Coherent { sheet with tree := sheet.tree.setClosed n false } :=
      coherent_modifyNode_marks h n (fun _ => ⟨rfl, rfl, rfl⟩)
    exact ih hn

/-- Commands that loosen nothing keep all checkmarks earned. -/
theorem kept_checkmarksEarned : Kept loosens Tree.CheckmarksEarned := by
  constructor
  case empty =>
    intro i hi
    exact absurd hi (by simp [Tree.empty, Register.empty, Register.isLive])
  case extend =>
    intro p r hp hr h
    have hp' := hp.extend hr
    refine Tree.checkmarksEarned_of_preserves hp.tree hp.forked hp'.tree hp'.forked
      (Tree.Preserves.extend hr) ?_ ?_
    · intro i hi hchecked
      rw [hr.isLive_line] at hi
      rw [Tree.line_extend_of_isLive hi] at hchecked
      exact ⟨hi, h i hi hchecked⟩
    · intro n hn
      rw [Tree.node_extend_of_isLive hn]
      exact ⟨id, Or.inl rfl⟩
  case change =>
    intro s c u n hs hu hchange hharm h
    have ht : s.tree.Coherent := hs.tree
    have hf : Tree.Forked s.tree.nodes := hs.forked
    have hordered := ht.linked.ordered
    cases hchange with
    | addPremise φ => exact h.insert ht hf rfl hu.tree hu.forked
    | addLine φ =>
      rw [Tree.withNewLine_eq] at hu ⊢
      exact h.insert (g := fun ids => ids ++ [s.tree.lines.size]) ht hf rfl hu.tree hu.forked
    | deleteLine _ hlive _ => exact h.withoutLine ht hf hlive hu.tree hu.forked
    | @justify child parent c p hc hp hsupport hbefore =>
      apply h.relink ht hf hbefore hsupport _ hu.tree hu.forked
      intro hne
      simpa [loosens, hc, hp, hne] using hharm
    | checkmark hlive hi => exact h.setCheckmarked ht hf hlive hi hu.tree hu.forked
    | branch _ hleaf hopen _ => exact h.withFork ht hf hleaf hopen hu.tree hu.forked
    | @deleteBranch u l r hdelete =>
      -- The branches are reopened first and then deleted. A line that keeps its checkmark does not
      -- rely on their being closed, and has nothing in them.
      have hs' := coherent_reopened hs [l, r]
      have hshed := Tree.Shed.deleteBranch ht hdelete
      obtain ⟨-, hchildren, -, -⟩ :=
        Tree.leafPair_ok_iff.mp (Tree.deleteBranch_ok_iff.mp hdelete).1
      apply Tree.checkmarksEarned_of_carries hs'.tree hs'.forked hu.tree hu.forked
      intro i hi hchecked
      have hit := ((hshed.isLive i).mp hi).2
      have hmark := ((hshed.checkmarked i hi).mp hchecked).1
      have hnone := ht.node_not_mem_of_deleteBranch hdelete hi hchecked
      have hhome : (s.tree.line i).node ∉ [l, r] := by
        have hlive := hu.tree.store.holding.home i hi
        rw [hshed.node] at hlive
        exact ((ht.isLive_of_deleteBranch hdelete _).mp hlive).1
      refine ⟨hit, ?_, ht.carries_of_deleteBranch hdelete hi hchecked⟩
      rw [loosens, show (s.tree.node s.current).children = [l, r] from hchildren] at hharm
      have hfree := List.any_eq_false.mp hharm i ((hordered.mem_iff i).mpr hit)
      rw [Tree.childFormulas_eq_nil hnone, Tree.relies, hmark] at hfree
      show (s.tree.reopened [l, r]).isDecomposed i = true
      simpa [hhome] using hfree
    | goTo => exact h
    | close =>
      exact h.modifyNode ht hf (fun _ => ⟨rfl, rfl, fun _ => rfl⟩) hu.tree hu.forked
    | @reopen number n hn =>
      intro i hi hchecked
      rw [loosens, hn] at hharm
      have hfree := List.any_eq_false.mp hharm i ((hordered.mem_iff i).mpr hi)
      rw [Tree.relies, show (s.tree.line i).checkmarked = true from hchecked] at hfree
      simpa [Tree.reopened] using hfree
    | markOpen => exact h.modifyNode ht hf (fun _ => ⟨rfl, rfl, id⟩) hu.tree hu.forked

/-- As long as no command changes something that a checkmark relies on, every checkmarked line is
decomposed on all branches below it. -/
theorem isDecomposed_of_checkmarked {config : Config} {cs : List Command}
    (hcs : (start config).avoids loosens cs = true) :
    ∀ i, ((start config).runAll cs).tree.lines.isLive i = true →
      (((start config).runAll cs).tree.line i).checkmarked = true →
      ((start config).runAll cs).tree.isDecomposed i = true :=
  kept_checkmarksEarned.holds hcs

/-- A conjunction and a disjunction are checkmarked, the second one on two branches. One of these is
closed and reopened, and both are deleted and brought back. -/
theorem isDecomposed_of_checkmarked_restored :
    let cs : List Command := [.addPremise "or(a,b)", .addPremise "and(c,not(a))", .addLine "c",
      .justify 3 2, .addLine "not(a)", .justify 4 2, .checkmark 2, .branch 1, .goTo 2,
      .addLine "a", .justify 5 1, .goTo 3, .addLine "b", .justify 6 1, .checkmark 1, .goTo 2,
      .close 5 4, .reopen 2, .goTo 1, .deleteBranch, .undo]
    let s := (start {}).runAll cs
    (start {}).avoids loosens cs = true ∧ (s.tree.line 0).checkmarked = true ∧
      (s.tree.line 1).checkmarked = true ∧ s.tree.isDecomposed 0 = true ∧
      s.tree.isDecomposed 1 = true := by
  intro cs s
  have hcs : (start {}).avoids loosens cs = true := by decide +kernel
  have hor : (s.tree.line 0).checkmarked = true := by decide +kernel
  have hand : (s.tree.line 1).checkmarked = true := by decide +kernel
  exact ⟨hcs, hor, hand, isDecomposed_of_checkmarked hcs 0 (by decide +kernel) hor,
    isDecomposed_of_checkmarked hcs 1 (by decide +kernel) hand⟩

/-- After some commands of a new session a line is checkmarked that would not be checkmarked now. -/
def ChecksUndecomposed (cs : List Command) : Prop :=
  let t := ((start {}).runAll cs).tree
  ∃ i, t.lines.isLive i = true ∧ (t.line i).checkmarked = true ∧ t.isDecomposed i = false

/-- Commands that change what a checkmark relies on leave the checkmark where it is. In the first
two of these sessions a line is moved away from a checkmarked line, and to one; in the third one a
node is reopened that was all there was below the line; in the last one two closed branches are
deleted on which nothing had to be found. -/
theorem checksUndecomposed_loosened :
    ChecksUndecomposed [.addPremise "and(a,b)", .addPremise "and(a,c)", .addLine "a",
      .justify 3 1, .addLine "b", .justify 4 1, .checkmark 1, .justify 3 2] ∧
    ChecksUndecomposed [.addPremise "or(a,b)", .branch 1, .goTo 2, .addLine "a", .justify 2 1,
      .goTo 3, .addLine "b", .justify 3 1, .checkmark 1, .addLine "a", .justify 4 1] ∧
    ChecksUndecomposed [.addPremise "and(b,c)", .addPremise "a", .addPremise "not(a)", .close 2 3,
      .checkmark 1, .reopen 1] ∧
    ChecksUndecomposed [.addPremise "and(b,c)", .addPremise "or(a,a)", .addPremise "not(a)",
      .branch 2, .goTo 2, .addLine "a", .justify 4 2, .close 4 3, .goTo 3, .addLine "a",
      .justify 5 2, .close 5 3, .checkmark 1, .goTo 1, .deleteBranch] := by
  refine ⟨⟨0, ?_⟩, ⟨0, ?_⟩, ⟨0, ?_⟩, ⟨0, ?_⟩⟩
  all_goals decide +kernel

end Session

end TruthTrees
