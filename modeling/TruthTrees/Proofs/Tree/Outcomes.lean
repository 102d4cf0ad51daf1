import TruthTrees.Proofs.Tree.Access
import TruthTrees.Tree.Rules

/-! When an operation on a tree is carried out, and what it then gives. Each operation is described
once, so that nothing else has to look into its checks. -/
namespace TruthTrees.Tree

variable {t t' : Tree}

abbrev newLine (n : Nat) (φ : Formula) : Line :=
  { formula := φ, node := n, justification := .missing }

def withNewLine (t : Tree) (n : Nat) (φ : Formula) : Tree :=
  ({ t with lines := t.lines.push (newLine n φ) } : Tree).modifyNode n
    (fun nd => { nd with lines := nd.lines ++ [t.lines.size] })

theorem withNewLine_eq (t : Tree) (n : Nat) (φ : Formula) : t.withNewLine n φ =
    ({ t with lines := t.lines.insert t.lines.order.length (newLine n φ) } : Tree).modifyNode n
      (fun nd => { nd with lines := nd.lines ++ [t.lines.size] }) := by
  rw [withNewLine, Register.push_eq_insert]

/-- A line is added when its node is in the tree. -/
theorem addLine_ok_iff {n i : Nat} {φ : Formula} :
    t.addLine n φ = .ok (i, t') ↔
      t.nodes.isLive n = true ∧ i = t.lines.size ∧ t' = t.withNewLine n φ := by
  simp only [addLine, Except.bind_ok_iff, liveNode_ok_iff, Except.pure_ok_iff, Prod.mk.injEq]
  constructor
  · rintro ⟨nd, ⟨hn, -⟩, rfl, rfl⟩
    exact ⟨hn, rfl, rfl⟩
  · rintro ⟨hn, rfl, rfl⟩
    exact ⟨_, ⟨hn, rfl⟩, rfl, rfl⟩

def withoutLine (t : Tree) (i : Nat) : Tree :=
  (t.modifyNode (t.line i).node
    (fun n => { n with lines := n.lines.filter (· ≠ i) })).detach i

theorem nodes_withoutLine (t : Tree) (i : Nat) : (t.withoutLine i).nodes =
    t.nodes.modify (t.line i).node (fun n => { n with lines := n.lines.filter (· ≠ i) }) :=
  (SamePlaces.detach _ i).nodes

theorem order_withoutLine (h : t.lines.Ordered) {i : Nat} (hi : t.lines.isLive i = true) :
    (t.withoutLine i).lines.order = t.lines.order.erase i :=
  order_detach (t := t.modifyNode _ _) h hi

theorem size_withoutLine (t : Tree) (i : Nat) : (t.withoutLine i).lines.size = t.lines.size :=
  (SamePlaces.detach _ i).size

theorem branches_withoutLine (t : Tree) (i j : Nat) :
    ((t.withoutLine i).line j).branches = (t.line j).branches := (SamePlaces.detach _ i).branches j

theorem leftFrom_withoutLine (h : t.lines.Ordered) {i : Nat} (hi : t.lines.isLive i = true)
    (j : Nat) : (t.withoutLine i).lines.leftFrom j =
      if j = i then some (t.lines.order.idxOf i + 1) else t.lines.leftFrom j :=
  leftFrom_detach (t := t.modifyNode _ _) h hi j

/-- A line is deleted when it is in the tree and no branch rests on it. -/
theorem deleteLine_ok_iff {i : Nat} :
    t.deleteLine i = .ok t' ↔
      t.lines.isLive i = true ∧ (t.line i).branches = [] ∧ t' = t.withoutLine i := by
  simp only [deleteLine, Except.bind_ok_iff, liveLine_ok_iff]
  constructor
  · rintro ⟨l, ⟨hi, rfl⟩, h⟩
    split at h
    · simp at h
    · rename_i hb
      exact ⟨hi, by simpa using hb, (Except.pure_ok_iff.mp h).symm⟩
  · rintro ⟨hi, hb, rfl⟩
    exact ⟨_, ⟨hi, rfl⟩, by simp [hb, withoutLine, pure, Except.pure]⟩

def withLine (t : Tree) (i : Nat) : Tree :=
  ((t.redisplay i).modifyNode (t.line i).node
    (fun n => { n with lines := (t.redisplay i).lines.place i n.lines })).reattach i

/-- A line is restored when it has left the tree and its node is there. -/
theorem restoreLine_ok_iff {i : Nat} :
    t.restoreLine i = .ok t' ↔ i < t.lines.size ∧ t.lines.isLive i ≠ true ∧
      t.nodes.isLive (t.line i).node = true ∧ t' = t.withLine i := by
  by_cases hi : i < t.lines.size
  · have hget : t.lines.get? i = some (t.line i) := Register.get?_eq_some_get hi
    simp only [restoreLine, hget]
    split
    · rename_i hlive
      simp [hlive]
    · rename_i hlive
      simp only [Except.bind_ok_iff, liveNode_ok_iff]
      constructor
      · rintro ⟨nd, ⟨hn, -⟩, h⟩
        exact ⟨hi, hlive, hn, (Except.pure_ok_iff.mp h).symm⟩
      · rintro ⟨-, -, hn, rfl⟩
        exact ⟨_, ⟨hn, rfl⟩, rfl⟩
  · simp only [restoreLine, Register.get?_eq_none (Nat.le_of_not_lt hi), reduceCtorEq, false_iff]
    exact fun h => hi h.1

theorem liveLine_of_not_isLive {i : Nat} (h : t.lines.isLive i ≠ true) :
    ∃ e, t.liveLine i = .error e := by
  cases hl : t.liveLine i with
  | error e => exact ⟨e, rfl⟩
  | ok l => exact absurd (liveLine_ok_iff.mp hl).1 h

theorem tryUnlink_of_isLive {c : Nat} (hc : t.lines.isLive c = true) :
    t.tryUnlink c = (t.sever c, .ok ()) := by
  rw [tryUnlink, liveLine_of_isLive hc]

theorem tryUnlink_of_not_isLive {c : Nat} (hc : t.lines.isLive c ≠ true) :
    ∃ e, t.tryUnlink c = (t, .error e) := by
  obtain ⟨e, he⟩ := liveLine_of_not_isLive hc
  exact ⟨e, by rw [tryUnlink, he]⟩

/-- The tree in which a line that rests on nothing is made to rest on another one, before the
validity of the line is looked at. -/
def hook (t : Tree) (p c : Nat) : Tree :=
  (t.placeChild p c).modifyLine c (fun l =>
    { l with
      justification := .line p
      parentCheckmarked := ((t.placeChild p c).line p).checkmarked })

/-- Two lines in the tree are linked, the child having left its old parent first. -/
theorem tryLink_of_isLive {p c : Nat} (hp : t.lines.isLive p = true)
    (hc : t.lines.isLive c = true) :
    t.tryLink p c = (((t.sever c).hook p c).revalidate c, .ok ()) := by
  rw [tryLink, liveLine_of_isLive hp, liveLine_of_isLive hc, tryUnlink_of_isLive hc]
  rfl

/-- All checks come before the first change: after them, what the line rested on can be taken away,
and nothing that follows can be refused. -/
theorem tryLink_of_not_isLive {p c : Nat}
    (h : ¬ (t.lines.isLive p = true ∧ t.lines.isLive c = true)) :
    ∃ e, t.tryLink p c = (t, .error e) := by
  by_cases hp : t.lines.isLive p = true
  · obtain ⟨e, he⟩ := liveLine_of_not_isLive (fun hc => h ⟨hp, hc⟩)
    exact ⟨e, by rw [tryLink, liveLine_of_isLive hp, he]⟩
  · obtain ⟨e, he⟩ := liveLine_of_not_isLive hp
    exact ⟨e, by rw [tryLink, he]⟩

/-- What a change gives, with the old tree when it was refused. -/
def kept (t : Tree) : Except Refusal Tree → Tree × Except Refusal Unit
  | .ok t' => (t', .ok ())
  | .error e => (t, .error e)

theorem tryUnlink_eq (t : Tree) (c : Nat) : t.tryUnlink c = t.kept (t.unlink c) := by
  by_cases hc : t.lines.isLive c = true
  · rw [unlink, tryUnlink_of_isLive hc]
    rfl
  · obtain ⟨e, he⟩ := tryUnlink_of_not_isLive hc
    rw [unlink, he]
    rfl

/-- A refused link leaves the tree as it was. -/
theorem tryLink_eq (t : Tree) (p c : Nat) : t.tryLink p c = t.kept (t.link p c) := by
  by_cases h : t.lines.isLive p = true ∧ t.lines.isLive c = true
  · rw [link, tryLink_of_isLive h.1 h.2]
    rfl
  · obtain ⟨e, he⟩ := tryLink_of_not_isLive h
    rw [link, he]
    rfl

/-- A justification is taken back when the line is in the tree. -/
theorem unlink_ok_iff {c : Nat} :
    t.unlink c = .ok t' ↔ t.lines.isLive c = true ∧ t' = t.sever c := by
  unfold unlink
  by_cases hc : t.lines.isLive c = true
  · rw [tryUnlink_of_isLive hc]
    simp [orRefusal, hc, eq_comm]
  · obtain ⟨e, he⟩ := tryUnlink_of_not_isLive hc
    rw [he]
    simp [orRefusal, hc]

/-- Two lines are linked when both are in the tree. -/
theorem link_ok_iff {p c : Nat} :
    t.link p c = .ok t' ↔ t.lines.isLive p = true ∧ t.lines.isLive c = true ∧
      t' = ((t.sever c).hook p c).revalidate c := by
  unfold link
  by_cases h : t.lines.isLive p = true ∧ t.lines.isLive c = true
  · rw [tryLink_of_isLive h.1 h.2]
    simp [orRefusal, h, eq_comm]
  · obtain ⟨e, he⟩ := tryLink_of_not_isLive h
    rw [he]
    simp only [orRefusal, reduceCtorEq, false_iff]
    exact fun hc => h ⟨hc.1, hc.2.1⟩

def withFork (t : Tree) (n i : Nat) : Tree :=
  let pair := [t.nodes.size, t.nodes.size + 1]
  let new : Node := { stem := some ⟨n, i⟩ }
  (({ t with nodes := (t.nodes.push new).push new } : Tree).modifyNode n
    (fun nd => { nd with children := pair })).modifyLine i
    (fun l => { l with branches := l.branches ++ pair })

/-- A leaf of the tree branches on a line in the tree that splits up. -/
theorem branch_ok_iff {n i l r : Nat} :
    t.branch n i = .ok ((l, r), t') ↔ t.nodes.isLive n = true ∧ (t.node n).children = [] ∧
      t.lines.isLive i = true ∧ (t.line i).formula.decompose.branches = true ∧
      l = t.nodes.size ∧ r = t.nodes.size + 1 ∧ t' = t.withFork n i := by
  simp only [branch, Except.bind_ok_iff, liveNode_ok_iff]
  constructor
  · rintro ⟨nd, ⟨hn, rfl⟩, h⟩
    split at h
    · simp at h
    · rename_i hleaf
      obtain ⟨line, hline, h⟩ := Except.bind_ok_iff.mp h
      obtain ⟨hi, rfl⟩ := liveLine_ok_iff.mp hline
      split at h
      · simp at h
      · rename_i hb
        obtain ⟨h₁, rfl⟩ := Prod.mk.inj (Except.pure_ok_iff.mp h)
        obtain ⟨rfl, rfl⟩ := Prod.mk.inj h₁
        exact ⟨hn, by simpa [Node.isLeaf] using hleaf, hi, by simpa using hb, rfl, rfl, rfl⟩
  · rintro ⟨hn, hleaf, hi, hb, rfl, rfl, rfl⟩
    refine ⟨_, ⟨hn, rfl⟩, ?_⟩
    rw [if_neg (by simp [Node.isLeaf, hleaf])]
    refine Except.bind_ok_iff.mpr ⟨_, liveLine_ok_iff.mpr ⟨hi, rfl⟩, ?_⟩
    simp [hb, withFork, pure, Except.pure]

def withoutNode (t : Tree) (n : Nat) (s : Stem) : Tree :=
  let t := (t.modifyLine s.line
      (fun l => { l with branches := l.branches.filter (· ≠ n) })).modifyNode s.node
    (fun p => { p with children := p.children.filter (· ≠ n) })
  { t with nodes := t.nodes.withdraw n }

/-- A node is deleted when it is a leaf other than the root. -/
theorem deleteNode_ok_iff {n : Nat} :
    t.deleteNode n = .ok t' ↔ t.nodes.isLive n = true ∧ (t.node n).children = [] ∧
      ∃ s, (t.node n).stem = some s ∧
        t' = ((t.node n).lines.reverse.foldl detach t).withoutNode n s := by
  simp only [deleteNode, Except.bind_ok_iff, liveNode_ok_iff]
  constructor
  · rintro ⟨nd, ⟨hn, rfl⟩, h⟩
    split at h
    · simp at h
    · rename_i s hs
      split at h
      · simp at h
      · rename_i hleaf
        exact ⟨hn, by simpa [Node.isLeaf] using hleaf, s, hs, (Except.pure_ok_iff.mp h).symm⟩
  · rintro ⟨hn, hleaf, s, hs, rfl⟩
    refine ⟨_, ⟨hn, rfl⟩, ?_⟩
    rw [hs]
    dsimp only
    rw [if_neg (by simp [Node.isLeaf, hleaf])]
    rfl

def withNode (t : Tree) (n : Nat) (s : Stem) : Tree :=
  let t : Tree := { t with nodes := t.nodes.reinstate n }
  let t := t.modifyNode s.node (fun p => { p with children := t.nodes.place n p.children })
  t.modifyLine s.line (fun l => { l with branches := t.nodes.place n l.branches })

/-- A node is restored when it has left the tree and the node it grew from has room for it. -/
theorem restoreNode_ok_iff {n : Nat} :
    t.restoreNode n = .ok t' ↔ n < t.nodes.size ∧ t.nodes.isLive n ≠ true ∧
      ∃ s, (t.node n).stem = some s ∧ t.nodes.isLive s.node = true ∧
        (t.node s.node).children.length < 2 ∧ t.lines.isLive s.line = true ∧
        t' = (t.node n).lines.foldl (fun t i => (t.redisplay i).reattach i) (t.withNode n s) := by
  by_cases hn : n < t.nodes.size
  · have hget : t.nodes.get? n = some (t.node n) := Register.get?_eq_some_get hn
    simp only [restoreNode, hget]
    split
    · rename_i hlive
      simp [hlive]
    · rename_i hlive
      constructor
      · intro h
        split at h
        · simp at h
        · rename_i s hs
          obtain ⟨p, hp, h⟩ := Except.bind_ok_iff.mp h
          obtain ⟨hplive, rfl⟩ := liveNode_ok_iff.mp hp
          split at h
          · simp at h
          · rename_i htwo
            obtain ⟨l, hl, h⟩ := Except.bind_ok_iff.mp h
            obtain ⟨hllive, rfl⟩ := liveLine_ok_iff.mp hl
            exact ⟨hn, hlive, s, hs, hplive, Nat.lt_of_not_le htwo, hllive,
              (Except.pure_ok_iff.mp h).symm⟩
      · rintro ⟨-, -, s, hs, hp, htwo, hl, rfl⟩
        rw [hs]
        refine Except.bind_ok_iff.mpr ⟨_, liveNode_ok_iff.mpr ⟨hp, rfl⟩, ?_⟩
        rw [if_neg (Nat.not_le_of_lt htwo)]
        exact Except.bind_ok_iff.mpr ⟨_, liveLine_ok_iff.mpr ⟨hl, rfl⟩, rfl⟩
  · simp only [restoreNode, Register.get?_eq_none (Nat.le_of_not_lt hn), reduceCtorEq, false_iff]
    exact fun h => hn h.1

/-- A branch can be deleted where a node has two children and both are leaves. -/
theorem leafPair_ok_iff {n l r : Nat} :
    t.leafPair n = .ok (l, r) ↔ t.nodes.isLive n = true ∧ (t.node n).children = [l, r] ∧
      (t.node l).children = [] ∧ (t.node r).children = [] := by
  simp only [leafPair, Except.bind_ok_iff, liveNode_ok_iff]
  constructor
  · rintro ⟨nd, ⟨hn, rfl⟩, h⟩
    split at h
    · rename_i left right hchildren
      split at h
      · rename_i hleaf
        obtain ⟨rfl, rfl⟩ := Prod.mk.inj (Except.pure_ok_iff.mp h)
        simp only [Node.isLeaf, Bool.and_eq_true, List.isEmpty_iff] at hleaf
        exact ⟨hn, hchildren, hleaf.1, hleaf.2⟩
      · simp at h
    · simp at h
  · rintro ⟨hn, hchildren, hl, hr⟩
    refine ⟨_, ⟨hn, rfl⟩, ?_⟩
    rw [hchildren]
    simp [Node.isLeaf, hl, hr, pure, Except.pure]

/-- A branch is deleted by deleting its right side and then its left. -/
theorem deleteBranch_ok_iff {n l r : Nat} :
    t.deleteBranch n = (t', .ok (l, r)) ↔ t.leafPair n = .ok (l, r) ∧
      ∃ t₁, t.deleteNode r = .ok t₁ ∧ t₁.deleteNode l = .ok t' := by
  unfold deleteBranch
  constructor
  · intro h
    split at h
    · simp at h
    · rename_i left right hpair
      split at h
      · simp at h
      · rename_i t₁ hr
        split at h
        · simp at h
        · rename_i t₂ hl
          obtain ⟨rfl, hresult⟩ := Prod.mk.inj h
          obtain ⟨rfl, rfl⟩ := Prod.mk.inj (Except.ok.inj hresult)
          exact ⟨hpair, t₁, hr, hl⟩
  · rintro ⟨hpair, t₁, hr, hl⟩
    simp only [hpair, hr, hl]

/-- A branch is restored below a leaf, side by side. -/
theorem restoreBranch_ok_iff {n : Nat} {pair : Nat × Nat} :
    t.restoreBranch n pair = (t', .ok ()) ↔ t.nodes.isLive n = true ∧ (t.node n).children = [] ∧
      ∃ t₁, t.restoreNode pair.1 = .ok t₁ ∧ t₁.restoreNode pair.2 = .ok t' := by
  unfold restoreBranch
  constructor
  · intro h
    split at h
    · simp at h
    · rename_i nd hnd
      obtain ⟨hn, rfl⟩ := liveNode_ok_iff.mp hnd
      split at h
      · simp at h
      · rename_i hleaf
        split at h
        · simp at h
        · rename_i t₁ hl
          split at h
          · simp at h
          · rename_i t₂ hr
            obtain ⟨rfl, -⟩ := Prod.mk.inj h
            exact ⟨hn, by simpa [Node.isLeaf] using hleaf, t₁, hl, hr⟩
  · rintro ⟨hn, hleaf, t₁, hl, hr⟩
    rw [liveNode_of_isLive hn]
    simp [Node.isLeaf, hleaf, hl, hr]

/-- A line gets its checkmark when the rule for checkmarks allows it. -/
theorem checkmark_ok_iff {i : Nat} :
    t.checkmark i = .ok t' ↔ t.lines.isLive i = true ∧ t.checkCheckmark i = .ok () ∧
      t' = t.setCheckmarked i true := by
  simp only [checkmark, Except.bind_ok_iff, liveLine_ok_iff, Except.mapError_ok_iff,
    Except.pure_ok_iff]
  constructor
  · rintro ⟨l, ⟨hi, -⟩, ⟨⟩, hc, rfl⟩
    exact ⟨hi, hc, rfl⟩
  · rintro ⟨hi, hc, rfl⟩
    exact ⟨_, ⟨hi, rfl⟩, (), hc, rfl⟩

/-- A branch is closed when the rule for closing allows it. -/
theorem close_ok_iff {n i j : Nat} :
    t.close n i j = .ok t' ↔ t.nodes.isLive n = true ∧ t.lines.isLive i = true ∧
      t.lines.isLive j = true ∧ t.checkClose n i j = .ok () ∧ t' = t.setClosed n true := by
  simp only [close, Except.bind_ok_iff, liveLine_ok_iff, liveNode_ok_iff, Except.mapError_ok_iff,
    Except.pure_ok_iff]
  constructor
  · rintro ⟨nd, ⟨hn, -⟩, l, ⟨hi, -⟩, l', ⟨hj, -⟩, ⟨⟩, hc, rfl⟩
    exact ⟨hn, hi, hj, hc, rfl⟩
  · rintro ⟨hn, hi, hj, hc, rfl⟩
    exact ⟨_, ⟨hn, rfl⟩, _, ⟨hi, rfl⟩, _, ⟨hj, rfl⟩, (), hc, rfl⟩

/-- A branch is marked open when it is not closed and the rule for open branches allows it. -/
theorem markOpen_ok_iff {n : Nat} :
    t.markOpen n = .ok t' ↔ t.nodes.isLive n = true ∧ (t.node n).closed = false ∧
      t.checkOpen n = .ok () ∧ t' = t.setOpen n true := by
  simp only [markOpen, Except.bind_ok_iff, liveNode_ok_iff]
  constructor
  · rintro ⟨nd, ⟨hn, rfl⟩, h⟩
    split at h
    · simp at h
    · rename_i hclosed
      obtain ⟨⟨⟩, hc, h⟩ := Except.bind_ok_iff.mp h
      exact ⟨hn, by simpa using hclosed, Except.mapError_ok_iff.mp hc,
        (Except.pure_ok_iff.mp h).symm⟩
  · rintro ⟨hn, hclosed, hc, rfl⟩
    refine ⟨_, ⟨hn, rfl⟩, ?_⟩
    rw [if_neg (by simp [hclosed])]
    exact Except.bind_ok_iff.mpr ⟨(), Except.mapError_ok_iff.mpr hc, rfl⟩

end TruthTrees.Tree
