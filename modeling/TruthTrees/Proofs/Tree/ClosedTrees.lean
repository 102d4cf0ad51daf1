import TruthTrees.Proofs.Formula.Containment
import TruthTrees.Proofs.Tree.Forks
import TruthTrees.Proofs.Tree.Warrants

/-! What a closed tree proves. A valuation that makes the premises true makes all valid lines true
that are held on one path from the root to a leaf: it is followed from fork to fork into a branch
whose cases it makes true. On a closed leaf two of these lines contradict each other, so there is no
such valuation. For this the tree has to be in order, which the rules do not see to: they look at a
line only at the moment when it is justified, checkmarked or used to close a node. -/
namespace TruthTrees

namespace Formula

/-- What is found in a formula follows from it, unless it has to stand on a branch. The exception
are negations of disjunctions and conditionals, in which more is found than follows. -/
theorem entails_of_contains {φ ψ : Formula} (hc : φ.contains ψ = true)
    (hb : Tree.needsBranch φ ψ = false)
    (hnot : φ.operator? = some .not → φ.decompose.junction? = some .and → φ.Entails ψ) :
    φ.Entails ψ := by
  unfold Tree.needsBranch at hb
  cases hd : φ.decompose with
  | alone a => exact (sameTruth_of_contains_of_alone hd hc).symm.entails
  | split j l r =>
    rw [hd] at hb hnot
    cases j with
    | and =>
      have hop : φ.operator? = some .not ∨ φ.operator? = some .and := by
        cases φ <;> simp_all [decompose, operator?]
      rcases hop with hop | hop
      · exact hnot hop rfl
      · exact (reaches_iff_of_and hop ψ).mp (comparisons_sound.2.2 φ ψ hc)
    | or => simp [Decomposition.junction?] at hb
    | iff =>
      cases hcond : φ.conditionals? with
      | none => simp [Decomposition.junction?, hcond] at hb
      | some pair =>
        obtain ⟨a, b⟩ := pair
        have hin : (and a b).contains ψ = true := by
          simpa [Decomposition.junction?, hcond] using hb
        have hentails : (and a b).Entails ψ := comparisons_sound.2.2 (and a b) ψ hin
        intro v hv
        apply hentails v
        rw [eval_of_conditionals hcond] at hv
        exact hv

/-- A folded conjunction is true when all its members are. -/
theorem eval_foldl_and (v : Valuation) (φ : Formula) (φs : List Formula) :
    (φs.foldl and φ).eval v = true ↔ φ.eval v = true ∧ ∀ ψ ∈ φs, ψ.eval v = true := by
  induction φs generalizing φ with
  | nil => simp
  | cons χ φs ih =>
    rw [List.foldl_cons, ih, eval, Bool.and_eq_true, List.forall_mem_cons, and_assoc]

/-- A valuation makes the conjunction of a list true when it makes all its members true. -/
theorem eval_conjunction? {φs : List Formula} {φ : Formula} (h : conjunction? φs = some φ)
    (v : Valuation) : φ.eval v = true ↔ ∀ ψ ∈ φs, ψ.eval v = true := by
  cases φs with
  | nil => simp [conjunction?] at h
  | cons χ φs =>
    obtain rfl := Option.some.inj h
    rw [eval_foldl_and, List.forall_mem_cons]

end Formula

namespace Tree

def premises (t : Tree) : List Formula :=
  (t.lines.order.filter (fun i => (t.line i).justification = .premise)).map
    (fun i => (t.line i).formula)

/-- What a closed tree needs to be a proof, beyond the rules that were checked while it was built.
All but the second condition can be computed. -/
structure InOrder (t : Tree) : Prop where
  /-- A valid line stands below the line that it rests on, on the same path. -/
  above : ∀ c ∈ t.lines.order, (t.line c).valid = true → ∀ p ∈ (t.support c).parent?,
    t.inAncestry (t.line c).node p = true
  /-- A valid line that rests on the negation of a disjunction or a conditional follows from it. -/
  follows : ∀ c ∈ t.lines.order, (t.line c).valid = true → ∀ p ∈ (t.support c).parent?,
    (t.line p).formula.operator? = some .not →
    (t.line p).formula.decompose.junction? = some .and →
    (t.line p).formula.Entails (t.line c).formula
  /-- Where a node was branched on a valid checkmarked line and both branches hold lines that rest
  on it, these are, between them, its cases. -/
  splits : ∀ left ∈ t.nodes.order, ∀ right ∈ t.nodes.order, ∀ n ∈ (t.node left).parent?,
    ∀ i ∈ (t.node left).branchedOn?, (t.node n).children = [left, right] →
    (t.line i).valid = true → (t.line i).checkmarked = true →
    t.childFormulas i [left] ≠ [] → t.childFormulas i [right] ≠ [] →
    t.splitsUp i left right = true
  /-- A closed leaf still has two lines by which it could be closed. -/
  contradicts : ∀ n ∈ t.nodes.order, (t.node n).isLeaf = true → (t.node n).closed = true →
    ∃ i ∈ t.lines.order, ∃ j ∈ t.lines.order, (t.checkClose n i j).isOk = true

def TrueAbove (t : Tree) (v : Valuation) (n : Nat) : Prop :=
  ∀ c, t.lines.isLive c = true → (t.line c).valid = true → (t.line c).node ∈ t.ancestors n →
    (t.line c).formula.eval v = true

section Following

variable {t : Tree} {v : Valuation} {n : Nat}

/-- A line is on the branch of a node when it stands in the node or above it. -/
theorem inAncestry_iff {i : Nat} : t.inAncestry n i = true ↔
    t.lines.isLive i = true ∧ (t.line i).node ∈ t.ancestors n := by
  rw [inAncestry, Bool.and_eq_true, List.contains_iff_mem]

/-- A premise in the tree is among the premises that are taken to be true. -/
theorem Coherent.eval_of_premise (h : Coherent t) (hv : ∀ φ ∈ t.premises, φ.eval v = true) {i : Nat}
    (hi : t.lines.isLive i = true) (hs : t.support i = .premise) :
    (t.line i).formula.eval v = true := by
  apply hv
  have hmem := (h.linked.ordered.mem_iff i).mpr hi
  exact List.mem_map.mpr ⟨i, List.mem_filter.mpr ⟨hmem, decide_eq_true hs⟩, rfl⟩

/-- A line that does not stand on a branch grown from the line that it rests on follows from it. -/
theorem InOrder.entails (ho : InOrder t) (h : Coherent t) (hw : Warranted t) {p c : Nat}
    (hc : t.lines.isLive c = true) (hvalid : (t.line c).valid = true) (hs : t.support c = .line p)
    (hplace : (t.node (t.line c).node).branchedOn? ≠ some p) :
    (t.line p).formula.Entails (t.line c).formula := by
  rcases hw p c hc hs with hequivalent | ⟨hcontains, hneeds⟩
  · exact Formula.SameTruth.entails (Formula.comparisons_sound.1 _ _ hequivalent)
  · have hb : needsBranch (t.line p).formula (t.line c).formula = false :=
      Bool.eq_false_iff.mpr (fun hc => hplace (hneeds hc))
    have hmem := (h.linked.ordered.mem_iff c).mpr hc
    exact Formula.entails_of_contains hcontains hb
      (ho.follows c hmem hvalid p (by rw [hs]; rfl))

/-- All valid lines above and in a node are true when those above it are, and those of its lines
that stand there as cases of the line that was branched on. -/
theorem trueAbove_of_cases (h : Coherent t) (hw : Warranted t) (ho : InOrder t)
    (hv : ∀ φ ∈ t.premises, φ.eval v = true)
    (habove : ∀ s, (t.node n).stem = some s → s.node < n ∧ t.TrueAbove v s.node)
    (hcases : ∀ p c, t.lines.isLive c = true → (t.line c).valid = true → (t.line c).node = n →
      t.support c = .line p → (t.node n).branchedOn? = some p → (t.line c).formula.eval v = true) :
    t.TrueAbove v n := by
  intro c hc hvalid hmem
  have hgrounded := (h.linked.valid c hc).mp hvalid
  induction hgrounded with
  | premise hs => exact h.eval_of_premise hv hc hs
  | @line c p hs hp ih =>
    have hplive := (h.linked.parent c p hc hs).left_live h.linked.ordered
    have hpvalid := (h.linked.valid p hplive).mpr hp
    by_cases hcn : (t.line c).node = n
    · by_cases hplace : (t.node n).branchedOn? = some p
      · exact hcases p c hc hvalid hcn hs hplace
      · have hmem' := (h.linked.ordered.mem_iff c).mpr hc
        have hancestry := ho.above c hmem' hvalid p (by rw [hs]; rfl)
        rw [hcn, inAncestry, hplive, Bool.true_and, List.contains_iff_mem] at hancestry
        have hentails := ho.entails h hw hc hvalid hs (by rwa [hcn])
        exact hentails v (ih hplive hpvalid hancestry)
    · cases hstem : (t.node n).stem with
      | none =>
        rw [ancestors_of_root hstem, List.mem_singleton] at hmem
        exact absurd hmem hcn
      | some s =>
        obtain ⟨hlt, htrue⟩ := habove s hstem
        rw [ancestors_of_stem hstem hlt] at hmem
        exact htrue c hc hvalid ((List.mem_cons.mp hmem).resolve_left hcn)

theorem Coherent.mem_childFormulas (h : Coherent t) {i c : Nat} (hi : t.lines.isLive i = true)
    (hc : t.lines.isLive c = true) (hs : t.support c = .line i) (hn : (t.line c).node = n) :
    (t.line c).formula ∈ t.childFormulas i [n] := by
  have hmem := (h.linked.mem_children_iff hi).mpr ⟨hc, hs⟩
  exact List.mem_map.mpr ⟨c, List.mem_filter.mpr ⟨hmem, by simp [hn]⟩, rfl⟩

/-- When a line is true and split into its cases, all lines of one case are true. -/
theorem eval_of_splitsUp {i left right : Nat} (hsplits : t.splitsUp i left right = true)
    (hi : (t.line i).formula.eval v = true) :
    (∀ φ ∈ t.childFormulas i [left], φ.eval v = true) ∨
      ∀ φ ∈ t.childFormulas i [right], φ.eval v = true := by
  unfold splitsUp at hsplits
  split at hsplits
  · next φ ψ hφ hψ =>
    rw [← Formula.comparisons_sound.1 _ _ hsplits v, Formula.eval, Bool.or_eq_true] at hi
    rwa [Formula.eval_conjunction? hφ, Formula.eval_conjunction? hψ] at hi
  · simp at hsplits

/-- At a fork the valuation can be followed into one of the two branches. -/
theorem trueAbove_of_fork (h : Coherent t) (hw : Warranted t) (ho : InOrder t)
    (hv : ∀ φ ∈ t.premises, φ.eval v = true) {left right i : Nat}
    (hfork : Fork t.nodes n left right i) (hmark : (t.line i).checkmarked = true)
    (htrue : t.TrueAbove v n) : t.TrueAbove v left ∨ t.TrueAbove v right := by
  have hpair := h.store.rooted.pair hfork.children
  obtain ⟨hi, hinode⟩ := h.branched left ⟨n, i⟩ hpair.left_live hfork.left_stem
  have hbranch : ∀ m, t.nodes.isLive m = true → (t.node m).stem = some ⟨n, i⟩ →
      (∀ c, t.lines.isLive c = true → (t.line c).valid = true → (t.line c).node = m →
        t.support c = .line i → (t.line c).formula.eval v = true) → t.TrueAbove v m := by
    intro m hm hstem hcases
    apply trueAbove_of_cases h hw ho hv
    · intro s hs
      obtain rfl := Option.some.inj (hs.symm.trans hstem)
      exact ⟨h.store.rooted.stem_lt hm hstem, htrue⟩
    · intro p c hc hvalid hcm hsupport hp
      rw [Node.branchedOn?, hstem] at hp
      obtain rfl := Option.some.inj hp
      exact hcases c hc hvalid hcm hsupport
  by_cases hvalid : (t.line i).valid = true
  · have hitrue := htrue i hi hvalid hinode
    have hcases : (∀ φ ∈ t.childFormulas i [left], φ.eval v = true) ∨
        ∀ φ ∈ t.childFormulas i [right], φ.eval v = true := by
      by_cases hleft : t.childFormulas i [left] = []
      · left
        simp [hleft]
      by_cases hright : t.childFormulas i [right] = []
      · right
        simp [hright]
      have hmem := h.store.rooted.ordered.mem_iff
      have hstem : (t.node left).stem = some ⟨n, i⟩ := hfork.left_stem
      have hsplits := ho.splits left ((hmem left).mpr hpair.left_live) right
        ((hmem right).mpr hpair.right_live) n (by rw [Node.parent?, hstem]; rfl) i
        (by rw [Node.branchedOn?, hstem]; rfl) hfork.children hvalid hmark hleft hright
      exact eval_of_splitsUp hsplits hitrue
    rcases hcases with hleft | hright
    · left
      apply hbranch left hpair.left_live hfork.left_stem
      exact fun c hc _ hcm hs => hleft _ (h.mem_childFormulas hi hc hs hcm)
    · right
      apply hbranch right hpair.right_live hfork.right_stem
      exact fun c hc _ hcm hs => hright _ (h.mem_childFormulas hi hc hs hcm)
  · left
    apply hbranch left hpair.left_live hfork.left_stem
    intro c hc hcvalid _ hs
    rw [h.linked.valid_eq_of_support hc hs] at hcvalid
    exact absurd hcvalid hvalid

theorem shape_of_leaf (hleaf : (t.node n).children = []) : t.shape n = .leaf n := by
  rw [shape, hleaf]

/-- The shape below a fork is made of the shapes below its two sides. -/
theorem Rooted.shape_of_fork (h : Rooted t.nodes) {left right i : Nat}
    (hfork : Fork t.nodes n left right i) :
    t.shape n = .fork n (t.shape left) (t.shape right) := by
  have hpair := h.pair hfork.children
  have hleft := h.stem_lt hpair.left_live hfork.left_stem
  have hright := h.stem_lt hpair.right_live hfork.right_stem
  have hchildren : (t.node n).children = [left, right] := hfork.children
  rw [shape, hchildren]
  dsimp only
  rw [if_pos ⟨⟨hleft, Register.lt_size_of_isLive hpair.left_live⟩,
    hright, Register.lt_size_of_isLive hpair.right_live⟩]

theorem node_shape (t : Tree) (n : Nat) : (t.shape n).node = n := by
  rw [shape]
  split
  · rfl
  · split <;> rfl
  · split <;> rfl

/-- Where checkmarks are required, the line is checkmarked that the topmost node was branched on. -/
theorem uncheckedStem?_of_unclosed? {shape : Shape} (h : t.unclosed? true shape = none) :
    t.uncheckedStem? shape.node = none := by
  cases shape <;> simp_all [unclosed?, Shape.node, Option.or_eq_none_iff]

theorem checkmarked_of_uncheckedStem? {m i : Nat} (h : t.uncheckedStem? m = none)
    (hs : (t.node m).stem = some ⟨n, i⟩) : (t.line i).checkmarked = true := by
  unfold uncheckedStem? at h
  rw [Node.branchedOn?, hs] at h
  simpa using h

/-- When all branches are closed, a valuation is followed to a closed leaf. -/
theorem exists_closed_leaf (h : Coherent t) (hf : Forked t.nodes) (hw : Warranted t)
    (ho : InOrder t) (hv : ∀ φ ∈ t.premises, φ.eval v = true) (hn : t.nodes.isLive n = true)
    (hclosed : t.unclosed? true (t.shape n) = none) (htrue : t.TrueAbove v n) :
    ∃ m, t.nodes.isLive m = true ∧ (t.node m).isLeaf = true ∧ (t.node m).closed = true ∧
      t.TrueAbove v m := by
  induction hk : t.nodes.size - n using Nat.strongRecOn generalizing n with
  | ind k ih =>
    have hlt := Register.lt_size_of_isLive hn
    rcases hf n hn with hleaf | ⟨left, right, i, hfork⟩
    · rw [shape_of_leaf hleaf, unclosed?, Option.or_eq_none_iff] at hclosed
      refine ⟨n, hn, ?_, by simpa using hclosed.2, htrue⟩
      rw [Node.isLeaf, show (t.node n).children = [] from hleaf]
      rfl
    · have hpair := h.store.rooted.pair hfork.children
      rw [h.store.rooted.shape_of_fork hfork, unclosed?, Option.or_eq_none_iff,
        Option.or_eq_none_iff] at hclosed
      obtain ⟨-, hleft, hright⟩ := hclosed
      have hmark : (t.line i).checkmarked = true := by
        have hstem := uncheckedStem?_of_unclosed? hleft
        rw [node_shape] at hstem
        exact checkmarked_of_uncheckedStem? hstem hfork.left_stem
      rcases trueAbove_of_fork h hw ho hv hfork hmark htrue with htrue | htrue
      · have hlt' := h.store.rooted.stem_lt hpair.left_live hfork.left_stem
        exact ih _ (by dsimp only at hlt'; omega) hpair.left_live hleft htrue rfl
      · have hlt' := h.store.rooted.stem_lt hpair.right_live hfork.right_stem
        exact ih _ (by dsimp only at hlt'; omega) hpair.right_live hright htrue rfl

/-- A branch may be closed by two valid lines on it that contradict each other. -/
theorem isOk_checkClose_iff {i j : Nat} : (t.checkClose n i j).isOk = true ↔
    (t.line i).valid = true ∧ (t.line j).valid = true ∧ t.inAncestry n i = true ∧
      t.inAncestry n j = true ∧
      (Formula.not (t.line i).formula).equivalent (t.line j).formula = true := by
  unfold checkClose
  split_ifs <;> simp_all [Except.isOk, Except.toBool]

/-- The lines by which a node can be closed are not true together. -/
theorem not_trueAbove_of_checkClose {i j : Nat} (hok : (t.checkClose n i j).isOk = true) :
    ¬ t.TrueAbove v n := by
  intro htrue
  obtain ⟨hi, hj, hiabove, hjabove, hequivalent⟩ := isOk_checkClose_iff.mp hok
  rw [inAncestry, Bool.and_eq_true, List.contains_iff_mem] at hiabove hjabove
  have hitrue := htrue i hiabove.1 hi hiabove.2
  have hjtrue := htrue j hjabove.1 hj hjabove.2
  rw [← Formula.comparisons_sound.1 _ _ hequivalent v, Formula.eval, hitrue] at hjtrue
  simp at hjtrue

/-- The premises of a closed tree that is in order cannot be true together. -/
theorem not_satisfiable_of_unclosed? (h : Coherent t) (hf : Forked t.nodes) (hw : Warranted t)
    (ho : InOrder t) (hclosed : t.unclosed? true (t.shape root) = none) :
    ¬ Formula.Satisfiable t.premises := by
  rintro ⟨v, hv⟩
  have hroot : t.TrueAbove v root := by
    have hstem : (t.node root).stem = none := h.store.rooted.root_stem
    apply trueAbove_of_cases h hw ho hv
    · simp [hstem]
    · simp [Node.branchedOn?, hstem]
  obtain ⟨m, hm, hleaf, hmclosed, htrue⟩ :=
    exists_closed_leaf h hf hw ho hv h.store.rooted.root_live hclosed hroot
  obtain ⟨i, -, j, -, hok⟩ :=
    ho.contradicts m ((h.store.rooted.ordered.mem_iff m).mpr hm) hleaf hmclosed
  exact not_trueAbove_of_checkClose hok htrue

end Following

end Tree

end TruthTrees
