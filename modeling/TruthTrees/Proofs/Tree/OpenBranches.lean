import TruthTrees.Proofs.Tree.ClosedTrees

/-! What a finished open branch describes. The literals that stand on it give a valuation, and from
the last line upwards every valid line on the branch is true under it: a literal because nothing on
the branch contradicts it, and every other line because the lines that rest on it imply it. The
check that marks a branch open skips some lines and is content with too little for others, so the
branch has to be exhausted beyond what is checked. -/
namespace TruthTrees

namespace Formula

/-- The literal that a formula amounts to and the truth value that it gives it, for a literal under
at most three negations. -/
def signed? : Formula → Option (String × Bool)
  | literal a => some (a, true)
  | not (literal a) => some (a, false)
  | not (not (literal a)) => some (a, true)
  | not (not (not (literal a))) => some (a, false)
  | _ => none

/-- A biconditional or a negated conjunction. More is found in these than implies them. -/
def loose : Formula → Bool
  | iff _ _ | not (and _ _) => true
  | _ => false

variable {φ ψ : Formula} {v : Valuation}

theorem eval_of_signed? {a : String} {b : Bool} (h : φ.signed? = some (a, b)) :
    φ.eval v = (v a == b) := by
  unfold signed? at h
  split at h
  all_goals simp only [Option.some.injEq, Prod.mk.injEq, reduceCtorEq] at h
  all_goals
    obtain ⟨rfl, rfl⟩ := h
    simp [eval]

/-- Formulas that give a literal different truth values are recognized as contradictory. -/
theorem equivalent_of_signed? {a : String} (hφ : φ.signed? = some (a, true))
    (hψ : ψ.signed? = some (a, false)) : (not φ).equivalent ψ = true := by
  unfold signed? at hφ hψ
  split at hφ
  all_goals simp only [Option.some.injEq, Prod.mk.injEq, reduceCtorEq, and_false] at hφ
  all_goals
    obtain ⟨rfl, -⟩ := hφ
    split at hψ
  all_goals simp only [Option.some.injEq, Prod.mk.injEq, reduceCtorEq, and_false] at hψ
  all_goals
    obtain ⟨rfl, -⟩ := hψ
    simp [equivalent, align, decompose]

/-- The conjunctions of initial parts are true when all members of a list are. -/
theorem eval_conjunctionsFrom {φs : List Formula} (hφ : φ.eval v = true)
    (hφs : ∀ χ ∈ φs, χ.eval v = true) (hψ : ψ ∈ conjunctionsFrom φ φs) : ψ.eval v = true := by
  induction φs generalizing φ with
  | nil =>
    rw [List.mem_singleton.mp hψ]
    exact hφ
  | cons χ φs ih =>
    rw [List.forall_mem_cons] at hφs
    rcases List.mem_cons.mp hψ with rfl | hψ
    · exact hφ
    · exact ih (by rw [eval, hφ, hφs.1]; rfl) hφs.2 hψ

/-- What true formulas add up to is true. -/
theorem eval_conjunctions {φs : List Formula} (hφs : ∀ χ ∈ φs, χ.eval v = true)
    (hψ : ψ ∈ conjunctions φs) : ψ.eval v = true := by
  cases φs with
  | nil => simp [conjunctions] at hψ
  | cons χ φs =>
    rw [List.forall_mem_cons] at hφs
    exact eval_conjunctionsFrom hφs.1 hφs.2 hψ

/-- The cases of a negated biconditional are conjunctions, so the search does not go into them. -/
theorem uncrossed_of_not_iff (a b : Formula) : (not (iff a b)).Uncrossed ψ := by
  intro χ hχ hcross
  rw [searched_of_split (j := .iff) rfl] at hχ
  simp only [operator?, reduceCtorEq, if_false, List.append_nil, List.mem_singleton,
    Option.some.injEq] at hχ
  rw [hχ] at hcross
  exact absurd rfl hcross.2

/-- What answers to a formula on a branch implies it, apart from biconditionals and negated
conjunctions. -/
theorem entails_of_answers {j : Junction} (hj : φ.decompose.junction? = some j)
    (h : Tree.answers j φ ψ = true) (hloose : φ.loose = true → ψ.Entails φ) : ψ.Entails φ := by
  have hsame : ψ.equivalent φ = true → ψ.Entails φ :=
    fun he => SameTruth.entails (comparisons_sound.1 ψ φ he)
  have hfound (hiff : φ.operator? ≠ some .iff) (hc : φ.contains ψ = true)
      (hu : φ.Uncrossed ψ) (hand : j ≠ .and) : ψ.Entails φ := by
    have hbears := bears_of_contains hiff hc hu
    rw [branches_of_junction? hj, bne_iff_ne.mpr hand] at hbears
    exact hbears
  cases j with
  | and => exact hsame h
  | or =>
    cases φ with
    | not body =>
      cases body with
      | and a b => exact hloose rfl
      | _ => simp [decompose, Decomposition.junction?] at hj
    | or a b | imp a b =>
      refine hfound (by simp [operator?]) h (uncrossed_of_operator? ?_ ψ) (by decide)
      simp [operator?]
    | _ => simp [decompose, Decomposition.junction?] at hj
  | iff =>
    cases φ with
    | not body =>
      cases body with
      | iff a b =>
        rcases Bool.or_eq_true_iff.mp h with he | hc
        · exact hsame he
        · exact hfound (by simp [operator?]) hc (uncrossed_of_not_iff a b) (by decide)
      | _ => simp [decompose, Decomposition.junction?] at hj
    | iff a b => exact hloose rfl
    | _ => simp [decompose, Decomposition.junction?] at hj

end Formula

namespace Tree

/-- What a branch needs to describe a model, beyond the rules that are checked when it is marked
open. All but the last condition can be computed. -/
structure Exhausted (t : Tree) (n : Nat) : Prop where
  /-- No node on the branch is closed. -/
  unclosed : ∀ m ∈ t.ancestors n, (t.node m).closed = false
  /-- A valid line on the branch that is checkmarked was taken apart on all branches below it. -/
  decomposed : ∀ i ∈ t.lines.order, t.inAncestry n i = true → (t.line i).valid = true →
    (t.line i).checkmarked = true → t.isDecomposed i = true
  /-- On a valid double negation that does not amount to a literal rests a line on the branch. -/
  undoubled : ∀ i ∈ t.lines.order, t.inAncestry n i = true → (t.line i).valid = true →
    (t.line i).formula.decompose.junction? = none → (t.line i).formula.signed? = none →
    t.childFormulas i (t.path n) ≠ []
  /-- A valid biconditional or negated conjunction that is not checkmarked follows from the lines on
  the branch that rest on it. -/
  implied : ∀ i ∈ t.lines.order, t.inAncestry n i = true → (t.line i).valid = true →
    (t.line i).checkmarked = false → (t.line i).formula.loose = true →
    ∀ φ ∈ Formula.conjunction? (t.childFormulas i (t.path n)), φ.Entails (t.line i).formula

/-- The valuation that makes those literals true that stand on the way up from a node. -/
def valuationAbove (t : Tree) (n : Nat) : Valuation := fun a =>
  t.lines.order.any (fun i => (t.line i).valid && t.inAncestry n i &&
    (t.line i).formula.signed? == some (a, true))

def TrueBelow (t : Tree) (v : Valuation) (n i : Nat) : Prop :=
  ∀ c, t.lines.isLive c = true → t.support c = .line i → (t.line c).node ∈ t.ancestors n →
    (t.line c).formula.eval v = true

section Reading

variable {t : Tree} {v : Valuation} {n i : Nat}

/-- The path of a node is made of its ancestors. -/
theorem mem_path {m : Nat} : m ∈ t.path n ↔ m ∈ t.ancestors n := List.mem_reverse

/-- Where nothing can be closed, the signed literals on a branch are true. -/
theorem eval_valuationAbove (h : Coherent t)
    (hno : ∀ i j, (t.checkClose n i j).isOk = false) (hi : t.inAncestry n i = true)
    (hvalid : (t.line i).valid = true) {a : String} {b : Bool}
    (hsigned : (t.line i).formula.signed? = some (a, b)) :
    (t.line i).formula.eval (t.valuationAbove n) = true := by
  rw [Formula.eval_of_signed? hsigned, beq_iff_eq]
  have hmem := (h.linked.ordered.mem_iff i).mpr (inAncestry_iff.mp hi).1
  cases b with
  | true =>
    rw [valuationAbove, List.any_eq_true]
    exact ⟨i, hmem, by simp [hvalid, hi, hsigned]⟩
  | false =>
    rw [valuationAbove, List.any_eq_false]
    intro j _ hj
    simp only [Bool.and_eq_true, beq_iff_eq] at hj
    obtain ⟨⟨hjvalid, hjabove⟩, hjsigned⟩ := hj
    have hnot := Formula.equivalent_of_signed? hjsigned hsigned
    have hok := isOk_checkClose_iff.mpr ⟨hjvalid, hvalid, hjabove, hi, hnot⟩
    rw [hno j i] at hok
    simp at hok

theorem TrueBelow.childFormulas (hb : t.TrueBelow v n i) (h : Coherent t)
    (hi : t.lines.isLive i = true) {nodes : List Nat} (hnodes : ∀ m ∈ nodes, m ∈ t.ancestors n) :
    ∀ φ ∈ t.childFormulas i nodes, φ.eval v = true := by
  intro φ hφ
  obtain ⟨c, hc, rfl⟩ := List.mem_map.mp hφ
  rw [List.mem_filter, List.contains_iff_mem, h.linked.mem_children_iff hi] at hc
  obtain ⟨⟨hlive, hs⟩, hnode⟩ := hc
  exact hb c hlive hs (hnodes _ hnode)

/-- The way up from a node to an ancestor comes through a child of the ancestor. -/
theorem Rooted.exists_child_mem_ancestors (h : Rooted t.nodes) (hn : t.nodes.isLive n = true)
    {m : Nat} (hm : m ∈ t.ancestors n) (hne : m ≠ n) :
    ∃ c ∈ (t.node m).children, c ∈ t.ancestors n := by
  induction n using Nat.strongRecOn with
  | ind n ih =>
    cases hs : (t.node n).stem with
    | none =>
      rw [ancestors_of_root hs, List.mem_singleton] at hm
      exact absurd hm hne
    | some s =>
      have hlt := h.stem_lt hn hs
      rw [ancestors_of_stem hs hlt] at hm ⊢
      have hm' := (List.mem_cons.mp hm).resolve_left hne
      by_cases hms : m = s.node
      · exact ⟨n, hms ▸ h.mem_children hn hs, List.mem_cons_self⟩
      · obtain ⟨c, hc, hcn⟩ := ih s.node hlt (h.parent_live n s hn hs) hm' hms
        exact ⟨c, hc, List.mem_cons_of_mem _ hcn⟩

/-- Down the way to a leaf: what holds of the leaf, and of a fork when it holds of the branch that
the way goes into, holds all along the way. -/
theorem Coherent.induction_down (h : Coherent t) (hf : Forked t.nodes)
    (hn : t.nodes.isLive n = true) (hleaf : (t.node n).children = []) {P : Nat → Prop}
    (leaf : ∀ m ∈ t.ancestors n, (t.node m).children = [] → P m)
    (fork : ∀ m ∈ t.ancestors n, ∀ left right k, Fork t.nodes m left right k →
      ∀ c ∈ t.ancestors n, c = left ∨ c = right → P c → P m) :
    ∀ m ∈ t.ancestors n, P m := by
  intro m hm
  induction hk : t.nodes.size - m using Nat.strongRecOn generalizing m with
  | ind k ih =>
    have hmlive := (h.store.rooted.of_mem_ancestors hn hm).1
    have hlt := Register.lt_size_of_isLive hmlive
    rcases hf m hmlive with hmleaf | ⟨left, right, j, hfork⟩
    · exact leaf m hm hmleaf
    · have hchildren : (t.node m).children = [left, right] := hfork.children
      have hne : m ≠ n := by
        rintro rfl
        simp [hchildren] at hleaf
      obtain ⟨c, hc, hcn⟩ := h.store.rooted.exists_child_mem_ancestors hn hm hne
      rw [hchildren] at hc
      have hside := List.mem_pair.mp hc
      have hstem : (t.nodes.get c).stem = some ⟨m, j⟩ := by
        rcases hside with rfl | rfl
        · exact hfork.left_stem
        · exact hfork.right_stem
      have hlt' : m < c :=
        h.store.rooted.stem_lt (h.store.rooted.of_mem_ancestors hn hcn).1 hstem
      exact fork m hm left right j hfork c hcn hside (ih _ (by omega) c hcn rfl)

/-- A line is true where formulas that add up to it are. -/
theorem eval_of_addsUp {found : List Formula} (hadds : t.addsUp i found = true)
    (hfound : ∀ φ ∈ found, φ.eval v = true) : (t.line i).formula.eval v = true := by
  obtain ⟨φ, hφ, hequivalent⟩ := List.any_eq_true.mp hadds
  rw [← Formula.comparisons_sound.1 _ _ hequivalent v]
  exact Formula.eval_conjunctions hfound hφ

/-- When all lines of one case are true, so is the line that was split into its cases. -/
theorem eval_of_case {left right m : Nat} (hsplits : t.splitsUp i left right = true)
    (hm : m = left ∨ m = right) (hcase : ∀ φ ∈ t.childFormulas i [m], φ.eval v = true) :
    (t.line i).formula.eval v = true := by
  unfold splitsUp at hsplits
  split at hsplits
  · next φ ψ hφ hψ =>
    rw [← Formula.comparisons_sound.1 _ _ hsplits v, Formula.eval, Bool.or_eq_true,
      Formula.eval_conjunction? hφ, Formula.eval_conjunction? hψ]
    rcases hm with rfl | rfl
    · exact Or.inl hcase
    · exact Or.inr hcase
  · simp at hsplits

section Walks

variable (h : Coherent t) (hf : Forked t.nodes) (hn : t.nodes.isLive n = true)
  (hleaf : (t.node n).children = []) (hopen : ∀ m ∈ t.ancestors n, (t.node m).closed = false)
  (hi : t.lines.isLive i = true) (hb : t.TrueBelow v n i)

include h hf hn hleaf hopen hi hb

/-- Down an open branch the lines that rest on a line add up to it somewhere. -/
theorem eval_of_addsUpBelow {m : Nat} {found : List Formula} (hm : m ∈ t.ancestors n)
    (hfound : ∀ φ ∈ found, φ.eval v = true)
    (hadds : t.addsUpBelow i (t.shape m) found = true) : (t.line i).formula.eval v = true := by
  have hmore : ∀ m ∈ t.ancestors n, ∀ found : List Formula, (∀ φ ∈ found, φ.eval v = true) →
      ∀ φ ∈ found ++ t.childFormulas i [m], φ.eval v = true := by
    intro m hm found hfound φ hφ
    rcases List.mem_append.mp hφ with hφ | hφ
    · exact hfound φ hφ
    · exact hb.childFormulas h hi (by simpa using hm) φ hφ
  -- What was found above is passed on, and grows on the way down.
  refine h.induction_down hf hn hleaf (P := fun m => ∀ found : List Formula,
    (∀ φ ∈ found, φ.eval v = true) → t.addsUpBelow i (t.shape m) found = true →
      (t.line i).formula.eval v = true) ?_ ?_ m hm found hfound hadds
  · intro m hm hmleaf found hfound hadds
    rw [shape_of_leaf hmleaf, addsUpBelow, hopen m hm, Bool.false_or] at hadds
    exact eval_of_addsUp hadds (hmore m hm found hfound)
  · intro m hm left right k hfork c hc hside ih found hfound hadds
    rw [h.store.rooted.shape_of_fork hfork, addsUpBelow, hopen m hm, Bool.false_or,
      Bool.or_eq_true, Bool.and_eq_true] at hadds
    rcases hadds with hhere | ⟨hleft, hright⟩
    · exact eval_of_addsUp hhere (hmore m hm found hfound)
    · apply ih _ (hmore m hm found hfound)
      rcases hside with rfl | rfl
      · exact hleft
      · exact hright

/-- Down an open branch one of the cases of a line is met. -/
theorem eval_of_splitsUpBelow {m : Nat} (hm : m ∈ t.ancestors n)
    (hsplits : t.splitsUpBelow i (t.shape m) = true) : (t.line i).formula.eval v = true := by
  refine h.induction_down hf hn hleaf (P := fun m => t.splitsUpBelow i (t.shape m) = true →
    (t.line i).formula.eval v = true) ?_ ?_ m hm hsplits
  · intro m hm hmleaf hsplits
    rw [shape_of_leaf hmleaf, splitsUpBelow, hopen m hm] at hsplits
    simp at hsplits
  · intro m hm left right k hfork c hc hside ih hsplits
    rw [h.store.rooted.shape_of_fork hfork, splitsUpBelow, hopen m hm, Bool.false_or,
      Bool.and_eq_true, Bool.or_eq_true, Bool.and_eq_true, node_shape, node_shape] at hsplits
    rcases hsplits.2 with hhere | ⟨hleft, hright⟩
    · exact eval_of_case hhere hside (hb.childFormulas h hi (by simpa using hc))
    · apply ih
      rcases hside with rfl | rfl
      · exact hleft
      · exact hright

/-- A line that was taken apart on all branches below it is true on an open one. -/
theorem eval_of_isDecomposed (hiabove : (t.line i).node ∈ t.ancestors n)
    (hj : (t.line i).formula.decompose.junction? ≠ none) (hd : t.isDecomposed i = true) :
    (t.line i).formula.eval v = true := by
  have hadds : t.addsUpBelow i (t.shape (t.line i).node) [] = true → _ :=
    eval_of_addsUpBelow h hf hn hleaf hopen hi hb hiabove (by simp)
  have hsplits := eval_of_splitsUpBelow h hf hn hleaf hopen hi hb hiabove
  unfold isDecomposed at hd
  cases hjunction : (t.line i).formula.decompose.junction? with
  | none => exact absurd hjunction hj
  | some j =>
    rw [hjunction] at hd
    cases j with
    | and => exact hadds hd
    | or => exact hsplits hd
    | iff => exact (Bool.or_eq_true_iff.mp hd).elim hsplits hadds

end Walks

/-- What was found on the branch for a line that is neither checkmarked nor single. -/
theorem exists_answers {path : List Nat} {j : Junction} (hfinished : t.unfinishedOn? path i = none)
    (hmark : (t.line i).checkmarked = false)
    (hj : (t.line i).formula.decompose.junction? = some j) :
    ∃ found, Formula.conjunction? (t.childFormulas i path) = some found ∧
      answers j (t.line i).formula found = true := by
  unfold unfinishedOn? at hfinished
  simp only [hmark, Bool.false_eq_true, if_false, hj] at hfinished
  split at hfinished
  · simp at hfinished
  · split at hfinished
    · simp at hfinished
    · split at hfinished
      · simp at hfinished
      · next found hfound =>
        split at hfinished
        · simp at hfinished
        · next hanswers => exact ⟨found, hfound, by simpa using hanswers⟩

/-- All that rests on a double negation says the same. -/
theorem Warranted.sameTruth_of_alone (hw : Warranted t) {c : Nat} {a : Formula}
    (hc : t.lines.isLive c = true) (hs : t.support c = .line i)
    (ha : (t.line i).formula.decompose = .alone a) :
    (t.line c).formula.SameTruth (t.line i).formula := by
  rcases hw i c hc hs with hequivalent | ⟨hcontains, -⟩
  · exact fun v => (Formula.comparisons_sound.1 _ _ hequivalent v).symm
  · exact Formula.sameTruth_of_contains_of_alone ha hcontains

/-- A branch that can be marked open ends in a leaf, and nothing on it is found unfinished. -/
theorem finished_of_checkOpen {x : Unit} (h : Coherent t) (hok : t.checkOpen n = .ok x) :
    (t.node n).children = [] ∧
      ∀ i, t.inAncestry n i = true → t.unfinishedOn? (t.path n) i = none := by
  unfold checkOpen at hok
  split at hok
  · simp at hok
  · next hleaf =>
    split at hok
    · simp at hok
    · dsimp only at hok
      split at hok
      · simp at hok
      · next hnone =>
        refine ⟨by simpa [Node.isLeaf] using hleaf, fun i hi => ?_⟩
        obtain ⟨hlive, habove⟩ := inAncestry_iff.mp hi
        have hhome := h.store.holding.home i hlive
        have hheld := (h.store.holding.mem_lines_iff hhome).mpr ⟨hlive, rfl⟩
        exact List.findSome?_eq_none_iff.mp hnone i
          (List.mem_flatMap.mpr ⟨_, mem_path.mpr habove, hheld⟩)

/-- A valid line on an exhausted branch is true when all lines on it are true that rest on it. -/
theorem Exhausted.eval (he : t.Exhausted n) (h : Coherent t) (hf : Forked t.nodes)
    (hw : Warranted t) (hn : t.nodes.isLive n = true) (hok : t.checkOpen n = .ok ())
    (hno : ∀ i j, (t.checkClose n i j).isOk = false) (hi : t.inAncestry n i = true)
    (hvalid : (t.line i).valid = true) (hb : t.TrueBelow (t.valuationAbove n) n i) :
    (t.line i).formula.eval (t.valuationAbove n) = true := by
  obtain ⟨hleaf, hfinished⟩ := finished_of_checkOpen h hok
  obtain ⟨hlive, habove⟩ := inAncestry_iff.mp hi
  have hmem := (h.linked.ordered.mem_iff i).mpr hlive
  have hfound := hb.childFormulas h hlive (fun m hm => mem_path.mp hm)
  cases hd : (t.line i).formula.decompose with
  | alone a =>
    cases hsigned : (t.line i).formula.signed? with
    | some sign => exact eval_valuationAbove h hno hi hvalid hsigned
    | none =>
      have hchild := he.undoubled i hmem hi hvalid (by rw [hd]; rfl) hsigned
      obtain ⟨φ, hφ⟩ := List.exists_mem_of_ne_nil _ hchild
      have htrue := hfound φ hφ
      obtain ⟨c, hc, rfl⟩ := List.mem_map.mp hφ
      obtain ⟨hclive, hs⟩ := (h.linked.mem_children_iff hlive).mp (List.mem_filter.mp hc).1
      rwa [hw.sameTruth_of_alone hclive hs hd] at htrue
  | split j l r =>
    have hj : (t.line i).formula.decompose.junction? = some j := by rw [hd]; rfl
    cases hmark : (t.line i).checkmarked with
    | true =>
      exact eval_of_isDecomposed h hf hn hleaf he.unclosed hlive hb habove (by simp [hj])
        (he.decomposed i hmem hi hvalid hmark)
    | false =>
      obtain ⟨found, hconj, hanswers⟩ := exists_answers (hfinished i hi) hmark hj
      have hentails := Formula.entails_of_answers hj hanswers
        (fun hloose => he.implied i hmem hi hvalid hmark hloose found hconj)
      exact hentails _ ((Formula.eval_conjunction? hconj _).mpr hfound)

/-- An exhausted branch that can be marked open and not be closed describes a valuation under which
all valid lines on it are true. -/
theorem Exhausted.trueAbove (he : t.Exhausted n) (h : Coherent t) (hf : Forked t.nodes)
    (hw : Warranted t) (hn : t.nodes.isLive n = true) (hok : t.checkOpen n = .ok ())
    (hno : ∀ i j, (t.checkClose n i j).isOk = false) : t.TrueAbove (t.valuationAbove n) n := by
  intro i hi hvalid hmem
  -- What rests on a line is displayed below it, so the end of the display is the base.
  induction hk : t.lines.order.length - t.lines.order.idxOf i using Nat.strongRecOn
    generalizing i with
  | ind k ih =>
    refine he.eval h hf hw hn hok hno (inAncestry_iff.mpr ⟨hi, hmem⟩) hvalid ?_
    intro c hc hs hcmem
    have hlt := (h.linked.parent c i hc hs).idxOf_lt h.linked.ordered
    have hle := List.idxOf_lt_length_of_mem ((h.linked.ordered.mem_iff c).mpr hc)
    exact ih _ (by omega) c hc ((h.linked.valid_eq_of_support hc hs).trans hvalid) hcmem rfl

/-- The root is on every way up. -/
theorem Rooted.root_mem_ancestors (h : Rooted t.nodes) (hn : t.nodes.isLive n = true) :
    root ∈ t.ancestors n := by
  induction n using Nat.strongRecOn with
  | ind n ih =>
    by_cases hroot : n = root
    · rw [ancestors_of_root (by rw [hroot]; exact h.root_stem), hroot]
      exact List.mem_singleton_self _
    · obtain ⟨s, hs, hlt⟩ := h.stem n (Register.lt_size_of_isLive hn) hroot
      rw [ancestors_of_stem hs hlt]
      exact List.mem_cons_of_mem _ (ih s.node hlt (h.parent_live n s hn hs))

def PremisesInRoot (t : Tree) : Prop :=
  ∀ i, t.lines.isLive i = true → t.support i = .premise → (t.line i).node = root

/-- Where the premises stand in the root, they are true when all valid lines on a branch are. -/
theorem PremisesInRoot.satisfiable (hp : t.PremisesInRoot) (h : Coherent t)
    (hn : t.nodes.isLive n = true) (htrue : t.TrueAbove v n) :
    Formula.Satisfiable t.premises := by
  refine ⟨v, fun φ hφ => ?_⟩
  obtain ⟨i, hi, rfl⟩ := List.mem_map.mp hφ
  obtain ⟨hmem, hs⟩ := List.mem_filter.mp hi
  have hlive := (h.linked.ordered.mem_iff i).mp hmem
  have hpremise : t.support i = .premise := of_decide_eq_true hs
  have hvalid := (h.linked.valid i hlive).mpr (.premise hpremise)
  refine htrue i hlive hvalid ?_
  rw [hp i hlive hpremise]
  exact h.store.rooted.root_mem_ancestors hn

end Reading

end Tree

end TruthTrees
