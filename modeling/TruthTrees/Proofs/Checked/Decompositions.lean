import TruthTrees.Proofs.Checked.Branches
import TruthTrees.Proofs.Tree.ClosedTrees

/-! Walks through a tree in memory, and the checks whether a line may rest on another one and
whether it was taken apart. A check follows stored indices from node to node, upwards to the root or
downwards to the leaves, and ends only if these do not go in a circle. On a coherent tree every walk
ends, as children are registered after their parents, and every check finds what it would find on
the shape of the tree. -/
namespace TruthTrees.Checked

noncomputable section

section

variable {α β : Type}

end

def ancestorsStep (t : Tree) (goOn : Nat → Option (List Nat)) (n : Nat) : Option (List Nat) := do
  let nd ← node t n
  match nd.parent? with
  | none => return [n]
  | some p =>
    let above ← goOn p
    return n :: above

def ancestors (t : Tree) : Nat → Option (List Nat) := recursion (ancestorsStep t)

def inAncestry (t : Tree) (n i : Nat) : Option Bool := do
  let l ← line t i
  if ← isLive t.lines i then
    let path ← ancestors t n
    return path.contains l.node
  else return false

section

variable {t : Tree} {n i : Nat}

/-- The walk up ends, as every node grows from an older one. -/
theorem ancestors_eq (h : Tree.Rooted t.nodes) (hn : t.nodes.isLive n = true) :
    ancestors t n = some (t.ancestors n) := by
  apply recursion_eq (n + 1)
  intro k hk
  -- A node grows from an older one, so there are no more calls than nodes up to this one.
  induction k generalizing n with
  | zero => omega
  | succ k ih =>
    rw [nested, ancestorsStep, node_eq (Register.lt_size_of_isLive hn), Option.bind_eq_bind,
      Option.bind_some]
    cases hs : (t.node n).stem with
    | none =>
      rw [Tree.ancestors_of_root hs]
      simp [Node.parent?, hs]
    | some s =>
      have hlt := h.stem_lt hn hs
      rw [Tree.ancestors_of_stem hs hlt]
      simp [Node.parent?, hs, ih (h.parent_live n s hn hs) (by omega)]

theorem inAncestry_eq (h : Tree.Rooted t.nodes) (hn : t.nodes.isLive n = true)
    (hi : i < t.lines.size) : inAncestry t n i = some (t.inAncestry n i) := by
  unfold inAncestry Tree.inAncestry
  simp only [line_eq hi, isLive_eq hi, ancestors_eq h hn, Option.bind_eq_bind, Option.bind_some]
  cases t.lines.isLive i <;> rfl

/-- Children are registered after their parents. -/
theorem bounds_of_mem_children (h : Tree.Rooted t.nodes) {m : Nat}
    (hm : m ∈ (t.node n).children) : t.nodes.isLive m = true ∧ n < m ∧ m < t.nodes.size := by
  obtain ⟨hlive, hparent⟩ := h.mem_children_iff.mp hm
  obtain ⟨s, hs, rfl⟩ := Option.map_eq_some_iff.mp hparent
  exact ⟨hlive, h.stem_lt hlive hs, Register.lt_size_of_isLive hlive⟩

/-- What one call at a node finds out from calls at its children is found out at every node, with as
many calls as there are nodes from this one on. -/
theorem induction_below (h : Tree.Rooted t.nodes) {P : Nat → Nat → Prop}
    (step : ∀ k n, t.nodes.isLive n = true →
      (∀ m ∈ (t.node n).children, t.nodes.isLive m = true ∧ P k m) → P (k + 1) n)
    (hn : t.nodes.isLive n = true) {k : Nat} (hk : t.nodes.size - n < k) : P k n := by
  induction k generalizing n with
  | zero => omega
  | succ k ih =>
    apply step k n hn
    intro m hm
    obtain ⟨hlive, hlt, hsize⟩ := bounds_of_mem_children h hm
    exact ⟨hlive, ih hlive (by omega)⟩

/-- A node of a rooted tree has no child, one child or two. -/
theorem shape_cases (h : Tree.Rooted t.nodes) (n : Nat) :
    ((t.node n).children = [] ∧ t.shape n = .leaf n) ∨
      (∃ c, (t.node n).children = [c] ∧ t.shape n = .single n (t.shape c)) ∨
      ∃ l r, (t.node n).children = [l, r] ∧ t.shape n = .fork n (t.shape l) (t.shape r) := by
  have hchild : ∀ m ∈ (t.node n).children, n < m ∧ m < t.nodes.size :=
    fun m hm => (bounds_of_mem_children h hm).2
  have htwo : (t.node n).children.length ≤ 2 := h.children_le n
  rcases hchildren : (t.node n).children with _ | ⟨l, _ | ⟨r, _ | ⟨m, rest⟩⟩⟩
  · exact Or.inl ⟨rfl, Tree.shape_of_leaf hchildren⟩
  · refine Or.inr (Or.inl ⟨l, rfl, ?_⟩)
    rw [Tree.shape, hchildren]
    exact if_pos (hchild l (by simp [hchildren]))
  · refine Or.inr (Or.inr ⟨l, r, rfl, ?_⟩)
    rw [Tree.shape, hchildren]
    exact if_pos ⟨hchild l (by simp [hchildren]), hchild r (by simp [hchildren])⟩
  · rw [hchildren] at htwo
    simp at htwo

end

def childrenIn (t : Tree) (i : Nat) (nodes : List Nat) : Option (List Nat) := do
  let l ← line t i
  l.children.filterM (fun c => do
    let child ← line t c
    return nodes.contains child.node)

def formulas (t : Tree) (ids : List Nat) : Option (List Formula) :=
  ids.mapM (fun c => do
    let l ← line t c
    return l.formula)

section

variable {t : Tree} {i : Nat}

theorem childrenIn_eq (h : t.Linked) (hi : t.lines.isLive i = true) (nodes : List Nat) :
    childrenIn t i nodes =
      some ((t.line i).children.filter (fun c => nodes.contains (t.line c).node)) := by
  rw [childrenIn, line_eq (Register.lt_size_of_isLive hi), Option.bind_eq_bind, Option.bind_some]
  apply List.filterM_eq_some
  intro c hc
  rw [line_eq (h.lt_size_of_mem_children hi hc)]
  rfl

theorem formulas_eq {ids : List Nat} (h : ∀ c ∈ ids, c < t.lines.size) :
    formulas t ids = some (ids.map (fun c => (t.line c).formula)) := by
  apply List.mapM_eq_some
  intro c hc
  rw [line_eq (h c hc)]
  rfl

end

def checkJustify (t : Tree) (child parent : Nat) : Option (Except Violation Unit) := do
  let c ← line t child
  let p ← line t parent
  let cn ← number t.lines child
  let pn ← number t.lines parent
  if c.justification = .premise then return .error (.premiseNeedsNoParent cn)
  else if cn ≤ pn then return .error (.childBeforeParent cn pn)
  else if p.formula.equivalent c.formula then return .ok ()
  else if !p.formula.contains c.formula then return .error (.doesNotDecompose cn pn)
  else if Tree.needsBranch p.formula c.formula then
    let nd ← node t c.node
    match nd.branchedOn? with
    | none => return .error (.decomposedIntoRoot pn)
    | some i => if i = parent then return .ok () else return .error (.wrongBranch cn pn)
  else return .ok ()

/-- The rule for a justification does no harm on two lines in the tree. -/
theorem checkJustify_eq {t : Tree} (h : t.Store) {c p : Nat} (hc : t.lines.isLive c = true)
    (hp : t.lines.isLive p = true) : checkJustify t c p = some (t.checkJustify c p) := by
  have hclt := Register.lt_size_of_isLive hc
  have hplt := Register.lt_size_of_isLive hp
  have hn := Register.lt_size_of_isLive (h.holding.home c hc)
  unfold checkJustify Tree.checkJustify Tree.lineNumber
  simp only [line_eq hclt, line_eq hplt, number_eq hclt, number_eq hplt, node_eq hn,
    Option.bind_eq_bind, Option.bind_some, Option.pure_def, apply_ite some]
  cases (t.node (t.line c).node).branchedOn? with
  | none => rfl
  | some i => simp only [apply_ite some]

/-- Whether the formulas up to some place in a list of lines, after what was found before, add up to
a formula. -/
def addsUpFrom (t : Tree) (target : Formula) : Option Formula → List Nat → Option Bool
  | _, [] => some false
  | found, c :: rest => do
    let l ← line t c
    let next := match found with
      | none => l.formula
      | some φ => .and φ l.formula
    if next.equivalent target then return true
    else addsUpFrom t target (some next) rest

/-- Whether on every branch from a node on that does not meet a closed node the lines that rest on a
line add up to it. The list holds what was found above. -/
def addsUpStep (t : Tree) (i : Nat) (goOn : Nat × List Nat → Option Bool) :
    Nat × List Nat → Option Bool
  | (n, found) => do
    let nd ← node t n
    if nd.closed then return true
    else
      let l ← line t i
      let here ← childrenIn t i [n]
      if ← addsUpFrom t l.formula none (found ++ here) then return true
      else if nd.isLeaf then return false
      else nd.children.allM (fun c => goOn (c, found ++ here))

/-- The formulas of those lines of a list that are held by one of two nodes, unless one of them
stands on a branch that was not grown from the given line. -/
def sides (t : Tree) (i left right : Nat) :
    List Nat → Option (Option (List Formula × List Formula))
  | [] => some (some ([], []))
  | c :: rest => do
    let l ← line t c
    if l.node ≠ left ∧ l.node ≠ right then sides t i left right rest
    else
      let nd ← node t l.node
      if nd.branchedOn? ≠ some i then return none
      else
        match ← sides t i left right rest with
        | none => return none
        | some (ls, rs) =>
          if l.node = left then return some (l.formula :: ls, rs)
          else return some (ls, l.formula :: rs)

def areCases (ls rs : List Formula) (φ : Formula) : Bool :=
  match Formula.conjunction? ls, Formula.conjunction? rs with
  | some l, some r => (Formula.or l r).equivalent φ
  | _, _ => false

def splitsUpStep (t : Tree) (i : Nat) (goOn : Nat → Option Bool) (n : Nat) : Option Bool := do
  let nd ← node t n
  if nd.closed then return true
  else match nd.children with
    | [left, right] =>
      let l ← line t i
      match ← sides t i left right l.children with
      | none => return false
      | some (ls, rs) =>
        if areCases ls rs l.formula then return true
        else if ← goOn left then goOn right
        else return false
    | _ => return false

def isDecomposed (t : Tree) (i : Nat) : Option Bool := do
  let l ← line t i
  match l.formula.decompose.junction? with
  | none => return true
  | some .and => recursion (addsUpStep t i) (l.node, [])
  | some .or => recursion (splitsUpStep t i) l.node
  | some .iff =>
    if ← recursion (splitsUpStep t i) l.node then return true
    else recursion (addsUpStep t i) (l.node, [])

def checkCheckmark (t : Tree) (i : Nat) : Option (Except Violation Unit) := do
  let l ← line t i
  let k ← number t.lines i
  if l.checkmarked then return .error (.alreadyCheckmarked k)
  else if ← isDecomposed t i then return .ok ()
  else return .error (.incompleteDecomposition k)

def obeying (check : Option (Except Violation Unit)) : Attempt Unit := do
  let outcome ← check
  settled (outcome.mapError .violation)

def checkmark (t : Tree) (i : Nat) : Attempt Tree := do
  let _ ← settled (t.liveLine i)
  obeying (checkCheckmark t i)
  setCheckmarked t i true

section

variable {t : Tree} {i n : Nat}

theorem conjunctionsFrom_eq_cons (φ : Formula) (φs : List Formula) :
    Formula.conjunctionsFrom φ φs = φ :: (Formula.conjunctionsFrom φ φs).tail := by
  cases φs <;> rfl

/-- The running conjunction is compared with the target after each line that it takes in. -/
theorem addsUpFrom_some_eq {ids : List Nat} (h : ∀ c ∈ ids, c < t.lines.size) (target φ : Formula) :
    addsUpFrom t target (some φ) ids =
      some ((Formula.conjunctionsFrom φ (ids.map (fun c => (t.line c).formula))).tail.any
        (fun ψ => ψ.equivalent target)) := by
  induction ids generalizing φ with
  | nil => rfl
  | cons c ids ih =>
    rw [addsUpFrom, line_eq (h c (by simp)), List.map_cons, Formula.conjunctionsFrom,
      List.tail_cons, conjunctionsFrom_eq_cons, List.any_cons]
    simp only [Option.bind_eq_bind, Option.bind_some, ih (fun j hj => h j (by simp [hj]))]
    cases ((φ.and (t.line c).formula).equivalent target) <;> simp

theorem addsUpFrom_none_eq {ids : List Nat} (h : ∀ c ∈ ids, c < t.lines.size) :
    addsUpFrom t (t.line i).formula none ids =
      some (t.addsUp i (ids.map (fun c => (t.line c).formula))) := by
  cases ids with
  | nil => rfl
  | cons c ids =>
    have hrest : ∀ j ∈ ids, j < t.lines.size := fun j hj => h j (by simp [hj])
    rw [addsUpFrom, line_eq (h c (by simp)), List.map_cons, Tree.addsUp, Formula.conjunctions,
      conjunctionsFrom_eq_cons, List.any_cons]
    simp only [Option.bind_eq_bind, Option.bind_some, addsUpFrom_some_eq hrest]
    cases ((t.line c).formula.equivalent (t.line i).formula) <;> simp

/-- The walk down ends at the latest when the register does. -/
theorem nested_addsUp_eq (h : t.Coherent) (hi : t.lines.isLive i = true)
    (hn : t.nodes.isLive n = true) {k : Nat} (hk : t.nodes.size - n < k) {found : List Nat}
    (hfound : ∀ c ∈ found, c < t.lines.size) : nested (addsUpStep t i) k (n, found) =
      some (t.addsUpBelow i (t.shape n) (found.map (fun c => (t.line c).formula))) := by
  refine induction_below h.store.rooted (P := fun k n => ∀ found, (∀ c ∈ found, c < t.lines.size) →
    nested (addsUpStep t i) k (n, found) = some (t.addsUpBelow i (t.shape n)
      (found.map (fun c => (t.line c).formula)))) ?_ hn hk found hfound
  intro k n hn ih found hfound
  set here := (t.line i).children.filter (fun c => [n].contains (t.line c).node) with hhere
  have hknown : ∀ c ∈ found ++ here, c < t.lines.size := by
    intro c hc
    rcases List.mem_append.mp hc with hc | hc
    · exact hfound c hc
    · exact h.linked.lt_size_of_mem_children hi (List.mem_filter.mp hc).1
  have hformulas : (found ++ here).map (fun c => (t.line c).formula) =
      found.map (fun c => (t.line c).formula) ++ t.childFormulas i [n] := List.map_append
  set all := found.map (fun c => (t.line c).formula) ++ t.childFormulas i [n] with hall
  have hchildren : (t.node n).children.allM
      (fun c => nested (addsUpStep t i) k (c, found ++ here)) =
        some ((t.node n).children.all (fun c => t.addsUpBelow i (t.shape c) all)) := by
    apply List.allM_eq_some
    intro c hc
    rw [(ih c hc).2 _ hknown, hformulas]
  have hstep : nested (addsUpStep t i) (k + 1) (n, found) = some ((t.node n).closed ||
      (t.addsUp i all || (!(t.node n).isLeaf &&
        (t.node n).children.all (fun c => t.addsUpBelow i (t.shape c) all)))) := by
    rw [nested, addsUpStep]
    simp only [node_eq (Register.lt_size_of_isLive hn), line_eq (Register.lt_size_of_isLive hi),
      childrenIn_eq h.linked hi, ← hhere, addsUpFrom_none_eq hknown, hformulas, hchildren,
      Option.bind_eq_bind, Option.bind_some]
    cases (t.node n).closed <;> cases t.addsUp i all <;> cases (t.node n).isLeaf <;> simp
  rw [hstep]
  rcases shape_cases h.store.rooted n with ⟨hc, hshape⟩ | ⟨c, hc, hshape⟩ | ⟨l, r, hc, hshape⟩
  · simp [hshape, Tree.addsUpBelow, Node.isLeaf, hc, hall]
  · simp [hshape, Tree.addsUpBelow, Node.isLeaf, hc, hall, Bool.or_assoc]
  · simp [hshape, Tree.addsUpBelow, Node.isLeaf, hc, hall, Bool.or_assoc]

theorem sides_eq {left right : Nat} (hne : left ≠ right) {ids : List Nat}
    (hlines : ∀ c ∈ ids, c < t.lines.size) (hnodes : ∀ c ∈ ids, (t.line c).node < t.nodes.size) :
    sides t i left right ids = some (
      if ids.all (fun c => !((t.line c).node = left || (t.line c).node = right) ||
        (t.node (t.line c).node).branchedOn? = some i) then
        some ((ids.filter (fun c => [left].contains (t.line c).node)).map
            (fun c => (t.line c).formula),
          (ids.filter (fun c => [right].contains (t.line c).node)).map
            (fun c => (t.line c).formula))
      else none) := by
  induction ids with
  | nil => rfl
  | cons c ids ih =>
    have hrest := ih (fun j hj => hlines j (by simp [hj])) (fun j hj => hnodes j (by simp [hj]))
    rw [sides, line_eq (hlines c (by simp)), List.all_cons]
    simp only [Option.bind_eq_bind, Option.bind_some, node_eq (hnodes c (by simp)), hrest]
    generalize ids.all _ = owned
    by_cases hside : (t.line c).node ≠ left ∧ (t.line c).node ≠ right
    · simp [hside.1, hside.2]
    · by_cases howns : (t.node (t.line c).node).branchedOn? = some i
      · by_cases hl : (t.line c).node = left
        · cases owned <;> simp_all
        · cases owned <;> simp_all
      · by_cases hl : (t.line c).node = left <;> simp_all

/-- The walk down for a split ends at the latest when the register does. -/
theorem nested_splitsUp_eq (h : t.Coherent) (hi : t.lines.isLive i = true)
    (hn : t.nodes.isLive n = true) {k : Nat} (hk : t.nodes.size - n < k) :
    nested (splitsUpStep t i) k n = some (t.splitsUpBelow i (t.shape n)) := by
  refine induction_below h.store.rooted (P := fun k n =>
    nested (splitsUpStep t i) k n = some (t.splitsUpBelow i (t.shape n))) ?_ hn hk
  intro k n hn ih
  rw [nested, splitsUpStep]
  simp only [node_eq (Register.lt_size_of_isLive hn), Option.bind_eq_bind, Option.bind_some]
  rcases shape_cases h.store.rooted n with ⟨hc, hshape⟩ | ⟨c, hc, hshape⟩ | ⟨l, r, hc, hshape⟩
  · cases hclosed : (t.node n).closed <;> simp [hshape, Tree.splitsUpBelow, hc, hclosed]
  · cases hclosed : (t.node n).closed <;> simp [hshape, Tree.splitsUpBelow, hc, hclosed]
  · have hne := (h.store.rooted.pair hc).ne
    have hl := (ih l (by simp [hc])).2
    have hr := (ih r (by simp [hc])).2
    have hsides : sides t i l r (t.line i).children = some (if t.ownsBranches i l r then
        some (t.childFormulas i [l], t.childFormulas i [r]) else none) := by
      apply sides_eq hne
      · exact fun c hc => h.linked.lt_size_of_mem_children hi hc
      · intro c hc
        have hlive := ((h.linked.mem_children_iff hi).mp hc).1
        exact Register.lt_size_of_isLive (h.store.holding.home c hlive)
    rw [hshape, Tree.splitsUpBelow, Tree.node_shape, Tree.node_shape]
    simp only [hc, line_eq (Register.lt_size_of_isLive hi), hsides, Option.bind_some, hl, hr]
    have hcases : areCases (t.childFormulas i [l]) (t.childFormulas i [r]) (t.line i).formula =
        t.splitsUp i l r := rfl
    cases (t.node n).closed
    · cases t.ownsBranches i l r
      · rfl
      · simp only [if_true, hcases]
        cases t.splitsUp i l r <;> cases t.splitsUpBelow i (t.shape l) <;> rfl
    · rfl

/-- Whether a line in the tree has been decomposed is found without harm. -/
theorem isDecomposed_eq (h : t.Coherent) (hi : t.lines.isLive i = true) :
    isDecomposed t i = some (t.isDecomposed i) := by
  have hn := h.store.holding.home i hi
  have hadds : recursion (addsUpStep t i) ((t.line i).node, []) =
      some (t.addsUpBelow i (t.shape (t.line i).node) []) :=
    recursion_eq _ (fun k hk => nested_addsUp_eq h hi hn hk (by simp))
  have hsplits : recursion (splitsUpStep t i) (t.line i).node =
      some (t.splitsUpBelow i (t.shape (t.line i).node)) :=
    recursion_eq _ (fun k hk => nested_splitsUp_eq h hi hn hk)
  unfold isDecomposed Tree.isDecomposed
  simp only [line_eq (Register.lt_size_of_isLive hi), hadds, hsplits, Option.bind_eq_bind,
    Option.bind_some]
  rcases (t.line i).formula.decompose.junction? with _ | _ | _ | _
  · rfl
  · rfl
  · rfl
  · cases t.splitsUpBelow i (t.shape (t.line i).node) <;> rfl

theorem checkCheckmark_eq (h : t.Coherent) (hi : t.lines.isLive i = true) :
    checkCheckmark t i = some (t.checkCheckmark i) := by
  have hilt := Register.lt_size_of_isLive hi
  unfold checkCheckmark Tree.checkCheckmark Tree.lineNumber
  simp only [line_eq hilt, number_eq hilt, isDecomposed_eq h hi, Option.bind_eq_bind,
    Option.bind_some, Option.pure_def, apply_ite some]

theorem run_obeying {check : Option (Except Violation Unit)} {outcome : Except Violation Unit}
    (h : check = some outcome) : (obeying check).run = some (outcome.mapError .violation) := by
  unfold obeying
  rw [ok_bind (run_lift h)]
  rfl

theorem checkmark_eq (h : t.Coherent) (i : Nat) : (checkmark t i).run = some (t.checkmark i) := by
  apply bind_eq rfl
  intro l hl
  have hi := (Tree.liveLine_ok_iff.mp hl).1
  apply bind_eq (run_obeying (checkCheckmark_eq h hi))
  intro _ _
  exact run_lift (setCheckmarked_eq (Register.lt_size_of_isLive hi)
    (fun c hc => h.linked.lt_size_of_mem_children hi hc) true)

end

end

end TruthTrees.Checked
