import TruthTrees.Proofs.Checked.Decompositions

/-! Closing branches, marking them open and finishing the tree, checked in memory. These checks read
whole paths and whole trees, and find on a coherent tree what they would find on its shape. -/
namespace TruthTrees.Checked

noncomputable section

def setClosed (t : Tree) (n : Nat) (closed : Bool) : Option Tree :=
  modifyNode t n (fun nd => { nd with closed := closed })

def checkClose (t : Tree) (n i j : Nat) : Option (Except Violation Unit) := do
  let f ← line t i
  let g ← line t j
  let fk ← number t.lines i
  let gk ← number t.lines j
  let k ← number t.nodes n
  if !f.valid then return .error (.notValid fk)
  else if !g.valid then return .error (.notValid gk)
  else if !(← inAncestry t n i) then return .error (.outsideAncestry fk k)
  else if !(← inAncestry t n j) then return .error (.outsideAncestry gk k)
  else if (Formula.not f.formula).equivalent g.formula then return .ok ()
  else return .error (.notNegations fk gk)

def close (t : Tree) (n i j : Nat) : Attempt Tree := do
  let _ ← settled (t.liveNode n)
  let _ ← settled (t.liveLine i)
  let _ ← settled (t.liveLine j)
  obeying (checkClose t n i j)
  setClosed t n true

section

variable {t : Tree} {n : Nat}

/-- The rule for closing does no harm on a node in the tree. -/
theorem checkClose_eq (h : Tree.Rooted t.nodes) (hn : t.nodes.isLive n = true) {i j : Nat}
    (hi : i < t.lines.size) (hj : j < t.lines.size) :
    checkClose t n i j = some (t.checkClose n i j) := by
  unfold checkClose Tree.checkClose Tree.lineNumber Tree.nodeNumber
  simp only [line_eq hi, line_eq hj, number_eq hi, number_eq hj,
    number_eq (Register.lt_size_of_isLive hn), inAncestry_eq h hn hi, inAncestry_eq h hn hj,
    Option.bind_eq_bind, Option.bind_some, Option.pure_def, apply_ite some]

theorem close_eq (h : Tree.Rooted t.nodes) (n i j : Nat) :
    (close t n i j).run = some (t.close n i j) := by
  apply bind_eq rfl
  intro nd hnd
  have hn := (Tree.liveNode_ok_iff.mp hnd).1
  apply bind_eq rfl
  intro l hl
  have hi := Register.lt_size_of_isLive (Tree.liveLine_ok_iff.mp hl).1
  apply bind_eq rfl
  intro l' hl'
  have hj := Register.lt_size_of_isLive (Tree.liveLine_ok_iff.mp hl').1
  apply bind_eq (run_obeying (checkClose_eq h hn hi hj))
  intro _ _
  exact run_lift (modifyNode_eq (Register.lt_size_of_isLive hn) _)

end

def setOpen (t : Tree) (n : Nat) (isOpen : Bool) : Option Tree :=
  modifyNode t n (fun nd => { nd with markedOpen := isOpen })

def unfinishedOn? (t : Tree) (path : List Nat) (i : Nat) : Option (Option Violation) := do
  let l ← line t i
  let k ← number t.lines i
  if l.checkmarked then return none
  else if l.justification = .missing then return some (.noParent k)
  else match l.formula.decompose.junction? with
    | none => return none
    | some j =>
      if l.children.isEmpty then return some (.notDecomposed k)
      else
        let ids ← childrenIn t i path
        match Formula.conjunction? (← formulas t ids) with
        | none => return some (.notDecomposedHere k)
        | some found =>
          if !Tree.answers j l.formula found then return some (.incorrectDecomposition k)
          else if j ≠ .and && !l.branches.any path.contains then
            return some (.notDecomposedHere k)
          else return none

def checkOpen (t : Tree) (n : Nat) : Option (Except Violation Unit) := do
  let nd ← node t n
  let k ← number t.nodes n
  if !nd.isLeaf then return .error (.hasChildren k)
  else if nd.markedOpen then return .error (.alreadyOpen k)
  else
    let up ← ancestors t n
    let lines ← up.reverse.mapM (fun p => do
      let nd ← node t p
      return nd.lines)
    match ← lines.flatten.findSomeM? (unfinishedOn? t up.reverse) with
    | some v => return .error v
    | none => return .ok ()

def markOpen (t : Tree) (n : Nat) : Attempt Tree := do
  let nd ← settled (t.liveNode n)
  if nd.closed then
    let k ← number t.nodes n
    throw (.nodeClosed k)
  else
    obeying (checkOpen t n)
    setOpen t n true

section

variable {t : Tree} {n i : Nat}

theorem unfinishedOn?_eq (h : t.Linked) (hi : t.lines.isLive i = true) (path : List Nat) :
    unfinishedOn? t path i = some (t.unfinishedOn? path i) := by
  have hilt := Register.lt_size_of_isLive hi
  have hids : formulas t ((t.line i).children.filter (fun c => path.contains (t.line c).node)) =
      some (t.childFormulas i path) := formulas_eq (fun c hc =>
    h.lt_size_of_mem_children hi (List.mem_filter.mp hc).1)
  unfold unfinishedOn? Tree.unfinishedOn? Tree.lineNumber
  simp only [line_eq hilt, number_eq hilt, childrenIn_eq h hi, hids, Option.bind_eq_bind,
    Option.bind_some, Option.pure_def]
  cases (t.line i).formula.decompose.junction? with
  | none => simp only [apply_ite some]
  | some j =>
    cases Formula.conjunction? (t.childFormulas i path) with
    | none => simp only [apply_ite some]
    | some found => simp only [apply_ite some]

/-- The rule for an open branch does no harm on a node in the tree. -/
theorem checkOpen_eq (h : t.Coherent) (hn : t.nodes.isLive n = true) :
    checkOpen t n = some (t.checkOpen n) := by
  have hnlt := Register.lt_size_of_isLive hn
  have hlive : ∀ p ∈ t.path n, t.nodes.isLive p = true := fun p hp =>
    (h.store.rooted.of_mem_ancestors hn (List.mem_reverse.mp hp)).1
  have hlists : (t.path n).mapM (fun p => do
      let nd ← node t p
      return nd.lines) = some ((t.path n).map (fun p => (t.node p).lines)) := by
    apply List.mapM_eq_some
    intro p hp
    rw [node_eq (Register.lt_size_of_isLive (hlive p hp))]
    rfl
  have hfind : ((t.path n).map (fun p => (t.node p).lines)).flatten.findSomeM?
      (unfinishedOn? t (t.path n)) =
        some (((t.path n).flatMap (fun p => (t.node p).lines)).findSome?
          (t.unfinishedOn? (t.path n))) := by
    rw [← List.flatMap_def]
    apply List.findSomeM?_eq_some
    intro i hi
    obtain ⟨p, hp, hip⟩ := List.mem_flatMap.mp hi
    exact unfinishedOn?_eq h.linked ((h.store.holding.mem_lines_iff (hlive p hp)).mp hip).1 _
  unfold checkOpen Tree.checkOpen Tree.nodeNumber
  simp only [node_eq hnlt, number_eq hnlt, ancestors_eq h.store.rooted hn, Option.bind_eq_bind,
    Option.bind_some, Option.pure_def] at hlists ⊢
  rw [show (t.ancestors n).reverse = t.path n from rfl, hlists, Option.bind_some, hfind,
    Option.bind_some]
  cases ((t.path n).flatMap (fun p => (t.node p).lines)).findSome? (t.unfinishedOn? (t.path n)) with
  | none => simp only [apply_ite some]
  | some v => simp only [apply_ite some]

theorem markOpen_eq (h : t.Coherent) (n : Nat) : (markOpen t n).run = some (t.markOpen n) := by
  apply bind_eq rfl
  intro nd hnd
  obtain ⟨hn, rfl⟩ := Tree.liveNode_ok_iff.mp hnd
  have hnlt := Register.lt_size_of_isLive hn
  by_cases hclosed : (t.node n).closed = true
  · rw [if_pos hclosed, if_pos hclosed, ok_bind (run_lift (number_eq hnlt))]
    rfl
  · rw [if_neg hclosed, if_neg hclosed]
    apply bind_eq (run_obeying (checkOpen_eq h hn))
    intro _ _
    exact run_lift (modifyNode_eq hnlt _)

end

def uncheckedStem? (t : Tree) (n : Nat) : Option (Option Violation) := do
  let nd ← node t n
  match nd.branchedOn? with
  | some i =>
    let l ← line t i
    let k ← number t.lines i
    if l.checkmarked then return none else return some (.notCheckmarked k)
  | none => return none

/-- The first reason, from a node down and from the left to the right, why not all branches are
closed. -/
def unclosedStep (t : Tree) (requireCheckmarks : Bool)
    (goOn : Nat → Option (Option Violation)) (n : Nat) : Option (Option Violation) := do
  let nd ← node t n
  match ← (if requireCheckmarks then uncheckedStem? t n else some none) with
  | some v => return some v
  | none =>
    if nd.isLeaf then
      let k ← number t.nodes n
      if nd.closed then return none else return some (.notClosed k)
    else nd.children.findSomeM? goOn

def checkAllClosed (t : Tree) (requireCheckmarks : Bool) : Option (Except Violation Unit) := do
  match ← recursion (unclosedStep t requireCheckmarks) Tree.root with
  | some v => return .error v
  | none => return .ok ()

def checkAnyOpen (t : Tree) : Option (Except Violation Unit) := do
  let found ← t.nodes.order.anyM (fun n => do
    let nd ← node t n
    return nd.isLeaf && nd.markedOpen)
  if found then return .ok () else return .error .noOpenBranch

section

variable {t : Tree} {n : Nat}

theorem uncheckedStem?_eq (h : t.Store) (hn : t.nodes.isLive n = true) :
    uncheckedStem? t n = some (t.uncheckedStem? n) := by
  unfold uncheckedStem? Tree.uncheckedStem? Tree.lineNumber
  simp only [node_eq (Register.lt_size_of_isLive hn), Option.bind_eq_bind, Option.bind_some]
  cases hs : (t.node n).stem with
  | none => simp [Node.branchedOn?, hs]
  | some s =>
    have hl := h.branching.known n s hn hs
    simp only [Node.branchedOn?, hs, Option.map_some, line_eq hl, number_eq hl, Option.bind_some,
      Option.pure_def, apply_ite some]

/-- The walk over the nodes below ends at the latest when the register does. -/
theorem nested_unclosed_eq (h : t.Store) (requireCheckmarks : Bool)
    (hn : t.nodes.isLive n = true) {k : Nat} (hk : t.nodes.size - n < k) :
    nested (unclosedStep t requireCheckmarks) k n =
      some (t.unclosed? requireCheckmarks (t.shape n)) := by
  refine induction_below h.rooted (P := fun k n => nested (unclosedStep t requireCheckmarks) k n =
    some (t.unclosed? requireCheckmarks (t.shape n))) ?_ hn hk
  intro k n hn ih
  have hnlt := Register.lt_size_of_isLive hn
  have hstem : (if requireCheckmarks then uncheckedStem? t n else some none) =
      some (if requireCheckmarks then t.uncheckedStem? n else none) := by
    rw [uncheckedStem?_eq h hn]
    exact (apply_ite some _ _ _).symm
  have hchildren : (t.node n).children.findSomeM? (nested (unclosedStep t requireCheckmarks) k) =
      some ((t.node n).children.findSome?
        (fun c => t.unclosed? requireCheckmarks (t.shape c))) :=
    List.findSomeM?_eq_some (fun c hc => (ih c hc).2)
  rw [nested, unclosedStep]
  simp only [node_eq hnlt, number_eq hnlt, hstem, hchildren, Option.bind_eq_bind, Option.bind_some]
  set stem := (if requireCheckmarks then t.uncheckedStem? n else none) with hstem'
  rcases shape_cases h.rooted n with ⟨hc, hshape⟩ | ⟨c, hc, hshape⟩ | ⟨l, r, hc, hshape⟩
  · rw [hshape, Tree.unclosed?, ← hstem']
    cases stem <;> cases (t.node n).closed <;> simp [Node.isLeaf, hc, Tree.nodeNumber]
  · rw [hshape, Tree.unclosed?, ← hstem']
    cases stem <;> simp [Node.isLeaf, hc]
  · have hpair : [l, r].findSome? (fun c => t.unclosed? requireCheckmarks (t.shape c)) =
        (t.unclosed? requireCheckmarks (t.shape l)).or
          (t.unclosed? requireCheckmarks (t.shape r)) := by
      rw [List.findSome?_cons, List.findSome?_singleton]
      cases t.unclosed? requireCheckmarks (t.shape l) <;> rfl
    rw [hshape, Tree.unclosed?, ← hstem', hc, hpair]
    cases stem <;> simp [Node.isLeaf, hc]

/-- The verdict on a closed tree comes without harm. -/
theorem checkAllClosed_eq (h : t.Store) (requireCheckmarks : Bool) :
    checkAllClosed t requireCheckmarks = some (t.checkAllClosed requireCheckmarks) := by
  have hsearch : recursion (unclosedStep t requireCheckmarks) Tree.root =
      some (t.unclosed? requireCheckmarks (t.shape Tree.root)) :=
    recursion_eq _ (fun k hk => nested_unclosed_eq h requireCheckmarks h.rooted.root_live hk)
  unfold checkAllClosed Tree.checkAllClosed
  rw [hsearch, Option.bind_eq_bind, Option.bind_some]
  cases t.unclosed? requireCheckmarks (t.shape Tree.root) <;> rfl

/-- The verdict on an open tree comes without harm. -/
theorem checkAnyOpen_eq (h : t.nodes.Ordered) : checkAnyOpen t = some t.checkAnyOpen := by
  have hany : t.nodes.order.anyM (fun n => do
      let nd ← node t n
      return nd.isLeaf && nd.markedOpen) =
        some (t.nodes.order.any (fun n => (t.node n).isLeaf && (t.node n).markedOpen)) := by
    apply List.anyM_eq_some
    intro n hn
    rw [node_eq (h.lt_size hn)]
    rfl
  unfold checkAnyOpen Tree.checkAnyOpen Tree.leaves
  rw [hany, List.any_filter, Option.bind_eq_bind, Option.bind_some]
  exact (apply_ite some _ _ _).symm

end

end

end TruthTrees.Checked
