import TruthTrees.Proofs.Tree.Outcomes
import TruthTrees.Session

/-! When a command is carried out, and what it then gives. Each command is described once by what
was looked up, what was checked, what was done to the tree and what was recorded and replied. -/
namespace TruthTrees.Session

variable {s s' : Session} {reply : Reply}

theorem lineWithNumber_ok_iff {number i : Nat} :
    s.lineWithNumber number = .ok i ↔ s.tree.lines.withNumber? number = some i := by
  unfold lineWithNumber
  cases s.tree.lines.withNumber? number <;> simp

theorem nodeWithNumber_ok_iff {number n : Nat} :
    s.nodeWithNumber number = .ok n ↔ s.tree.nodes.withNumber? number = some n := by
  unfold nodeWithNumber
  cases s.tree.nodes.withNumber? number <;> simp

theorem requireNotClosed_ok_iff {n : Nat} {x : Unit} :
    s.requireNotClosed n = .ok x ↔ (s.tree.node n).closed = false := by
  unfold requireNotClosed
  split <;> simp_all

/-- A command is carried out when its attempt succeeds. -/
theorem settle_ok_iff {x : Except Refusal (Session × Reply)} :
    s.settle x = (s', .ok reply) ↔ x = .ok (s', reply) := by
  cases x <;> simp [settle, Prod.ext_iff]

/-- A command that only settles what a change gives is refused before anything is changed. -/
theorem settle_error {x : Except Refusal (Session × Reply)} {e : Refusal}
    (herror : s.settle x = (s', .error e)) : s' = s := by
  cases x with
  | ok pair => simp [settle] at herror
  | error => exact (Prod.mk.inj herror).1.symm

/-- A premise is added when it can be read and the root is not closed. -/
theorem addPremise_ok_iff {text : String} :
    s.addPremise text = .ok (s', reply) ↔
      ∃ φ i t, Formula.ofText text = .ok φ ∧ (s.tree.node Tree.root).closed = false ∧
        s.tree.addPremise φ = (i, t) ∧ reply = .line (t.lineNumber i) ∧
        s' = s.recordedTree t (.insert i) s!"add premise {φ.text} as {t.lineNumber i}" := by
  simp only [addPremise, Except.bind_ok_iff, Except.pure_ok_iff, requireNotClosed_ok_iff,
    Prod.mk.injEq]
  constructor
  · rintro ⟨φ, hφ, -, hclosed, rfl, rfl⟩
    exact ⟨φ, _, _, hφ, hclosed, rfl, rfl, rfl⟩
  · rintro ⟨φ, i, t, hφ, hclosed, ht, rfl, rfl⟩
    refine ⟨φ, hφ, (), hclosed, ?_⟩
    rw [ht]
    exact ⟨rfl, rfl⟩

/-- A line is added when it can be read and the current node is not closed. -/
theorem addLine_ok_iff {text : String} :
    s.addLine text = .ok (s', reply) ↔
      ∃ φ i t, Formula.ofText text = .ok φ ∧ (s.tree.node s.current).closed = false ∧
        s.tree.addLine s.current φ = .ok (i, t) ∧ reply = .line (t.lineNumber i) ∧
        s' = s.recordedTree t (.insert i)
          s!"add formula {φ.text} as {t.lineNumber i} in node {s.currentNumber}" := by
  simp only [addLine, Except.bind_ok_iff, Except.pure_ok_iff, requireNotClosed_ok_iff,
    Prod.mk.injEq]
  constructor
  · rintro ⟨φ, hφ, -, hclosed, ⟨i, t⟩, ht, rfl, rfl⟩
    exact ⟨φ, i, t, hφ, hclosed, ht, rfl, rfl⟩
  · rintro ⟨φ, i, t, hφ, hclosed, ht, rfl, rfl⟩
    exact ⟨φ, hφ, (), hclosed, (i, t), ht, rfl, rfl⟩

/-- A line is deleted when its number is in use and the tree lets it go. -/
theorem deleteLine_ok_iff {number : Nat} :
    s.deleteLine number = .ok (s', reply) ↔
      ∃ i t, s.tree.lines.withNumber? number = some i ∧ s.tree.deleteLine i = .ok t ∧
        reply = .done ∧ s' = s.recordedTree t (.remove i)
          s!"delete formula {number} ({(s.tree.line i).formula.text})" := by
  simp only [deleteLine, Except.bind_ok_iff, Except.pure_ok_iff, lineWithNumber_ok_iff,
    Prod.mk.injEq]
  constructor
  · rintro ⟨i, hi, t, ht, rfl, rfl⟩
    exact ⟨i, t, hi, ht, rfl, rfl⟩
  · rintro ⟨i, t, hi, ht, rfl, rfl⟩
    exact ⟨i, hi, t, ht, rfl, rfl⟩

/-- A justification is allowed when both numbers are in use and the rule holds of the lines. -/
theorem justifiable_ok_iff {child parent c p : Nat} :
    s.justifiable child parent = .ok (c, p) ↔
      s.tree.lines.withNumber? child = some c ∧ s.tree.lines.withNumber? parent = some p ∧
        s.tree.checkJustify c p = .ok () := by
  simp only [justifiable, Except.bind_ok_iff, Except.pure_ok_iff, lineWithNumber_ok_iff,
    Except.mapError_ok_iff, Prod.mk.injEq]
  constructor
  · rintro ⟨c', hc, p', hp, ⟨⟩, hcheck, rfl, rfl⟩
    exact ⟨hc, hp, hcheck⟩
  · rintro ⟨hc, hp, hcheck⟩
    exact ⟨c, hc, p, hp, (), hcheck, rfl, rfl⟩

/-- What comes of making a line rest on another one, when nothing is said about the session after a
refusal. -/
def justified (s : Session) (child parent : Nat) : Except Refusal (Session × Reply) := do
  let (c, p) ← s.justifiable child parent
  let t ← s.tree.link p c
  return (s.recordedTree t (.justify c (s.tree.line c).justification.parent? (some p))
    s!"justify {child} by {parent}", .done)

/-- A refused link leaves the tree as it was, so that a refusal leaves the session as it was. -/
theorem justify_eq_settle (s : Session) (child parent : Nat) :
    s.justify child parent = s.settle (s.justified child parent) := by
  unfold justify justified
  cases hlines : s.justifiable child parent with
  | error e => rfl
  | ok pair =>
    obtain ⟨c, p⟩ := pair
    dsimp only
    rw [Tree.tryLink_eq]
    cases hlink : s.tree.link p c with
    | error e =>
      simp only [Tree.kept, bind, Except.bind, settle, hlink]
      rfl
    | ok t => simp only [Tree.kept, bind, Except.bind, settle, hlink, pure, Except.pure]

/-- A line is justified when the justification is allowed and the lines can be linked. -/
theorem justified_ok_iff {child parent : Nat} :
    s.justified child parent = .ok (s', reply) ↔
      ∃ c p t, s.tree.lines.withNumber? child = some c ∧
        s.tree.lines.withNumber? parent = some p ∧ s.tree.checkJustify c p = .ok () ∧
        s.tree.link p c = .ok t ∧ reply = .done ∧
        s' = s.recordedTree t (.justify c (s.tree.line c).justification.parent? (some p))
          s!"justify {child} by {parent}" := by
  simp only [justified, Except.bind_ok_iff, Except.pure_ok_iff, Prod.mk.injEq]
  constructor
  · rintro ⟨⟨c, p⟩, hlines, t, ht, rfl, rfl⟩
    obtain ⟨hc, hp, hcheck⟩ := justifiable_ok_iff.mp hlines
    exact ⟨c, p, t, hc, hp, hcheck, ht, rfl, rfl⟩
  · rintro ⟨c, p, t, hc, hp, hcheck, ht, rfl, rfl⟩
    exact ⟨(c, p), justifiable_ok_iff.mpr ⟨hc, hp, hcheck⟩, t, ht, rfl, rfl⟩

/-- A line gets its checkmark when its number is in use and the rule holds. -/
theorem checkmark_ok_iff {number : Nat} :
    s.checkmark number = .ok (s', reply) ↔
      ∃ i t, s.tree.lines.withNumber? number = some i ∧ s.tree.checkmark i = .ok t ∧
        reply = .done ∧ s' = s.recordedTree t (.checkmark i true) s!"checkmark {number}" := by
  simp only [checkmark, Except.bind_ok_iff, Except.pure_ok_iff, lineWithNumber_ok_iff,
    Prod.mk.injEq]
  constructor
  · rintro ⟨i, hi, t, ht, rfl, rfl⟩
    exact ⟨i, t, hi, ht, rfl, rfl⟩
  · rintro ⟨i, t, hi, ht, rfl, rfl⟩
    exact ⟨i, hi, t, ht, rfl, rfl⟩

/-- The current node branches on a line above it, unless it is closed. -/
theorem branch_ok_iff {number : Nat} :
    s.branch number = .ok (s', reply) ↔
      ∃ i l r t, s.tree.lines.withNumber? number = some i ∧
        (s.tree.node s.current).closed = false ∧ s.tree.inAncestry s.current i = true ∧
        s.tree.branch s.current i = .ok ((l, r), t) ∧
        reply = .nodes (t.nodeNumber l) (t.nodeNumber r) ∧
        s' = s.recordedTree t (.graft s.current (l, r))
          s!"branch node {s.currentNumber} on {number} into {t.nodeNumber l} and {t.nodeNumber r}"
      := by
  simp only [branch, Except.bind_ok_iff, lineWithNumber_ok_iff, requireNotClosed_ok_iff]
  constructor
  · rintro ⟨i, hi, -, hclosed, h⟩
    split at h
    · simp at h
    · rename_i hin
      simp only [Except.bind_ok_iff, Except.pure_ok_iff, Prod.mk.injEq] at h
      obtain ⟨⟨⟨l, r⟩, t⟩, ht, rfl, rfl⟩ := h
      exact ⟨i, l, r, t, hi, hclosed, by simpa using hin, ht, rfl, rfl⟩
  · rintro ⟨i, l, r, t, hi, hclosed, hin, ht, rfl, rfl⟩
    refine ⟨i, hi, (), hclosed, ?_⟩
    rw [if_neg (by simp [hin])]
    simp only [Except.bind_ok_iff, Except.pure_ok_iff, Prod.mk.injEq]
    exact ⟨((l, r), t), ht, rfl, rfl⟩

/-- The branch below the current node is deleted when the tree lets it go. -/
theorem deleteBranch_ok_iff :
    s.deleteBranch = (s', .ok reply) ↔
      ∃ l r t, s.tree.deleteBranch s.current = (t, .ok (l, r)) ∧ reply = .done ∧
        s' = s.recordedTree t (.prune s.current (l, r))
          s!"delete branch of node {t.nodeNumber s.current}" := by
  unfold deleteBranch
  rcases h : s.tree.deleteBranch s.current with ⟨t, e | ⟨l, r⟩⟩
  · simp
  · simp only [Prod.mk.injEq, Except.ok.injEq]
    constructor
    · rintro ⟨rfl, rfl⟩
      exact ⟨l, r, t, ⟨rfl, rfl, rfl⟩, rfl, rfl⟩
    · rintro ⟨l', r', t', ⟨rfl, rfl, rfl⟩, rfl, rfl⟩
      exact ⟨rfl, rfl⟩

/-- A node becomes the current one when its number is in use. -/
theorem goTo_ok_iff {number : Nat} :
    s.goTo number = .ok (s', reply) ↔
      ∃ n, s.tree.nodes.withNumber? number = some n ∧ reply = .done ∧
        s' = s.recorded { s.sheet with current := n } (.goTo s.current n)
          s!"go to node {number}" := by
  simp only [goTo, Except.bind_ok_iff, Except.pure_ok_iff, nodeWithNumber_ok_iff, Prod.mk.injEq]
  constructor
  · rintro ⟨n, hn, rfl, rfl⟩
    exact ⟨n, hn, rfl, rfl⟩
  · rintro ⟨n, hn, rfl, rfl⟩
    exact ⟨n, hn, rfl, rfl⟩

/-- The current node is closed by two lines, unless it is closed already. -/
theorem close_ok_iff {first second : Nat} :
    s.close first second = .ok (s', reply) ↔
      ∃ i j t, s.tree.lines.withNumber? first = some i ∧
        s.tree.lines.withNumber? second = some j ∧ (s.tree.node s.current).closed = false ∧
        s.tree.close s.current i j = .ok t ∧ reply = .done ∧
        s' = s.recordedTree t (.close s.current true)
          s!"close node {s.currentNumber} by {first} and {second}" := by
  simp only [close, Except.bind_ok_iff, Except.pure_ok_iff, lineWithNumber_ok_iff,
    requireNotClosed_ok_iff, Prod.mk.injEq]
  constructor
  · rintro ⟨i, hi, j, hj, -, hclosed, t, ht, rfl, rfl⟩
    exact ⟨i, j, t, hi, hj, hclosed, ht, rfl, rfl⟩
  · rintro ⟨i, j, t, hi, hj, hclosed, ht, rfl, rfl⟩
    exact ⟨i, hi, j, hj, (), hclosed, t, ht, rfl, rfl⟩

/-- A node is reopened when it is closed. -/
theorem reopen_ok_iff {number : Nat} :
    s.reopen number = .ok (s', reply) ↔
      ∃ n, s.tree.nodes.withNumber? number = some n ∧ (s.tree.node n).closed = true ∧
        reply = .done ∧ s' = s.recordedTree (s.tree.setClosed n false) (.close n false)
          s!"reopen node {number}" := by
  simp only [reopen, Except.bind_ok_iff, nodeWithNumber_ok_iff]
  constructor
  · rintro ⟨n, hn, h⟩
    split at h
    · simp at h
    · rename_i hclosed
      obtain ⟨rfl, rfl⟩ := Prod.mk.inj (Except.pure_ok_iff.mp h)
      exact ⟨n, hn, by simpa using hclosed, rfl, rfl⟩
  · rintro ⟨n, hn, hclosed, rfl, rfl⟩
    refine ⟨n, hn, ?_⟩
    rw [if_neg (by simp [hclosed])]
    rfl

/-- The current node is marked open when the tree allows it. -/
theorem markOpen_ok_iff :
    s.markOpen = .ok (s', reply) ↔
      ∃ t, s.tree.markOpen s.current = .ok t ∧ reply = .done ∧
        s' = s.recordedTree t (.markOpen s.current true)
          s!"mark node {s.currentNumber} open" := by
  simp only [markOpen, Except.bind_ok_iff, Except.pure_ok_iff, Prod.mk.injEq]
  constructor
  · rintro ⟨t, ht, rfl, rfl⟩
    exact ⟨t, ht, rfl, rfl⟩
  · rintro ⟨t, ht, rfl, rfl⟩
    exact ⟨t, ht, rfl, rfl⟩

/-- The verdict on a closed tree changes nothing. -/
theorem checkAllClosed_ok_iff :
    s.checkAllClosed = .ok (s', reply) ↔
      s.tree.checkAllClosed s.config.requireCheckmarks = .ok () ∧ reply = .done ∧ s' = s := by
  simp only [checkAllClosed, Except.bind_ok_iff, Except.pure_ok_iff, Except.mapError_ok_iff,
    Prod.mk.injEq]
  constructor
  · rintro ⟨⟨⟩, hcheck, rfl, rfl⟩
    exact ⟨hcheck, rfl, rfl⟩
  · rintro ⟨hcheck, rfl, rfl⟩
    exact ⟨(), hcheck, rfl, rfl⟩

/-- The verdict on an open tree changes nothing. -/
theorem checkAnyOpen_ok_iff :
    s.checkAnyOpen = .ok (s', reply) ↔
      s.tree.checkAnyOpen = .ok () ∧ reply = .done ∧ s' = s := by
  simp only [checkAnyOpen, Except.bind_ok_iff, Except.pure_ok_iff, Except.mapError_ok_iff,
    Prod.mk.injEq]
  constructor
  · rintro ⟨⟨⟩, hcheck, rfl, rfl⟩
    exact ⟨hcheck, rfl, rfl⟩
  · rintro ⟨hcheck, rfl, rfl⟩
    exact ⟨(), hcheck, rfl, rfl⟩

/-- The checks only look. -/
theorem run_checkAllClosed (s : Session) : (s.run .checkAllClosed).1 = s := by
  rcases h : s.run .checkAllClosed with ⟨s', e | reply⟩
  · exact settle_error h
  · exact (checkAllClosed_ok_iff.mp (settle_ok_iff.mp h)).2.2

theorem run_checkAnyOpen (s : Session) : (s.run .checkAnyOpen).1 = s := by
  rcases h : s.run .checkAnyOpen with ⟨s', e | reply⟩
  · exact settle_error h
  · exact (checkAnyOpen_ok_iff.mp (settle_ok_iff.mp h)).2.2

end TruthTrees.Session
