import TruthTrees.Proofs.Session.Timeline

/-! What the lines of a session rest on. However a session came about, the links between its lines
can be read in both directions, every link passes the check that it was made with, and the marks
that are passed on along the links are what following them would give. -/
namespace TruthTrees

namespace Tree

def chainEndsWithin (t : Tree) : Nat → Nat → Bool
  | 0, _ => false
  | k + 1, i =>
    match (t.line i).justification with
    | .line p => t.chainEndsWithin k p
    | .missing | .premise => true

/-- What can be relied on in the links between the live lines of a tree. -/
structure WellJustified (t : Tree) : Prop where
  parent_iff : ∀ c p, t.lines.isLive c = true → ((t.line c).justification = .line p ↔
    t.lines.isLive p = true ∧ (t.line p).children.count c = 1)
  children : ∀ p, t.lines.isLive p = true → ListsByNumber t.lines (t.line p).children
    (fun c => t.lines.isLive c = true ∧ (t.line c).justification = .line p)
  passes : ∀ c p, t.lines.isLive c = true → (t.line c).justification = .line p →
    t.checkJustify c p = .ok ()
  above : ∀ c p, t.lines.isLive c = true → (t.line c).justification = .line p →
    t.lineNumber p < t.lineNumber c
  acyclic : ∀ i, t.lines.isLive i = true → ¬ RestsOn t.support i i
  valid_iff : ∀ i, t.lines.isLive i = true → ((t.line i).valid = true ↔ Grounded t.support i)
  valid_eq : ∀ i, t.lines.isLive i = true → (t.line i).valid = t.restsOnPremise i
  chain_ends : ∀ i, t.lines.isLive i = true → t.chainEndsWithin (t.lines.size + 1) i = true
  marked : ∀ c p, t.lines.isLive c = true → (t.line c).justification = .line p →
    (t.line c).parentCheckmarked = (t.line p).checkmarked

section Descending

variable {t : Tree} {i j : Nat}

/-- A chain goes up in the display, so the place of its first line bounds its length. -/
theorem Descending.chainEndsWithin (h : t.Descending) {k : Nat} (hi : t.lines.isLive i = true)
    (hk : t.lines.order.idxOf i < k) : t.chainEndsWithin k i = true := by
  induction k generalizing i with
  | zero => exact absurd hk (Nat.not_lt_zero _)
  | succ k ih =>
    rw [Tree.chainEndsWithin]
    split
    · rename_i p hp
      have hbefore := h.parent i p hi hp
      have hlt := hbefore.idxOf_lt h.ordered
      exact ih (hbefore.left_live h.ordered) (by omega)
    · rfl
    · rfl

end Descending

/-- The children of a line are listed by their numbers. -/
theorem Threaded.listsByNumber {t : Tree} (h : Threaded t) {p : Nat}
    (hp : t.lines.isLive p = true) : ListsByNumber t.lines (t.line p).children
      (fun c => t.lines.isLive c = true ∧ (t.line c).justification = .line p) := by
  rw [h.children p hp]
  exact listsByNumber_filter h.ordered (fun c => beq_iff_eq)

/-- A line is listed once by the line that justifies it, and by no other. -/
theorem Threaded.count_children {t : Tree} (h : Threaded t) {c p : Nat}
    (hc : t.lines.isLive c = true) (hp : t.lines.isLive p = true) :
    (t.line p).children.count c = 1 ↔ t.support c = .line p := by
  constructor
  · intro hcount
    have hmem : c ∈ (t.line p).children := List.count_pos_iff.mp (by omega)
    exact ((h.mem_children_iff hp).mp hmem).2
  · intro hs
    rw [h.children p hp, List.count_filter (by simpa using hs), count_order h.ordered, if_pos hc]

end Tree

/-- All that the links of a coherent sheet promise. -/
theorem Sheet.Coherent.wellJustified {s : Sheet} (h : s.Coherent) : s.tree.WellJustified := by
  have hlinked := h.tree.linked
  have habove : ∀ c p, s.tree.lines.isLive c = true → s.tree.support c = .line p →
      s.tree.lines.isLive p = true ∧ s.tree.lineNumber p < s.tree.lineNumber c := by
    intro c p hc hp
    have hbefore := hlinked.parent c p hc hp
    have hlive := hbefore.left_live hlinked.ordered
    exact ⟨hlive, (hlinked.ordered.number_lt_iff hlive hc).mpr hbefore⟩
  constructor
  case parent_iff =>
    intro c p hc
    constructor
    · intro hp
      obtain ⟨hlive, -⟩ := habove c p hc hp
      exact ⟨hlive, (hlinked.count_children hc hlive).mpr hp⟩
    · rintro ⟨hlive, hcount⟩
      exact (hlinked.count_children hc hlive).mp hcount
  case children => exact fun p hp => hlinked.listsByNumber hp
  case passes =>
    intro c p hc hp
    have hpremise : s.tree.support c ≠ .premise := by simp [show s.tree.support c = _ from hp]
    exact Tree.checkJustify_ok_iff.mpr ⟨hpremise, (habove c p hc hp).2, h.warranted p c hc hp⟩
  case above => exact fun c p hc hp => (habove c p hc hp).2
  case acyclic => exact hlinked.irrefl
  case valid_iff => exact hlinked.valid
  case valid_eq => exact fun i hi => (hlinked.restsOnPremise_eq hi).symm
  case chain_ends =>
    intro i hi
    apply hlinked.chainEndsWithin hi
    have hlt := List.idxOf_lt_length_of_mem ((hlinked.ordered.mem_iff i).mpr hi)
    have hle := hlinked.ordered.length_le_size
    omega
  case marked => exact fun c p hc hp => hlinked.mirrored c p hc hp

namespace Session

/-- However a session came about, the links between its lines can be relied on. -/
theorem wellJustified_of_reachable {config : Config} {s : Session} (hs : Reachable config s) :
    s.tree.WellJustified := by
  obtain ⟨-, past, future, htimeline⟩ := hs.timeline
  exact htimeline.coherent.wellJustified

/-- A line that rests on the first premise is deleted together with its branch and brought back, and
another line is made to rest on the second premise, twice. -/
theorem wellJustified_of_reachable_branch :
    let s := (start {}).runAll [.addPremise "or(a,b)", .addPremise "or(c,a)", .branch 1, .goTo 2,
      .addLine "a", .justify 3 1, .goTo 1, .deleteBranch, .undo, .checkmark 3, .addLine "or(a,c)",
      .justify 4 2, .undo, .redo]
    s.tree.WellJustified ∧ (s.tree.line 2).justification = .line 0 ∧
      (s.tree.line 3).justification = .line 1 ∧ (s.tree.line 1).children = [3] := by
  intro s
  have hs : Reachable {} s := reachable_iff_exists_runAll.mpr ⟨_, rfl⟩
  exact ⟨wellJustified_of_reachable hs, by decide +kernel⟩

end Session

end TruthTrees
