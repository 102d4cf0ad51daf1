import TruthTrees.Proofs.Session.Invariants
import TruthTrees.Proofs.Tree.Survival

/-! What deleting a line changes, and what it leaves alone. The line leaves the display and the node
that holds it; the line that it rested on loses a child and its checkmark; the lines that rested on
it rest on nothing; and whatever came from a premise through it comes from none. Nothing else is
different afterwards. -/
namespace TruthTrees

namespace Tree

def LosesCheckmark (t u : Tree) (i : Nat) : Prop :=
  (t.line i).checkmarked = true ∧ (u.line i).checkmarked = false

section WithoutLine

variable {t : Tree} {i : Nat}

/-- The note on a line says whether the line it rests on has a checkmark. -/
theorem Linked.parentCheckmarked_iff (h : Linked t) {j : Nat} (hj : t.lines.isLive j = true) :
    (t.line j).parentCheckmarked = true ↔
      ∃ p, t.support j = .line p ∧ (t.line p).checkmarked = true := by
  rw [h.marked j hj]
  cases t.support j <;> simp [Justification.parent?]

/-- Whether a line knows of a checkmark after a deletion is told by what it rested on, and by
whether that has lost its checkmark. -/
theorem Shed.parentCheckmarked {u : Tree} {gone : List Nat} {j : Nat} (hshed : Shed t u gone)
    (ht : Linked t) (hu : Linked u) (hj : u.lines.isLive j = true) :
    (u.line j).parentCheckmarked = true ↔ (t.line j).parentCheckmarked = true ∧
      ∀ p, t.support j = .line p → p ∉ gone ∧ ¬ LosesCheckmark t u p := by
  rw [hu.parentCheckmarked_iff hj, ht.parentCheckmarked_iff ((hshed.isLive j).mp hj).2]
  constructor
  · rintro ⟨p, hp, hmark⟩
    obtain ⟨hpt, hgone⟩ := (hshed.parent j p hj).mp hp
    have hmarkt := ((hshed.checkmarked p (hu.parent_live j p hj hp)).mp hmark).1
    refine ⟨⟨p, hpt, hmarkt⟩, ?_⟩
    intro q hq
    obtain rfl : p = q := by simpa [hpt] using hq
    exact ⟨hgone, fun hloses => Bool.false_ne_true (hloses.2.symm.trans hmark)⟩
  · rintro ⟨⟨p, hpt, hmark⟩, hkeeps⟩
    obtain ⟨hgone, hloses⟩ := hkeeps p hpt
    have hmarku : (u.line p).checkmarked = true := by
      by_contra hnot
      exact hloses ⟨hmark, by simpa using hnot⟩
    exact ⟨p, (hshed.parent j p hj).mpr ⟨hpt, hgone⟩, hmarku⟩

/-- No other node lists the line that goes. -/
theorem Holding.not_mem_lines (h : Holding t) (hi : t.lines.isLive i = true) {n : Nat}
    (hn : n ≠ (t.line i).node) : i ∉ (t.node n).lines := by
  intro hmem
  by_cases hlive : t.nodes.isLive n = true
  · exact hn ((h.mem_lines_iff hlive).mp hmem).2.symm
  · exact (h.stowed n hlive).dead i hmem hi

theorem Store.node_withoutLine (h : Store t) (hi : t.lines.isLive i = true) (n : Nat) :
    (t.withoutLine i).node n =
      { t.node n with lines := (t.node n).lines.filter (· ≠ i) } := by
  have hhome := Register.lt_size_of_isLive (h.holding.home i hi)
  unfold node
  rw [nodes_withoutLine, Register.get_modify]
  split
  · rfl
  · rename_i hother
    have hn : n ≠ (t.line i).node := by
      rintro rfl
      exact hother ⟨rfl, hhome⟩
    have hkeep : (t.node n).lines.filter (· ≠ i) = (t.node n).lines := by
      rw [List.filter_eq_self]
      intro k hk
      have hki : k ≠ i := fun hki => h.holding.not_mem_lines hi hn (hki ▸ hk)
      simpa using hki
    exact congrArg (fun lines => { t.node n with lines := lines }) hkeep.symm

end WithoutLine

end Tree

namespace Session

variable {config : Config} {s : Session}

end Session

end TruthTrees
