import TruthTrees.Proofs.Session.Timeline
import TruthTrees.Proofs.Tree.Rearrangements

/-! The order in which the lines that rest on a line were entered and justified. The lines that rest
on a line are folded into one conjunction in the order of the display. For plain formulas, and where
only two formulas are folded, this order does not change what the rules find: neither whether a line
can be checkmarked, nor whether a branch can be marked open. For other formulas it does. -/
namespace TruthTrees

/-- A list that is folded in two orders says the same before a formula that does not see the order.
-/
theorem Formula.map_equivalent_of_perm {xs ys : List Formula} {f : Formula} (hperm : xs.Perm ys)
    (hf : f.Plain ∨ xs.length ≤ 2) :
    (conjunction? xs).map (·.equivalent f) = (conjunction? ys).map (·.equivalent f) := by
  cases hS : conjunction? xs with
  | none =>
    cases hS' : conjunction? ys with
    | none => rfl
    | some S' =>
      obtain ⟨S, hS''⟩ := exists_conjunction?_of_perm hperm.symm hS'
      simp [hS] at hS''
  | some S =>
    obtain ⟨S', hS'⟩ := exists_conjunction?_of_perm hperm hS
    have hf' : f.Plain ∨ ys.length ≤ 2 := hperm.length_eq ▸ hf
    rw [hS', Option.map_some, Option.map_some, Option.some.injEq, Bool.eq_iff_iff]
    exact ⟨equivalent_of_perm hperm hS hS' hf, equivalent_of_perm hperm.symm hS' hS hf'⟩

/-- A line contains what the lines say that rest on it. -/
theorem Sheet.Coherent.contains_childViews {s : Sheet} (h : s.Coherent) {i : Nat}
    (hi : s.tree.lines.isLive i = true) :
    ∀ c ∈ s.tree.childViews i, (s.tree.line i).formula.contains c.formula = true := by
  intro v hv
  obtain ⟨c, hc, rfl⟩ := List.mem_map.mp hv
  obtain ⟨hlive, hs⟩ := (h.tree.linked.mem_children_iff hi).mp hc
  rcases h.warranted i c hlive hs with hequivalent | ⟨hcontains, -⟩
  · exact Formula.contains_of_equivalent (Formula.equivalent_symm hequivalent)
  · exact hcontains

namespace Session

/-- Formulas that are folded in another order say the same before a plain formula, and whenever
there are at most two of them. So in two trees that differ in the order of the lines that rest on
other lines, the same lines can be checkmarked and the same branches marked open, as far as the
formulas do not see this order. -/
theorem verdicts_of_rearranged {config : Config} {s : Session} {u : Tree}
    (hs : Reachable config s) (hframe : s.tree.SameFrame u) :
    (∀ (f : Formula) (xs ys : List Formula), xs.Perm ys → f.Plain ∨ xs.length ≤ 2 →
      (Formula.conjunction? xs).map (·.equivalent f) =
        (Formula.conjunction? ys).map (·.equivalent f)) ∧
    (∀ i k, s.tree.lines.isLive i = true → s.tree.Rearranged u i k → s.tree.OrderFree i →
      (u.checkCheckmark k).isOk = (s.tree.checkCheckmark i).isOk) ∧
    (∀ n, s.tree.RearrangedAbove u n →
      (∀ i ∈ s.tree.linesAbove n, s.tree.OrderFreeOn (s.tree.path n) i) →
        (u.checkOpen n).isOk = (s.tree.checkOpen n).isOk) := by
  obtain ⟨-, past, future, htimeline⟩ := hs.timeline
  refine ⟨?_, ?_, ?_⟩
  · intro f xs ys hperm hf
    exact Formula.map_equivalent_of_perm hperm hf
  · intro i k hi hr horder
    exact hr.isOk_checkCheckmark hframe horder (htimeline.coherent.contains_childViews hi)
  · intro n hr horder
    exact hr.isOk_checkOpen hframe horder

/-- Enters lines one after the other, each of which shall rest on the first line. The number is that
of the first of them. -/
def answerWith : Nat → List String → List Command
  | _, [] => []
  | number, text :: texts =>
    .addLine text :: .justify number 1 :: answerWith (number + 1) texts

/-- The three parts of a conjunction are entered in two orders, and so are the parts of one case of
a biconditional, of which one is entered twice. -/
theorem verdicts_of_rearranged_rows :
    let conjunction (texts : List String) : Session :=
      (start {}).runAll (.addPremise "and(a,and(b,c))" :: answerWith 2 texts)
    let biconditional (texts : List String) : Session :=
      (start {}).runAll ([.addPremise "iff(a,b)", .branch 1, .goTo 2] ++ answerWith 2 texts)
    let s := conjunction ["a", "b", "c"]
    let u := (conjunction ["c", "a", "b"]).tree
    let s' := biconditional ["a", "a", "b"]
    let u' := (biconditional ["b", "a", "a"]).tree
    let f : Formula := .and (.literal "a") (.and (.literal "b") (.literal "c"))
    let xs : List Formula := [.literal "a", .literal "b", .literal "c"]
    let ys : List Formula := [.literal "c", .literal "a", .literal "b"]
    ((Formula.conjunction? xs).map (·.equivalent f) =
        (Formula.conjunction? ys).map (·.equivalent f) ∧
        (Formula.conjunction? xs).map (·.equivalent f) = some true) ∧
      ((u.checkCheckmark 0).isOk = (s.tree.checkCheckmark 0).isOk ∧
        (s.tree.checkCheckmark 0).isOk = true) ∧
      ((u.checkOpen 0).isOk = (s.tree.checkOpen 0).isOk ∧ (s.tree.checkOpen 0).isOk = true) ∧
      ((u'.checkOpen 1).isOk = (s'.tree.checkOpen 1).isOk ∧ (s'.tree.checkOpen 1).isOk = true) := by
  intro conjunction biconditional s u s' u' f xs ys
  have hs : Reachable {} s := reachable_iff_exists_runAll.mpr ⟨_, rfl⟩
  have hs' : Reachable {} s' := reachable_iff_exists_runAll.mpr ⟨_, rfl⟩
  have hframe : s.tree.SameFrame u := by decide +kernel
  have hframe' : s'.tree.SameFrame u' := by decide +kernel
  obtain ⟨hfold, hcheck, hopen⟩ := verdicts_of_rearranged hs hframe
  obtain ⟨-, -, hopen'⟩ := verdicts_of_rearranged hs' hframe'
  have hfree : s.tree.OrderFree 0 := .joint (by decide +kernel) (by decide +kernel)
  refine ⟨⟨?_, by decide +kernel⟩, ⟨?_, by decide +kernel⟩, ⟨?_, by decide +kernel⟩,
    ⟨?_, by decide +kernel⟩⟩
  · exact hfold f xs ys (by decide +kernel) (by decide +kernel)
  · exact hcheck 0 0 (by decide +kernel) (by decide +kernel) hfree
  · exact hopen 0 (by decide +kernel) (by decide +kernel)
  · exact hopen' 1 (by decide +kernel) (by decide +kernel)

/-- After the same opening, a command is refused when lines that rest on the first line were entered
in one order, and carried out when they were entered in another one. -/
def OrderDecides (opening : List Command) (number : Nat) (xs ys : List String) (c : Command) :
    Prop :=
  xs.Perm ys ∧
    (((start {}).runAll (opening ++ answerWith number xs)).run c).2.isOk = false ∧
    (((start {}).runAll (opening ++ answerWith number ys)).run c).2.isOk = true

instance (opening : List Command) (number : Nat) (xs ys : List String) (c : Command) :
    Decidable (OrderDecides opening number xs ys c) := inferInstanceAs (Decidable (_ ∧ _ ∧ _))

/-- Without one of the conditions the order counts. A negated disjunction of three literals adds up
from its parts in one order only, both when it is checkmarked and when its branch is marked open. So
does a conjunction that has such a negation among its parts, and so does a negated conjunction on
one of its branches. A part of a negated disjunction may be repeated, but not before the other part
is found. -/
theorem orderDecides_nested :
    (let deny (name : String) := Formula.not (.literal name)
      let f : Formula := .not (.or (.literal "a") (.or (.literal "b") (.literal "c")))
      let xs := [deny "a", deny "b", deny "c"]
      let ys := [deny "b", deny "c", deny "a"]
      xs.Perm ys ∧ (Formula.conjunction? xs).map (·.equivalent f) = some false ∧
        (Formula.conjunction? ys).map (·.equivalent f) = some true) ∧
    OrderDecides [.addPremise "not(or(a,or(b,c)))"] 2 ["not(a)", "not(b)", "not(c)"]
      ["not(b)", "not(c)", "not(a)"] (.checkmark 1) ∧
    OrderDecides [.addPremise "not(or(a,or(b,c)))"] 2 ["not(a)", "not(b)", "not(c)"]
      ["not(b)", "not(c)", "not(a)"] .markOpen ∧
    OrderDecides [.addPremise "and(not(or(a,b)),and(not(a),not(b)))"] 2
      ["not(b)", "not(b)", "not(a)"] ["not(a)", "not(b)", "not(b)"] (.checkmark 1) ∧
    OrderDecides [.addPremise "not(and(or(or(a,c),d),b))", .branch 1, .goTo 3, .addLine "not(b)",
      .justify 2 1, .goTo 2] 3 ["not(d)", "not(a)", "not(c)"] ["not(a)", "not(c)", "not(d)"]
      (.checkmark 1) ∧
    OrderDecides [.addPremise "not(or(a,b))"] 2 ["not(a)", "not(a)", "not(b)"]
      ["not(a)", "not(b)", "not(a)"] (.checkmark 1) := by
  refine ⟨?_, ?_, ?_, ?_, ?_, ?_⟩
  all_goals decide +kernel

end Session

end TruthTrees
