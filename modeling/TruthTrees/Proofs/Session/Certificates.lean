import TruthTrees.Proofs.Session.Contradictions
import TruthTrees.Proofs.Tree.Ways

/-! What the rules certify at the moment when they are met. They only compare formulas by their
shape, read marks that were set long before and walk along links between nodes; but in a session
shapes, marks and links tell the truth. So a node is closed by two lines that cannot be true
together and come from premises, and a line that may be checkmarked is said again, by the lines that
rest on it, on every branch below it that is not closed. -/
namespace TruthTrees

theorem Formula.not_satisfiable_of_equivalent_not {φ ψ : Formula}
    (h : (Formula.not φ).equivalent ψ = true) : ¬ Formula.Satisfiable [φ, ψ] := by
  rintro ⟨v, hv⟩
  have hφ := hv φ (by simp)
  have hψ := hv ψ (by simp)
  rw [← Formula.comparisons_sound.1 _ _ h v, Formula.eval, hφ] at hψ
  simp at hψ

namespace Tree

variable {t : Tree} {n i : Nat}

/-- A line rests on a premise, and all lines from it up to the premise are in the tree. -/
inductive Founded (t : Tree) : Nat → Prop
  | premise {i : Nat} (hi : t.lines.isLive i = true) (h : t.support i = .premise) : Founded t i
  | line {i p : Nat} (hi : t.lines.isLive i = true) (h : t.support i = .line p)
    (hp : Founded t p) : Founded t i

/-- A line that can be appealed to at a node: it is in the tree, stands on the way from the root to
the node, and rests on a premise. -/
structure SpeaksAt (t : Tree) (n i : Nat) : Prop where
  live : t.lines.isLive i = true
  above : ∃ path, t.Way root n path ∧ (t.line i).node ∈ path
  founded : t.Founded i

/-- A grounded line is founded on a premise through lines in the tree. -/
theorem Linked.founded (h : Linked t) (hi : t.lines.isLive i = true)
    (hg : Grounded t.support i) : t.Founded i := by
  induction hg with
  | premise hp => exact .premise hi hp
  | line hp _ ih => exact .line hi hp (ih (h.parent_live _ _ hi hp))

/-- A valid line on the branch of a node speaks there. -/
theorem Coherent.speaksAt (h : Coherent t) (hn : t.nodes.isLive n = true)
    (hvalid : (t.line i).valid = true) (habove : t.inAncestry n i = true) : t.SpeaksAt n i := by
  obtain ⟨hi, hmem⟩ := inAncestry_iff.mp habove
  refine ⟨hi, ⟨t.path n, h.store.rooted.way_path hn, List.mem_reverse.mpr hmem⟩, ?_⟩
  exact h.linked.founded hi ((h.linked.valid i hi).mp hvalid)

end Tree

namespace Session

variable {config : Config} {s : Session}

/-- The two lines by which a node is closed are in the tree, stand on the way from the root to the
node, rest on premises, and cannot be true together. -/
theorem contradiction_of_close (hs : Reachable config s) {first second : Nat}
    (hok : (s.run (.close first second)).2.isOk = true) :
    ∃ i j, s.tree.lines.withNumber? first = some i ∧ s.tree.lines.withNumber? second = some j ∧
      s.tree.SpeaksAt s.current i ∧ s.tree.SpeaksAt s.current j ∧
      ¬ Formula.Satisfiable [(s.tree.line i).formula, (s.tree.line j).formula] := by
  obtain ⟨-, past, future, htimeline⟩ := hs.timeline
  have hsheet := htimeline.coherent
  obtain ⟨s', reply, hrun⟩ := exists_run_eq hok
  obtain ⟨i, j, u, hi, hj, -, hclose, -⟩ := close_ok_iff.mp (settle_ok_iff.mp hrun)
  obtain ⟨-, -, -, hcheck, -⟩ := Tree.close_ok_iff.mp hclose
  have hclash := Tree.isOk_checkClose_iff_clash.mp (by rw [hcheck]; rfl)
  exact ⟨i, j, hi, hj,
    hsheet.tree.speaksAt hsheet.current hclash.left_valid hclash.left_above,
    hsheet.tree.speaksAt hsheet.current hclash.right_valid hclash.right_above,
    Formula.not_satisfiable_of_equivalent_not hclash.negation⟩

/-- On a branch, a line taken out of a premise contradicts a case of another premise, after the first
premise was deleted and brought back. -/
theorem contradiction_of_close_biconditional :
    let s := (start {}).runAll
      [.addPremise "and(iff(a,b),c)", .addPremise "or(or(and(not(a),b),and(a,not(b))),d)",
        .branch 2, .goTo 2, .addLine "or(and(not(a),b),and(a,not(b)))", .justify 3 2,
        .addLine "iff(a,b)", .justify 4 1, .deleteLine 1, .undo]
    (s.run (.close 4 3)).2.isOk = true ∧ (s.tree.line 3).node = 1 ∧
      s.tree.SpeaksAt 1 3 ∧ s.tree.SpeaksAt 1 2 ∧
      ¬ Formula.Satisfiable [(s.tree.line 3).formula, (s.tree.line 2).formula] := by
  intro s
  have hs : Reachable {} s := reachable_iff_exists_runAll.mpr ⟨_, rfl⟩
  have hok : (s.run (.close 4 3)).2.isOk = true := by decide +kernel
  obtain ⟨hcurrent, hnode, hfour, hthree⟩ : s.current = 1 ∧ (s.tree.line 3).node = 1 ∧
      s.tree.lines.withNumber? 4 = some 3 ∧ s.tree.lines.withNumber? 3 = some 2 := by
    decide +kernel
  obtain ⟨i, j, hi, hj, hspeaks⟩ := contradiction_of_close hs hok
  obtain rfl : 3 = i := Option.some.inj (hfour.symm.trans hi)
  obtain rfl : 2 = j := Option.some.inj (hthree.symm.trans hj)
  rw [hcurrent] at hspeaks
  exact ⟨hok, hnode, hspeaks⟩

/-- A line that may be checkmarked is certified: on every way down from it to a leaf that meets no
closed node, lines that rest on it say what it says. -/
theorem certified_of_checkCheckmark (hs : Reachable config s) {i : Nat}
    (hok : (s.tree.checkCheckmark i).isOk = true) : s.tree.Certified i := by
  obtain ⟨-, past, future, htimeline⟩ := hs.timeline
  have hsheet := htimeline.coherent
  have hd : s.tree.isDecomposed i = true := by
    cases hcheck : s.tree.checkCheckmark i with
    | ok => exact isDecomposed_of_checkCheckmark hcheck
    | error violation =>
      rw [hcheck] at hok
      simp [Except.isOk, Except.toBool] at hok
  exact hsheet.tree.store.rooted.certified hsheet.forked hd

/-- Of three premises the first one is split into its cases, the second one is taken apart on both
branches, in different orders, and the third one is taken apart above them. -/
theorem certified_of_checkCheckmark_premises :
    let s := (start {}).runAll
      [.addPremise "or(a,b)", .addPremise "not(or(c,d))", .addPremise "iff(e,f)",
        .addLine "if(e,f)", .justify 4 3, .addLine "if(f,e)", .justify 5 3, .branch 1,
        .goTo 2, .addLine "a", .justify 6 1, .addLine "not(c)", .justify 7 2, .addLine "not(d)",
        .justify 8 2, .goTo 3, .addLine "b", .justify 9 1, .addLine "not(d)", .justify 10 2,
        .addLine "not(c)", .justify 11 2]
    (s.tree.OpenWay 0 [0, 1] ∧ s.tree.OpenWay 0 [0, 2]) ∧
      ((s.tree.checkCheckmark 0).isOk = true ∧ s.tree.SplitUpOn 0 [0, 1]) ∧
      ((s.tree.checkCheckmark 1).isOk = true ∧ s.tree.AddUpOn 1 [0, 2]) ∧
      (s.tree.checkCheckmark 2).isOk = true ∧ s.tree.Certified 2 := by
  intro s
  have hs : Reachable {} s := reachable_iff_exists_runAll.mpr ⟨_, rfl⟩
  obtain ⟨hfork, hleaves, hopen⟩ : (s.tree.node 0).children = [1, 2] ∧
      (∀ n ∈ [1, 2], (s.tree.node n).children = []) ∧
      ∀ n ∈ [0, 1, 2], (s.tree.node n).closed = false := by decide +kernel
  have hway : ∀ n ∈ [1, 2], s.tree.OpenWay 0 [0, n] := by
    intro n hn
    refine ⟨n, .down (hfork ▸ hn) (.here n), hleaves n hn, ?_⟩
    intro k hk
    exact hopen k (by simp only [List.mem_cons] at hk hn ⊢; grind)
  obtain ⟨hhomes, hor, hand⟩ : (∀ i ∈ [0, 1], (s.tree.line i).node = 0) ∧
      (s.tree.line 0).formula.decompose.junction? = some .or ∧
      (s.tree.line 1).formula.decompose.junction? = some .and := by decide +kernel
  have hok : ∀ i ∈ [0, 1, 2], (s.tree.checkCheckmark i).isOk = true := by decide +kernel
  have hcertified := fun i hi => certified_of_checkCheckmark hs (hok i hi)
  refine ⟨⟨hway 1 (by simp), hway 2 (by simp)⟩, ⟨hok 0 (by simp), ?_⟩, ⟨hok 1 (by simp), ?_⟩,
    hok 2 (by simp), hcertified 2 (by simp)⟩
  · have hhome := hhomes 0 (by simp)
    exact (hcertified 0 (by simp)).either hor _ (hhome.symm ▸ hway 1 (by simp))
  · have hhome := hhomes 1 (by simp)
    exact (hcertified 1 (by simp)).both hand _ (hhome.symm ▸ hway 2 (by simp))

end Session

end TruthTrees
