import TruthTrees.Proofs.Session.OpenSessions

/-! Premises come first. A new premise is entered behind the premises that are displayed already,
and every other line behind all lines; a line that is taken out leaves the order of the others as it
is, and undo and redo lead to displays that were there before. So the premises are always the first
lines of the display, and the first ones of the root. -/
namespace TruthTrees

namespace Tree

section Display

variable {p : Nat → Bool} {l : List Nat}

end Display

variable {t u : Tree}

def isPremise (t : Tree) (i : Nat) : Bool := (t.line i).justification = .premise

def premiseLines (t : Tree) : List Nat := t.lines.order.filter t.isPremise

def PremisesFirst (t : Tree) : Prop :=
  t.lines.order.Pairwise (fun i j => t.isPremise j = true → t.isPremise i = true)

theorem isPremise_iff {i : Nat} : t.isPremise i = true ↔ t.support i = .premise :=
  decide_eq_true_iff

namespace PremisesFirst

/-- The premises that stand before the first other line are all there are. -/
theorem premiseCount_eq (h : t.PremisesFirst) : t.premiseCount = t.premiseLines.length :=
  congrArg List.length (List.takeWhile_eq_filter h)

/-- Premises are first among lines that have kept their order and of which none has become or ceased
to be a premise. -/
theorem pairwise_of_sublist (h : t.PremisesFirst) {l : List Nat} (hl : l.Sublist t.lines.order)
    (hpremise : ∀ i ∈ l, u.isPremise i = t.isPremise i) :
    l.Pairwise (fun i j => u.isPremise j = true → u.isPremise i = true) := by
  apply (h.sublist hl).imp_of_mem
  intro i j hi hj hij
  rw [hpremise i hi, hpremise j hj]
  exact hij

theorem preserves (h : t.PremisesFirst) (hordered : t.lines.Ordered) (hp : Preserves t u)
    (horder : u.lines.order = t.lines.order) : u.PremisesFirst := by
  unfold PremisesFirst
  rw [horder]
  apply h.pairwise_of_sublist (List.Sublist.refl _)
  intro i hi
  obtain ⟨-, branches, marked, parentMarked, hline⟩ := hp.line i ((hordered.mem_iff i).mp hi)
  unfold isPremise
  rw [hline]

/-- Lines that are taken out leave the premises in front. -/
theorem shed (h : t.PremisesFirst) (hu : u.lines.Ordered) {gone : List Nat}
    (hshed : Shed t u gone) : u.PremisesFirst := by
  apply h.pairwise_of_sublist
  · rw [hshed.order]
    exact List.filter_sublist
  · intro i hi
    rw [Bool.eq_iff_iff, isPremise_iff, isPremise_iff]
    exact hshed.premise i ((hu.mem_iff i).mp hi)

/-- A new justification makes no premise, so the premises stay in front. -/
theorem relink (h : t.PremisesFirst) (ht : Coherent t) {p c : Nat} (hbefore : t.Before p c)
    (hs : t.support c ≠ .premise) : (t.relink p c).PremisesFirst := by
  have hw := ht.linked.rewired_relink hbefore hs
  unfold PremisesFirst
  rw [hw.relinked.order]
  apply h.pairwise_of_sublist (List.Sublist.refl _)
  intro i _
  rw [Bool.eq_iff_iff, isPremise_iff, isPremise_iff, hw.support]
  split
  · rename_i hi
    simp [hi, hs]
  · rfl

/-- The lines that were there when a line is entered are premises as before. -/
theorem isPremise_insert (hordered : t.lines.Ordered) (k : Nat) (new : Line) {i : Nat}
    (hi : i ∈ t.lines.order) :
    isPremise { t with lines := t.lines.insert k new } i = t.isPremise i := by
  have hlt := Register.lt_size_of_isLive ((hordered.mem_iff i).mp hi)
  unfold isPremise
  rw [line_insert, if_neg (Nat.ne_of_lt hlt)]

/-- A new premise goes in behind the others and before all other lines. -/
theorem addPremise (h : t.PremisesFirst) (hordered : t.lines.Ordered) (φ : Formula) :
    (t.addPremise φ).2.PremisesFirst := by
  set new : Line := { formula := φ, node := root, justification := .premise, valid := true }
  set u : Tree := { t with lines := t.lines.insert t.premiseCount new }
  have hpremise : ∀ i ∈ t.lines.order, u.isPremise i = t.isPremise i := fun i hi =>
    isPremise_insert hordered t.premiseCount new hi
  have hold : t.lines.order.Pairwise (fun i j => u.isPremise j = true → u.isPremise i = true) :=
    h.pairwise_of_sublist (List.Sublist.refl _) hpremise
  have hnew : u.isPremise t.lines.size = true := by
    rw [isPremise_iff, support, line_insert, if_pos rfl]
  have hcount : t.premiseCount = (t.lines.order.takeWhile u.isPremise).length := by
    rw [h.premiseCount_eq, premiseLines, List.takeWhile_eq_filter hold, List.filter_congr hpremise]
  have horder : (t.addPremise φ).2.lines.order =
      t.lines.order.insertIdx (t.lines.order.takeWhile u.isPremise).length t.lines.size := by
    rw [← hcount]
    exact Register.order_insert t.lines t.premiseCount new
  unfold PremisesFirst
  rw [horder]
  exact List.pairwise_insertIdx_takeWhile hold hnew

theorem withNewLine (h : t.PremisesFirst) (hordered : t.lines.Ordered) (n : Nat) (φ : Formula) :
    (t.withNewLine n φ).PremisesFirst := by
  rw [withNewLine_eq]
  set u : Tree := { t with lines := t.lines.insert t.lines.order.length (newLine n φ) }
  have hlast : u.isPremise t.lines.size = false := by
    rw [Bool.eq_false_iff, Ne, isPremise_iff, support, line_insert, if_pos rfl]
    simp
  have horder : u.lines.order = t.lines.order ++ [t.lines.size] := by
    rw [← Register.order_push t.lines (newLine n φ), Register.push_eq_insert]
  unfold PremisesFirst
  rw [lines_modifyNode, horder, List.pairwise_append]
  refine ⟨?_, List.pairwise_singleton _ _, ?_⟩
  · exact h.pairwise_of_sublist (List.Sublist.refl _) fun i hi => isPremise_insert hordered _ _ hi
  · intro i _ j hj hpremise
    rw [List.mem_singleton.mp hj] at hpremise
    exact absurd (hlast.symm.trans hpremise) (by simp)

/-- The premises are the beginning of the display. -/
theorem premiseLines_isPrefix (h : t.PremisesFirst) : t.premiseLines <+: t.lines.order := by
  rw [premiseLines, ← List.takeWhile_eq_filter h]
  exact List.takeWhile_prefix _

/-- Premises that stand in the root come first there too. -/
theorem isPrefix_lines_root (h : t.PremisesFirst) (hroot : t.PremisesInRoot) (hstore : Store t) :
    t.premiseLines <+: (t.node root).lines := by
  obtain ⟨rest, hrest⟩ := h.premiseLines_isPrefix
  have hall : t.premiseLines.filter (fun i => (t.line i).node == root) = t.premiseLines := by
    rw [List.filter_eq_self]
    intro i hi
    obtain ⟨horder, hpremise⟩ := List.mem_filter.mp hi
    rw [beq_iff_eq]
    exact hroot i ((hstore.holding.ordered.mem_iff i).mp horder) (isPremise_iff.mp hpremise)
  rw [hstore.holding.lines root hstore.rooted.root_live, ← hrest, List.filter_append, hall]
  exact List.prefix_append _ _

/-- A new premise has the number that follows those of the others. -/
theorem number_addPremise (h : t.PremisesFirst) (hordered : t.lines.Ordered) (φ : Formula) :
    (t.addPremise φ).2.lineNumber (t.addPremise φ).1 = t.premiseLines.length + 1 := by
  set new : Line := { formula := φ, node := root, justification := .premise, valid := true }
  have hk := t.premiseCount_le
  have hr : (t.lines.insert t.premiseCount new).Ordered := hordered.insert hk new
  have hnew : t.lines.size ∉ t.lines.order := fun hc => Nat.lt_irrefl _ (hordered.lt_size hc)
  have hlive := (t.lines.isLive_insert t.premiseCount t.lines.size new).mpr (Or.inl rfl)
  calc (t.addPremise φ).2.lineNumber (t.addPremise φ).1
      = (t.lines.insert t.premiseCount new).number t.lines.size := rfl
    _ = (t.lines.order.insertIdx t.premiseCount t.lines.size).idxOf t.lines.size + 1 := by
      rw [hr.numbered _ hlive, Register.order_insert]
    _ = t.premiseLines.length + 1 := by
      rw [List.idxOf_insertIdx_self hk hnew, h.premiseCount_eq]

end PremisesFirst

end Tree

namespace Session

/-- Every command keeps the premises in front. -/
theorem kept_premisesFirst : Kept (fun _ _ => false) Tree.PremisesFirst := by
  constructor
  case empty => exact List.Pairwise.nil
  case extend =>
    intro p r hp hr h
    exact h.preserves hp.tree.linked.ordered (Tree.Preserves.extend hr) rfl
  case change =>
    intro s c u n hs hu hchange _ h
    have ht : s.tree.Coherent := hs.tree
    have hordered := ht.linked.ordered
    have hordered' : u.lines.Ordered := hu.tree.linked.ordered
    cases hchange with
    | addPremise φ => exact h.addPremise hordered φ
    | addLine φ => exact h.withNewLine hordered _ φ
    | deleteLine _ hlive _ => exact h.shed hordered' (Tree.Shed.withoutLine ht.linked hlive)
    | justify _ _ hsupport hbefore => exact h.relink ht hbefore hsupport
    | @checkmark number i hlive _ =>
      exact h.preserves hordered (Tree.Preserves.setCheckmarked ht.linked hlive true)
        ((Tree.Relinked.refl s.tree).setCheckmarked i true).order
    | branch => exact h.preserves hordered (Tree.Preserves.withFork _ _ _) rfl
    | deleteBranch hdelete => exact h.shed hordered' (Tree.Shed.deleteBranch ht hdelete)
    | goTo => exact h
    | close | reopen | markOpen =>
      exact h.preserves hordered (Tree.Preserves.modifyNode _ _ (fun _ => rfl)) rfl

/-- However a session came about, its premises are the first lines of the display and the first
lines of the root, which holds all of them, and a new premise has the number that follows theirs. -/
theorem premises_first_of_reachable {config : Config} {s : Session} (hs : Reachable config s) :
    s.tree.premiseLines <+: s.tree.lines.order ∧
      (∀ i ∈ s.tree.premiseLines, (s.tree.line i).node = Tree.root) ∧
      s.tree.premiseLines <+: (s.tree.node Tree.root).lines ∧
      ∀ text s' reply, s.run (.addPremise text) = (s', .ok reply) →
        reply = .line (s.tree.premiseLines.length + 1) := by
  obtain ⟨-, past, future, ht⟩ := hs.timeline
  have hstore := ht.coherent.tree.store
  have hordered := hstore.holding.ordered
  have hfirst := kept_premisesFirst.holds_of_reachable hs
  have hroot := kept_premisesInRoot.holds_of_reachable hs
  refine ⟨hfirst.premiseLines_isPrefix, ?_, hfirst.isPrefix_lines_root hroot hstore, ?_⟩
  · intro i hi
    obtain ⟨horder, hpremise⟩ := List.mem_filter.mp hi
    exact hroot i ((hordered.mem_iff i).mp horder) (Tree.isPremise_iff.mp hpremise)
  · intro text s' reply hrun
    obtain ⟨φ, i, t, -, -, hadd, rfl, -⟩ := addPremise_ok_iff.mp (settle_ok_iff.mp hrun)
    obtain ⟨rfl, rfl⟩ := Prod.mk.inj hadd
    exact congrArg Reply.line (hfirst.number_addPremise hordered φ)

/-- Premises are entered among other lines, deleted, and brought back by undo and redo. -/
theorem premises_first_of_reachable_undo :
    let s := (start {}).runAll [.addPremise "a", .addLine "b", .addPremise "c", .addLine "d",
      .deleteLine 1, .addPremise "e", .undo, .undo, .redo, .undo, .addPremise "f", .deleteLine 4]
    s.tree.premiseLines = [0, 2, 5] ∧ s.tree.lines.order = [0, 2, 5, 3] ∧
      s.tree.premiseLines <+: (s.tree.node Tree.root).lines ∧
      (s.run (.addPremise "g")).2 = .ok (.line 4) := by
  intro s
  have hs : Reachable {} s := reachable_iff_exists_runAll.mpr ⟨_, rfl⟩
  obtain ⟨-, -, hroot, hreply⟩ := premises_first_of_reachable hs
  have hlines : s.tree.premiseLines = [0, 2, 5] := by decide +kernel
  have hok : (s.run (.addPremise "g")).2.isOk = true := by decide +kernel
  refine ⟨hlines, by decide +kernel, hroot, ?_⟩
  rcases hrun : s.run (.addPremise "g") with ⟨s', e | reply⟩
  · rw [hrun] at hok
    simp [Except.isOk, Except.toBool] at hok
  · rw [hreply "g" s' reply hrun, hlines]
    rfl

end Session

end TruthTrees
