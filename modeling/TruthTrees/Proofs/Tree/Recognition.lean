import TruthTrees.Proofs.Formula.RoundTrip
import TruthTrees.Proofs.Tree.Renaming

/-! Trees that are seen alike are the same up to identities. The numbers that are seen tell which
lines and nodes correspond to each other, and the texts tell what the lines say, as long as these
could have been written by a user. -/
namespace TruthTrees.Tree

variable {σ τ : Nat → Nat} {t u : Tree} {i n : Nat}

/-- Lines that look the same are renamings of each other. -/
theorem lineRenames_of_view (hlines : t.lines.Alike σ u.lines) (hnodes : t.nodes.Alike τ u.nodes)
    (ht : Coherent t) (hu : Coherent u) (hi : t.lines.isLive i = true)
    (htext : (t.line i).formula.WellNamed) (htext' : (u.line (σ i)).formula.WellNamed)
    (hview : u.lineView (σ i) = t.lineView i) : LineRenames σ τ (t.line i) (u.line (σ i)) := by
  have hi' := hlines.isLive hi
  refine ⟨?_, ?_, ?_, congrArg LineView.checkmarked hview⟩
  · exact Formula.eq_of_text_eq htext' htext (congrArg LineView.text hview)
  · exact hnodes.eq_of_number (ht.store.holding.home i hi) (hu.store.holding.home _ hi')
      (congrArg LineView.node hview)
  · have hpremise : ((u.line (σ i)).justification = .premise) ↔
        ((t.line i).justification = .premise) := by
      simpa [lineView] using congrArg LineView.premise hview
    have hparent : (u.line (σ i)).justification.parent?.map u.lineNumber =
        (t.line i).justification.parent?.map t.lineNumber := congrArg LineView.parent hview
    cases hs : (t.line i).justification with
    | premise => exact hpremise.mpr hs
    | missing =>
      cases hs' : (u.line (σ i)).justification with
      | premise => simp [hs, hs'] at hpremise
      | missing => rfl
      | line p' => simp [hs, hs', Justification.parent?] at hparent
    | line p =>
      cases hs' : (u.line (σ i)).justification with
      | premise => simp [hs, hs'] at hpremise
      | missing => simp [hs, hs', Justification.parent?] at hparent
      | line p' =>
        have hp := (ht.linked.parent i p hi hs).left_live ht.linked.ordered
        have hp' := (hu.linked.parent _ p' hi' hs').left_live hu.linked.ordered
        have hnumber : u.lineNumber p' = t.lineNumber p := by
          simpa [hs, hs', Justification.parent?] using hparent
        exact congrArg Justification.line (hlines.eq_of_number hp hp' hnumber)

/-- Nodes that look the same are renamings of each other. -/
theorem nodeRenames_of_view (hlines : t.lines.Alike σ u.lines) (hnodes : t.nodes.Alike τ u.nodes)
    (ht : Coherent t) (hu : Coherent u) (hn : t.nodes.isLive n = true)
    (hview : u.nodeView (τ n) = t.nodeView n) : NodeRenames σ τ (t.node n) (u.node (τ n)) := by
  have hn' := hnodes.isLive hn
  refine ⟨?_, congrArg NodeView.closed hview, congrArg NodeView.markedOpen hview⟩
  have hparent : (u.node (τ n)).parent?.map u.nodeNumber =
      (t.node n).parent?.map t.nodeNumber := congrArg NodeView.parent hview
  have hstem : (u.node (τ n)).branchedOn?.map u.lineNumber =
      (t.node n).branchedOn?.map t.lineNumber := congrArg NodeView.branchedOn hview
  unfold Node.parent? at hparent
  unfold Node.branchedOn? at hstem
  cases hs : (t.node n).stem with
  | none =>
    cases hs' : (u.node (τ n)).stem with
    | none => rfl
    | some s' => simp [hs, hs'] at hparent
  | some s =>
    cases hs' : (u.node (τ n)).stem with
    | none => simp [hs, hs'] at hparent
    | some s' =>
      have hnode : u.nodeNumber s'.node = t.nodeNumber s.node := by simpa [hs, hs'] using hparent
      have hline : u.lineNumber s'.line = t.lineNumber s.line := by simpa [hs, hs'] using hstem
      replace hnode : s'.node = τ s.node := hnodes.eq_of_number
        (ht.store.rooted.parent_live n s hn hs) (hu.store.rooted.parent_live _ s' hn' hs') hnode
      replace hline : s'.line = σ s.line := hlines.eq_of_number (ht.branched n s hn hs).1
        (hu.branched _ s' hn' hs').1 hline
      exact congrArg some (congrArg₂ Stem.mk hnode hline)

/-- Trees that are seen alike are twins. -/
theorem Coherent.exists_twins (ht : Coherent t) (hu : Coherent u)
    (htext : ∀ i, t.lines.isLive i = true → (t.line i).formula.WellNamed)
    (htext' : ∀ i, u.lines.isLive i = true → (u.line i).formula.WellNamed)
    (hview : u.snapshot = t.snapshot) : ∃ σ τ, Twins σ τ t u := by
  have hlines : u.lines.order.map u.lineView = t.lines.order.map t.lineView :=
    congrArg Snapshot.lines hview
  have hnodes : u.nodes.order.map u.nodeView = t.nodes.order.map t.nodeView :=
    congrArg Snapshot.nodes hview
  have halike := Register.Alike.of_length ht.linked.ordered hu.linked.ordered
    (by simpa using congrArg List.length hlines)
  have halike' := Register.Alike.of_length ht.store.rooted.ordered hu.store.rooted.ordered
    (by simpa using congrArg List.length hnodes)
  rw [halike.order, List.map_map, List.map_inj_left] at hlines
  rw [halike'.order, List.map_map, List.map_inj_left] at hnodes
  refine ⟨_, _, ⟨halike, halike', ?_, ?_⟩, ht, hu⟩
  · intro i hi
    exact lineRenames_of_view halike halike' ht hu hi (htext i hi) (htext' _ (halike.isLive hi))
      (hlines i ((ht.linked.ordered.mem_iff i).mpr hi))
  · intro n hn
    exact nodeRenames_of_view halike halike' ht hu hn
      (hnodes n ((ht.store.rooted.ordered.mem_iff n).mpr hn))

end TruthTrees.Tree
