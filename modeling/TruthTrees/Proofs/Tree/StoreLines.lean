import TruthTrees.Proofs.Tree.Outcomes
import TruthTrees.Proofs.Tree.Store

/-! Adding, deleting and restoring one line keeps the references between lines and nodes. In each
case one line enters or leaves the display, and one live node enters it into its list or takes it
out; no other list of a node is touched. -/
namespace TruthTrees.Tree

/-- A change of the displayed lines that concerns the lines of one live node only. -/
theorem Store.of_lines {t t' : Tree} (h : Store t) {n : Nat} (hn : t.nodes.isLive n = true)
    {g : List Nat → List Nat}
    (hnodes : t'.nodes = t.nodes.modify n (fun nd => { nd with lines := g nd.lines }))
    (hsize : t.lines.size ≤ t'.lines.size)
    (hnode : ∀ i < t.lines.size, (t'.line i).node = (t.line i).node)
    (hbranches : ∀ i, (t'.line i).branches = (t.line i).branches)
    (hordered : t'.lines.Ordered) (hcounted : t'.lines.Counted)
    (hleft : ∀ i < t.lines.size, t.lines.isLive i ≠ true → (t.line i).node ≠ n →
      t'.lines.leftFrom i = t.lines.leftFrom i)
    (hlines : g (t.node n).lines = t'.lines.order.filter (fun i => (t'.line i).node == n))
    (hothers : ∀ m, m ≠ n → t'.lines.order.filter (fun i => (t'.line i).node == m) =
      t.lines.order.filter (fun i => (t.line i).node == m))
    (hhome : ∀ i, t'.lines.isLive i = true → (t'.line i).node ≠ n → t.lines.isLive i = true) :
    Store t' := by
  have hget : ∀ m, t'.node m = if m = n ∧ m < t.nodes.size then
      { t.node m with lines := g (t.node m).lines } else t.node m := by
    intro m
    unfold Tree.node
    rw [hnodes, Register.get_modify]
  have hlive : ∀ m, t'.nodes.isLive m = t.nodes.isLive m := by
    intro m
    rw [hnodes, Register.isLive_modify]
  have hn' := Register.lt_size_of_isLive hn
  refine ⟨?_, ⟨⟨hordered, ?_, ?_⟩, ?_, hcounted⟩, ?_⟩
  · rw [hnodes]
    exact h.rooted.modify n (fun nd => ⟨rfl, rfl⟩)
  · intro m hm
    rw [hlive] at hm
    by_cases hmn : m = n
    · subst hmn
      rw [hget, if_pos ⟨rfl, hn'⟩]
      exact hlines
    · rw [hget, if_neg (fun hc => hmn hc.1), h.holding.lines m hm, hothers m hmn]
  · intro i hi
    rw [hlive]
    by_cases hin : (t'.line i).node = n
    · rw [hin, hn]
    · have hold := hhome i hi hin
      rw [hnode i (Register.lt_size_of_isLive hold)]
      exact h.holding.home i hold
  · intro m hm
    rw [hlive] at hm
    have hmn : m ≠ n := fun hc => hm (hc ▸ hn)
    have hst := h.holding.stowed m hm
    -- The lines that a deleted node keeps are held by that node, so they did not move.
    apply hst.congr
    · rw [hget, if_neg (fun hc => hmn hc.1)]
    · exact hsize
    · intro i hi
      exact hleft i (hst.known i hi) (hst.dead i hi) (by rw [hst.node i hi]; exact hmn)
    · exact fun i hi => hnode i (hst.known i hi)
  · apply h.branching.congr hbranches hsize
    · rw [hnodes]
      rfl
    · exact hlive
    · intro m
      rw [hget]
      split <;> rfl

theorem line_insert (t : Tree) (k : Nat) (new : Line) (j : Nat) :
    ({ t with lines := t.lines.insert k new } : Tree).line j =
      if j = t.lines.size then new else t.line j :=
  t.lines.get_insert k j new

/-- A new line that nothing was branched on enters a live node. -/
theorem Store.insert {t : Tree} (h : Store t) (new : Line) {k : Nat}
    (hk : k ≤ t.lines.order.length) (hn : t.nodes.isLive new.node = true) (hb : new.branches = [])
    {g : List Nat → List Nat}
    (hg : g (t.lines.order.filter (fun i => (t.line i).node == new.node)) =
      (t.lines.order.insertIdx k t.lines.size).filter
        (fun i => (if i = t.lines.size then new else t.line i).node == new.node)) :
    Store (({ t with lines := t.lines.insert k new } : Tree).modifyNode new.node
      (fun nd => { nd with lines := g nd.lines })) := by
  have hline := line_insert t k new
  have hnew : t.lines.isLive t.lines.size ≠ true := fun hc =>
    absurd (Register.lt_size_of_isLive hc) (Nat.lt_irrefl _)
  have hfresh : (t.line t.lines.size).branches = [] :=
    congrArg Line.branches (Register.get_of_size_le (Nat.le_refl _))
  apply h.of_lines hn (g := g) (n := new.node)
  · rfl
  · exact Nat.le_trans (Nat.le_succ _) (Nat.le_of_eq (Register.size_insert _ _ _).symm)
  · intro i hi
    rw [line_modifyNode, hline, if_neg (by omega)]
  · intro i
    rw [line_modifyNode, hline]
    split
    · rename_i hi
      rw [hi, hb, hfresh]
    · rfl
  · exact h.holding.ordered.insert hk new
  · exact h.holding.counted.insert h.holding.ordered hk new
  · exact fun i _ _ _ => h.holding.ordered.leftFrom_insert hk new i
  · rw [h.holding.lines _ hn, hg]
    simp only [line_modifyNode, hline, lines_modifyNode, Register.order_insert]
  · intro m hm
    simp only [line_modifyNode, hline, lines_modifyNode, Register.order_insert]
    rw [List.filter_insertIdx_of_false (by simpa using Ne.symm hm)]
    apply List.filter_congr
    intro i hi
    have : i ≠ t.lines.size := fun hc => hnew (hc ▸ (h.holding.ordered.mem_iff i).mp hi)
    rw [if_neg this]
  · intro i hi hin
    rcases (Register.isLive_insert _ _ _ _).mp hi with hi | hi
    · rw [line_modifyNode, hline, if_pos hi] at hin
      exact absurd rfl hin
    · exact hi

theorem premiseCount_le (t : Tree) : t.premiseCount ≤ t.lines.order.length :=
  (List.takeWhile_sublist _).length_le

/-- A new premise keeps the storage in step. -/
theorem Store.addPremise {t : Tree} (h : Store t) (φ : Formula) : Store (t.addPremise φ).2 := by
  have hk := t.premiseCount_le
  set new : Line := { formula := φ, node := root, justification := .premise, valid := true }
    with hnew
  set r := t.lines.insert t.premiseCount new with hr
  have hlive : r.isLive t.lines.size = true := (Register.isLive_insert _ _ _ _).mpr (Or.inl rfl)
  have hordered : r.Ordered := h.holding.ordered.insert hk new
  apply h.insert new hk h.rooted.root_live rfl (g := r.place t.lines.size)
  have hlt : ∀ i ∈ t.lines.order, i < t.lines.size := fun i hi =>
    Register.lt_size_of_isLive ((h.holding.ordered.mem_iff i).mp hi)
  have hnot : t.lines.size ∉ t.lines.order := fun hc => Nat.lt_irrefl _ (hlt _ hc)
  have hold : t.lines.order.filter (fun i => (t.line i).node == new.node) =
      t.lines.order.filter
        (fun i => (if i = t.lines.size then new else t.line i).node == new.node) := by
    apply List.filter_congr
    intro i hi
    rw [if_neg (Nat.ne_of_lt (hlt i hi))]
  rw [hold]
  exact (hordered.place_insertIdx (Register.order_insert _ _ _) hlive hnot (by simp)).trans
    (by rw [hr, Register.order_insert])

/-- A new line keeps the storage in step. -/
theorem Store.withNewLine {t : Tree} {n : Nat} (h : Store t) (hn : t.nodes.isLive n = true)
    (φ : Formula) : Store (t.withNewLine n φ) := by
  rw [withNewLine_eq]
  set new : Line := { formula := φ, node := n, justification := .missing } with hnew
  apply h.insert new (Nat.le_refl _) hn rfl (g := fun ids => ids ++ [t.lines.size])
  rw [List.insertIdx_length_self, List.filter_append]
  congr 1
  · apply List.filter_congr
    intro j hj
    have : j ≠ t.lines.size := fun hc => absurd (Register.lt_size_of_isLive
      ((h.holding.ordered.mem_iff j).mp hj)) (hc ▸ Nat.lt_irrefl _)
    simp [this]
  · simp

/-- A line that is deleted keeps the storage in step. -/
theorem Store.withoutLine {t : Tree} (h : Store t) {i : Nat} (hi : t.lines.isLive i = true) :
    Store (t.withoutLine i) := by
  set n := (t.line i).node with hn
  set u := t.modifyNode n (fun nd => { nd with lines := nd.lines.filter (· ≠ i) }) with hu
  have hplaces : SamePlaces u (t.withoutLine i) := SamePlaces.detach u i
  have horder : (t.withoutLine i).lines.order = t.lines.order.filter (· ≠ i) := by
    rw [← h.holding.ordered.erase_eq_filter]
    exact order_withoutLine h.holding.ordered hi
  have hnode : ∀ j, ((t.withoutLine i).line j).node = (t.line j).node := hplaces.node
  apply h.of_lines (h.holding.home i hi) (g := fun ids => ids.filter (· ≠ i))
  · rw [hplaces.nodes]
    rfl
  · exact Nat.le_of_eq hplaces.size.symm
  · exact fun j _ => hnode j
  · exact hplaces.branches
  · exact ordered_detach (t := u) h.holding.ordered hi
  · exact counted_detach (t := u) h.holding.counted h.holding.ordered hi
  · intro j _ hj _
    have hji : j ≠ i := fun hc => hj (hc ▸ hi)
    rw [leftFrom_withoutLine h.holding.ordered hi, if_neg hji]
  · rw [h.holding.lines n (h.holding.home i hi), horder, List.filter_filter, List.filter_filter]
    apply List.filter_congr
    intro j _
    rw [hnode, Bool.and_comm]
  · intro m hm
    rw [horder, List.filter_filter]
    apply List.filter_congr
    intro j _
    by_cases hji : j = i
    · subst hji
      simpa [hnode] using Ne.symm hm
    · simp [hnode, hji]
  · intro j hj _
    exact ((isLive_detach u i j).mp hj).2

/-- A line that is restored keeps the storage in step. -/
theorem Store.withLine {t : Tree} (h : Store t) {i : Nat} (hi : i < t.lines.size)
    (hdead : t.lines.isLive i ≠ true) (hn : t.nodes.isLive (t.line i).node = true) :
    Store (t.withLine i) := by
  set n := (t.line i).node with hndef
  set r := t.lines.reinstate i with hr
  have hordered : r.Ordered := h.holding.ordered.reinstate hi hdead
  have hmiddle : Store ((t.redisplay i).modifyNode n
      (fun nd => { nd with lines := (t.redisplay i).lines.place i nd.lines })) := by
    apply h.of_lines hn (g := r.place i)
    · rfl
    · exact Nat.le_of_eq (Register.size_reinstate _ _).symm
    · exact fun j _ => congrArg Line.node (line_redisplay t i j)
    · exact fun j => congrArg Line.branches (line_redisplay t i j)
    · exact hordered
    · exact h.holding.counted.reinstate h.holding.ordered hi hdead
    · intro j _ _ hjn
      have hji : j ≠ i := fun hc => hjn (hc ▸ rfl)
      exact (h.holding.ordered.leftFrom_reinstate hi hdead j).trans (if_neg hji)
    · rw [h.holding.lines n hn]
      simp only [line_modifyNode, lines_modifyNode, line_redisplay]
      apply h.holding.ordered.place_reinstate hi hdead
      exact beq_iff_eq.mpr hndef.symm
    · intro m hm
      simp only [line_modifyNode, lines_modifyNode, line_redisplay]
      exact Register.filter_reinstate_of_false _ (by simpa using Ne.symm hm)
    · intro j hj hjn
      rcases (Register.isLive_reinstate _ _ _).mp hj with ⟨hji, -⟩ | hj
      · rw [line_modifyNode, line_redisplay, hji] at hjn
        exact absurd rfl hjn
      · exact hj
  exact hmiddle.relinked ((Relinked.refl _).reattach i)

end TruthTrees.Tree
