import TruthTrees.Proofs.Tree.Forks

/-! What survives a change of a tree. Most changes leave all that lives in a tree as it is, up to
marks and places. When lines are taken out, what rested on them rests on nothing, and the lines that
they rested on lose their checkmarks; nothing else is lost. -/
namespace TruthTrees.Tree

variable {t u v : Tree}

/-- All that lives in the first tree lives in the second one. The lines differ at most in their
branches and marks, and the nodes grow from the same stems. -/
structure Preserves (t u : Tree) : Prop where
  line : ∀ i, t.lines.isLive i = true → u.lines.isLive i = true ∧ ∃ branches marked parentMarked,
    u.line i = { t.line i with
      branches := branches, checkmarked := marked, parentCheckmarked := parentMarked }
  node : ∀ n, t.nodes.isLive n = true →
    u.nodes.isLive n = true ∧ (u.node n).stem = (t.node n).stem

namespace Preserves

theorem refl (t : Tree) : Preserves t t :=
  ⟨fun _ hi => ⟨hi, _, _, _, rfl⟩, fun _ hn => ⟨hn, rfl⟩⟩

theorem modifyNode (t : Tree) (n : Nat) {f : Node → Node} (hf : ∀ nd, (f nd).stem = nd.stem) :
    Preserves t (t.modifyNode n f) := by
  refine ⟨(refl t).line, fun m hm => ⟨(Register.isLive_modify _ _ _ _).trans hm, ?_⟩⟩
  rw [node_modifyNode]
  split
  · exact hf _
  · rfl

theorem insert (t : Tree) (k : Nat) (l : Line) (n : Nat) {f : Node → Node}
    (hf : ∀ nd, (f nd).stem = nd.stem) :
    Preserves t (({ t with lines := t.lines.insert k l } : Tree).modifyNode n f) := by
  refine ⟨fun i hi => ⟨(Register.isLive_insert _ _ _ _).mpr (Or.inr hi), ?_⟩,
    (modifyNode t n hf).node⟩
  have hne : i ≠ t.lines.size := Nat.ne_of_lt (Register.lt_size_of_isLive hi)
  rw [line_modifyNode, line_insert, if_neg hne]
  exact ⟨_, _, _, rfl⟩

/-- A checkmark moves no line and no justification. -/
theorem setCheckmarked (h : Linked t) {i : Nat} (hi : t.lines.isLive i = true) (b : Bool) :
    Preserves t (t.setCheckmarked i b) := by
  have hr := (Relinked.refl t).setCheckmarked i b
  refine ⟨fun j hj => ⟨(hr.isLive j).trans hj, ?_⟩, fun n hn => ⟨?_, ?_⟩⟩
  · rw [line_setCheckmarked (Register.lt_size_of_isLive hi)
      (fun k hk => h.lt_size_of_mem_children hi hk)]
    exact ⟨_, _, _, rfl⟩
  · rw [hr.nodes]
    exact hn
  · rw [hr.nodeEq]

/-- A fork moves no line and no justification. -/
theorem withFork (t : Tree) (n i : Nat) : Preserves t (t.withFork n i) := by
  refine ⟨fun j hj => ⟨(Register.isLive_modify _ _ _ _).trans hj, ?_⟩, fun m hm => ⟨?_, ?_⟩⟩
  · rw [line_withFork]
    exact ⟨_, _, _, rfl⟩
  · rw [nodes_withFork, isLive_forked]
    exact Or.inr hm
  · have hlt := Register.lt_size_of_isLive hm
    unfold Tree.node
    rw [nodes_withFork, get_forked]
    dsimp only
    rw [if_neg (by omega)]

theorem extend {r : Remnants} (hr : Fits t r) : Preserves t (t.extend r) := by
  refine ⟨fun i hi => ⟨(hr.isLive_line i).trans hi, ?_⟩,
    fun n hn => ⟨(hr.isLive_node n).trans hn, by rw [node_extend_of_isLive hn]⟩⟩
  rw [line_extend_of_isLive hi]
  exact ⟨_, _, _, rfl⟩

/-- The way up from a node is the same. -/
theorem ancestors (h : Preserves t u) (hr : Rooted t.nodes) {n : Nat}
    (hn : t.nodes.isLive n = true) : u.ancestors n = t.ancestors n := by
  induction n using Nat.strongRecOn with
  | ind n ih =>
    have hstem := (h.node n hn).2
    cases hs : (t.node n).stem with
    | none => rw [ancestors_of_root hs, ancestors_of_root (hstem.trans hs)]
    | some s =>
      have hlt := hr.stem_lt hn hs
      rw [ancestors_of_stem hs hlt, ancestors_of_stem (hstem.trans hs) hlt,
        ih s.node hlt (hr.parent_live n s hn hs)]

end Preserves

/-- A valid line stays valid when a line is made to rest on a valid one. When it is made to rest on
another one, this is still true of all lines that do not rest on it. -/
theorem Linked.valid_relink (h : Linked t) {p c j : Nat} (hbefore : t.Before p c)
    (hs : t.support c ≠ .premise) (hj : t.lines.isLive j = true)
    (hvalid : (t.line j).valid = true)
    (hkeep : (t.line p).valid = true ∨ j ≠ c ∧ j ∉ t.dependents c) :
    ((t.relink p c).line j).valid = true := by
  have hw := h.rewired_relink hbefore hs
  have hp := hbefore.left_live h.ordered
  have hc := hbefore.right_live h.ordered
  have hsame : ∀ k, ¬ k = c → (t.relink p c).support k = t.support k := by
    intro k hk
    rw [hw.support, if_neg hk]
  -- The chain of a line is the same unless it meets the line with the new link.
  have hchain : ∀ k, t.lines.isLive k = true → k ≠ c → k ∉ t.dependents c →
      (t.line k).valid = true → Grounded (t.relink p c).support k := by
    intro k hk hkc hkd hkvalid
    have hnot : ¬ Grounded.Meets t.support (· = c) k := by
      rw [h.meets_iff hc hk, not_or]
      exact ⟨hkc, hkd⟩
    rw [Grounded.congr_of_not_meets hsame hnot]
    exact (h.valid k hk).mp hkvalid
  rw [hw.linked.valid j ((hw.relinked.isLive j).trans hj)]
  rcases hkeep with hpvalid | ⟨hjc, hjd⟩
  · have hpc : p ∉ t.dependents c := by
      intro hpd
      have hlt := hbefore.idxOf_lt h.ordered
      have hlt' := h.idxOf_lt_of_restsOn hp ((h.mem_dependents_iff hc).mp hpd).2
      omega
    have hpgrounded := hchain p hp (hbefore.ne h.ordered) hpc hpvalid
    have hgrounded := (h.valid j hj).mp hvalid
    clear hj hvalid
    induction hgrounded with
    | @premise k hk =>
      have hkc : k ≠ c := fun hkc => hs (hkc ▸ hk)
      exact .premise ((hsame k hkc).trans hk)
    | @line k q hk _ ih =>
      by_cases hkc : k = c
      · subst hkc
        exact .line (by rw [hw.support, if_pos rfl]) hpgrounded
      · exact .line ((hsame k hkc).trans hk) ih
  · exact hchain j hj hjc hjd hvalid

/-- What is left of a tree when some lines are taken out of it. -/
structure Shed (t u : Tree) (gone : List Nat) : Prop where
  isLive : ∀ j, u.lines.isLive j = true ↔ j ∉ gone ∧ t.lines.isLive j = true
  order : u.lines.order = t.lines.order.filter (· ∉ gone)
  formula : ∀ j, (u.line j).formula = (t.line j).formula
  node : ∀ j, (u.line j).node = (t.line j).node
  premise : ∀ j, u.lines.isLive j = true → (u.support j = .premise ↔ t.support j = .premise)
  parent : ∀ j p, u.lines.isLive j = true →
    (u.support j = .line p ↔ t.support j = .line p ∧ p ∉ gone)
  checkmarked : ∀ j, u.lines.isLive j = true → ((u.line j).checkmarked = true ↔
    (t.line j).checkmarked = true ∧ ∀ g ∈ gone, t.support g ≠ .line j)

namespace Shed

variable {gone : List Nat} {i j : Nat}

theorem nil (t : Tree) : Shed t t [] := by
  constructor <;> simp

/-- What is shed in two steps is shed at once. -/
theorem trans {gone' : List Nat} (h : Shed t u gone) (h' : Shed u v gone')
    (hlive : ∀ g ∈ gone', u.lines.isLive g = true) : Shed t v (gone' ++ gone) := by
  constructor
  · intro j
    rw [h'.isLive, h.isLive, List.mem_append, not_or, and_assoc]
  · rw [h'.order, h.order, List.filter_filter]
    apply List.filter_congr
    intro j _
    simp [not_or]
  · exact fun j => (h'.formula j).trans (h.formula j)
  · exact fun j => (h'.node j).trans (h.node j)
  · intro j hj
    exact (h'.premise j hj).trans (h.premise j ((h'.isLive j).mp hj).2)
  · intro j p hj
    rw [h'.parent j p hj, h.parent j p ((h'.isLive j).mp hj).2, List.mem_append, not_or]
    tauto
  · intro j hj
    have hj' := ((h'.isLive j).mp hj).2
    have hkept : j ∉ gone := ((h.isLive j).mp hj').1
    have hparent : ∀ g ∈ gone', u.support g ≠ .line j ↔ t.support g ≠ .line j := by
      intro g hg
      rw [ne_eq, ne_eq, h.parent g j (hlive g hg)]
      tauto
    rw [h'.checkmarked j hj, h.checkmarked j hj', and_assoc]
    refine and_congr_right fun _ => ?_
    constructor
    · rintro ⟨hgone, hgone'⟩ g hg
      rcases List.mem_append.mp hg with hg | hg
      · exact (hparent g hg).mp (hgone' g hg)
      · exact hgone g hg
    · intro hall
      exact ⟨fun g hg => hall g (List.mem_append_right _ hg),
        fun g hg => (hparent g hg).mpr (hall g (List.mem_append_left _ hg))⟩

/-- Changes of the nodes and of the lists of branches do not matter. -/
theorem of_lines (h : Shed t u gone) (horder : v.lines.order = u.lines.order)
    (hlive : ∀ j, v.lines.isLive j = u.lines.isLive j)
    (hline : ∀ j, ∃ branches, v.line j = { u.line j with branches := branches }) :
    Shed t v gone := by
  have hsupport : ∀ j, v.support j = u.support j := by
    intro j
    obtain ⟨_, hj⟩ := hline j
    rw [support, hj]
    rfl
  constructor
  · exact fun j => (hlive j) ▸ h.isLive j
  · exact horder.trans h.order
  · intro j
    obtain ⟨_, hj⟩ := hline j
    rw [hj]
    exact h.formula j
  · intro j
    obtain ⟨_, hj⟩ := hline j
    rw [hj]
    exact h.node j
  · intro j hj
    rw [hlive] at hj
    rw [hsupport]
    exact h.premise j hj
  · intro j p hj
    rw [hlive] at hj
    rw [hsupport]
    exact h.parent j p hj
  · intro j hj
    rw [hlive] at hj
    obtain ⟨_, hline⟩ := hline j
    rw [hline]
    exact h.checkmarked j hj

/-- Taking a line out sheds this line only. -/
theorem detach (h : Linked t) (hi : t.lines.isLive i = true) : Shed t (t.detach i) [i] := by
  have hplaces := SamePlaces.detach t i
  have hchild : ∀ j, t.lines.isLive j = true →
      (j ∈ (t.line i).children ↔ t.support j = .line i) := by
    intro j hj
    rw [h.mem_children_iff hi]
    exact and_iff_right hj
  have hlive : ∀ j, (t.detach i).lines.isLive j = true → t.lines.isLive j = true :=
    fun j hj => ((isLive_detach t i j).mp hj).2
  constructor
  · intro j
    rw [isLive_detach, List.mem_singleton]
  · rw [order_detach_eq_filter h.ordered hi]
    simp
  · exact hplaces.formula
  · exact hplaces.node
  · intro j hj
    rw [support_detach h.toTied hi]
    split
    · rename_i hmem
      simp [(hchild j (hlive j hj)).mp hmem]
    · rfl
  · intro j p hj
    rw [support_detach h.toTied hi, List.mem_singleton]
    split
    · rename_i hmem
      have hs := (hchild j (hlive j hj)).mp hmem
      constructor
      · intro hc
        simp at hc
      · rintro ⟨hp, hpi⟩
        rw [hs, Justification.line.injEq] at hp
        exact absurd hp.symm hpi
    · rename_i hmem
      refine ⟨fun hp => ⟨hp, ?_⟩, fun hp => hp.1⟩
      rintro rfl
      exact hmem ((hchild j (hlive j hj)).mpr hp)
  · intro j hj
    rw [line_detach h.toTied hi]
    unfold detachedLine
    dsimp only
    by_cases hs : t.support i = .line j
    · have hmarked := h.mirrored i j hi hs
      cases hc : (t.line j).checkmarked <;> simp [hs, hmarked, hc]
    · simp [hs]

theorem stow (h : Linked t) {ids : List Nat} (hids : ids.Nodup)
    (hlive : ∀ i ∈ ids, t.lines.isLive i = true) : Shed t (t.stow ids) ids := by
  induction ids with
  | nil => exact nil t
  | cons i ids ih =>
    obtain ⟨hi, hids⟩ := List.nodup_cons.mp hids
    have hrest : ∀ j ∈ ids, t.lines.isLive j = true := fun j hj => hlive j (by simp [hj])
    have hilive : (t.stow ids).lines.isLive i = true :=
      (isLive_stow ids i).mpr ⟨hi, hlive i (by simp)⟩
    exact (ih hids hrest).trans (detach (h.stow hids hrest) hilive) (by simpa using hilive)

theorem withoutLine (h : Linked t) (hi : t.lines.isLive i = true) :
    Shed t (t.withoutLine i) [i] := by
  have hlinked : Linked (t.modifyNode (t.line i).node
      (fun nd => { nd with lines := nd.lines.filter (· ≠ i) })) := h.of_lines rfl
  have hshed := detach hlinked hi
  exact ⟨hshed.isLive, hshed.order, hshed.formula, hshed.node, hshed.premise, hshed.parent,
    hshed.checkmarked⟩

/-- Deleting a node sheds its lines. -/
theorem deleteNode (h : Coherent t) {n : Nat} (hok : t.deleteNode n = .ok u) :
    Shed t u (t.node n).lines := by
  obtain ⟨hn, -, s, -, rfl⟩ := deleteNode_ok_iff.mp hok
  rw [stow_eq_foldl]
  have hlive : ∀ i ∈ (t.node n).lines, t.lines.isLive i = true :=
    fun i hi => ((h.store.holding.mem_lines_iff hn).mp hi).1
  apply (stow h.linked (h.store.holding.nodup_lines hn) hlive).of_lines
  · exact Register.order_modify _ _ _
  · exact fun j => Register.isLive_modify _ _ _ _
  · exact fun j => ⟨_, line_withoutNode _ n s j⟩

/-- The lines of both branches go. -/
theorem deleteBranch (h : Coherent t) {n l r : Nat} (hok : t.deleteBranch n = (u, .ok (l, r))) :
    Shed t u ((t.node l).lines ++ (t.node r).lines) := by
  obtain ⟨hpair, t₁, hright, hleft⟩ := deleteBranch_ok_iff.mp hok
  obtain ⟨hn, hchildren, -, -⟩ := leafPair_ok_iff.mp hpair
  have hp := h.store.rooted.pair hchildren
  have h₁ := h.of_deleteNode hright
  obtain ⟨s, -, hnodes⟩ := nodes_of_deleteNode hright
  have hlines : (t₁.node l).lines = (t.node l).lines := by
    unfold Tree.node
    rw [hnodes, get_cut]
  have hlive : t₁.nodes.isLive l = true := by
    rw [hnodes, isLive_cut]
    exact ⟨hp.ne, hp.left_live⟩
  rw [← hlines]
  apply (deleteNode h hright).trans (deleteNode h₁ hleft)
  exact fun i hi => ((h₁.store.holding.mem_lines_iff hlive).mp hi).1

end Shed

/-- Deleting a line does not change the nodes, except that one of them does not hold it. -/
theorem node_withoutLine (t : Tree) (i m : Nat) :
    ∃ lines, (t.withoutLine i).node m = { t.node m with lines := lines } := by
  unfold node
  rw [nodes_withoutLine, Register.get_modify]
  split
  · exact ⟨_, rfl⟩
  · exact ⟨_, rfl⟩

/-- Deleting a pair of branches changes their parent and no other node that is left. -/
theorem Coherent.node_of_deleteBranch (h : Coherent t) {n l r : Nat}
    (hok : t.deleteBranch n = (u, .ok (l, r))) (m : Nat) :
    ∃ children, u.node m = { t.node m with children := children } ∧
      (m ≠ n → children = (t.node m).children) := by
  unfold node
  rw [h.store.rooted.nodes_of_deleteBranch hok, get_cut, get_cut]
  refine ⟨_, rfl, fun hm => ?_⟩
  rw [if_neg (fun hc => hm hc.1), if_neg (fun hc => hm hc.1)]

/-- Deleting a branch removes its two sides and no other node. -/
theorem Coherent.isLive_of_deleteBranch (h : Coherent t) {n l r : Nat}
    (hok : t.deleteBranch n = (u, .ok (l, r))) (m : Nat) :
    u.nodes.isLive m = true ↔ m ∉ [l, r] ∧ t.nodes.isLive m = true := by
  rw [h.store.rooted.nodes_of_deleteBranch hok, isLive_cut, isLive_cut]
  simp [and_assoc]

namespace Shed

variable {gone : List Nat} {i j : Nat}

/-- A line that is left lists what it listed, without what has gone. -/
theorem children (h : Shed t u gone) (ht : Listed t) (hu : Listed u)
    (hj : u.lines.isLive j = true) :
    (u.line j).children = (t.line j).children.filter (· ∉ gone) := by
  obtain ⟨hkept, hlive⟩ := (h.isLive j).mp hj
  rw [hu.children j hj, ht.children j hlive, h.order, List.filter_filter, List.filter_filter]
  apply List.filter_congr
  intro c hc
  rw [Bool.eq_iff_iff, Bool.and_eq_true, Bool.and_eq_true, beq_iff_eq, beq_iff_eq,
    decide_eq_true_eq, and_comm]
  refine and_congr_right fun hcg => ?_
  have hclive : u.lines.isLive c = true := (h.isLive c).mpr ⟨hcg, (ht.ordered.mem_iff c).mp hc⟩
  rw [h.parent c j hclive]
  exact and_iff_left hkept

/-- A line that keeps its checkmark loses none of the lines that rest on it. -/
theorem children_of_checkmarked (h : Shed t u gone) (ht : Listed t) (hu : Listed u)
    (hj : u.lines.isLive j = true) (hmark : (u.line j).checkmarked = true) :
    (u.line j).children = (t.line j).children := by
  rw [h.children ht hu hj, List.filter_eq_self]
  intro c hc
  have hs := ((ht.mem_children_iff ((h.isLive j).mp hj).2).mp hc).2
  have hnone := ((h.checkmarked j hj).mp hmark).2
  exact decide_eq_true fun hcg => hnone c hcg hs

/-- A valid line stays valid, unless it rests on a line that goes. -/
theorem valid (h : Shed t u gone) (ht : Linked t) (hu : Linked u)
    (hj : u.lines.isLive j = true) (hvalid : (t.line j).valid = true)
    (hdep : ∀ g ∈ gone, t.lines.isLive g = true → j ∉ t.dependents g) :
    (u.line j).valid = true := by
  have hjt := ((h.isLive j).mp hj).2
  rw [hu.valid j hj]
  have hgrounded := (ht.valid j hjt).mp hvalid
  clear hvalid
  induction hgrounded with
  | premise hs => exact .premise ((h.premise _ hj).mpr hs)
  | @line c p hs _ ih =>
    have hp := (ht.parent c p hjt hs).left_live ht.ordered
    have hkept : p ∉ gone := fun hpg =>
      hdep p hpg hp ((ht.mem_dependents_iff hp).mpr ⟨hjt, .single hs⟩)
    have hpu := (h.isLive p).mpr ⟨hkept, hp⟩
    refine .line ((h.parent c p hj).mpr ⟨hs, hkept⟩) (ih hpu ?_ hp)
    intro g hg hglive hpdep
    obtain ⟨-, hrests⟩ := (ht.mem_dependents_iff hglive).mp hpdep
    exact hdep g hg hglive ((ht.mem_dependents_iff hglive).mpr ⟨hjt, hrests.tail hs⟩)

end Shed

end TruthTrees.Tree
