import TruthTrees.Proofs.Tree.Reattaching
import TruthTrees.Proofs.Tree.StoreRuns

/-! Coherent trees: references and links are sound, and every node was branched on a line that is in
the tree and stands on the path to the node. Working on a tree as a session does keeps it coherent.
-/
namespace TruthTrees.Tree

section Ancestors

variable {t : Tree} {n m : Nat}

theorem ancestors_of_root (h : (t.node n).stem = none) : t.ancestors n = [n] := by
  rw [ancestors]
  simp [Node.parent?, h]

/-- The ancestors of a node are itself and those of the node it grows from. -/
theorem ancestors_of_stem {s : Stem} (h : (t.node n).stem = some s) (hs : s.node < n) :
    t.ancestors n = n :: t.ancestors s.node := by
  rw [ancestors]
  simp [Node.parent?, h, hs]

/-- The ancestors of a node depend on what the nodes up to it grow from. -/
theorem ancestors_congr {u : Tree} (h : ∀ m ≤ n, (u.node m).parent? = (t.node m).parent?) :
    u.ancestors n = t.ancestors n := by
  induction n using Nat.strongRecOn with
  | ind n ih =>
    rw [ancestors, ancestors, h n (Nat.le_refl n)]
    cases hp : (t.node n).parent? with
    | none => rfl
    | some p =>
      dsimp only
      split
      · rename_i hpn
        rw [ih p hpn (fun m hm => h m (by omega))]
      · rfl

/-- Going up from a live node, one meets live nodes only, and all but the first have children. -/
theorem Rooted.of_mem_ancestors (h : Rooted t.nodes) (hn : t.nodes.isLive n = true)
    (hm : m ∈ t.ancestors n) :
    t.nodes.isLive m = true ∧ (m ≠ n → (t.node m).children ≠ []) := by
  induction n using Nat.strongRecOn with
  | ind n ih =>
    -- The induction is on the node: a node grows from an older one.
    by_cases hroot : n = root
    · rw [ancestors_of_root (by rw [hroot]; exact h.root_stem), List.mem_singleton] at hm
      rw [hm]
      exact ⟨hn, fun hc => absurd rfl hc⟩
    · obtain ⟨s, hs, hsn⟩ := h.stem n (Register.lt_size_of_isLive hn) hroot
      have hp := h.parent_live n s hn hs
      have hchild : n ∈ (t.node s.node).children := h.mem_children hn hs
      rw [ancestors_of_stem hs hsn, List.mem_cons] at hm
      rcases hm with rfl | hm
      · exact ⟨hn, fun hc => absurd rfl hc⟩
      · obtain ⟨hlive, hchildren⟩ := ih s.node hsn hp hm
        refine ⟨hlive, fun _ => ?_⟩
        by_cases hms : m = s.node
        · rw [hms]
          exact List.ne_nil_of_mem hchild
        · exact hchildren hms

end Ancestors

/-- Every live node was branched on a live line, which is held by its parent or an ancestor of it.
-/
def Branched (t : Tree) : Prop :=
  ∀ n s, t.nodes.isLive n = true → (t.node n).stem = some s →
    t.lines.isLive s.line = true ∧ (t.line s.line).node ∈ t.ancestors s.node

theorem Branched.congr {t u : Tree} (h : Branched t)
    (hnode : ∀ n, u.nodes.isLive n = true → t.nodes.isLive n = true)
    (hstem : ∀ n, (u.node n).stem = (t.node n).stem)
    (hlive : ∀ n s, u.nodes.isLive n = true → (t.node n).stem = some s →
      t.lines.isLive s.line = true → u.lines.isLive s.line = true)
    (hline : ∀ i, t.lines.isLive i = true → (u.line i).node = (t.line i).node) : Branched u := by
  intro n s hn hs
  rw [hstem] at hs
  obtain ⟨hl, hmem⟩ := h n s (hnode n hn) hs
  refine ⟨hlive n s hn hs hl, ?_⟩
  rw [hline _ hl, ancestors_congr (t := t) (fun m _ => by unfold Node.parent?; rw [hstem])]
  exact hmem

/-- No node was branched on a line of a leaf. -/
theorem Branched.stem_line_node_ne {t : Tree} (h : Branched t) (hr : Rooted t.nodes) {n m : Nat}
    {s : Stem} (hleaf : (t.node n).children = []) (hm : t.nodes.isLive m = true)
    (hs : (t.node m).stem = some s) : (t.line s.line).node ≠ n := by
  rintro rfl
  have hp := hr.parent_live m s hm hs
  obtain ⟨-, hmem⟩ := h m s hm hs
  obtain ⟨-, hchildren⟩ := hr.of_mem_ancestors hp hmem
  by_cases hc : (t.line s.line).node = s.node
  · have hchild : m ∈ (t.node s.node).children := hr.mem_children hm hs
    rw [← hc, hleaf] at hchild
    simp at hchild
  · exact hchildren hc hleaf

structure Coherent (t : Tree) : Prop where
  store : Store t
  linked : Linked t
  branched : Branched t

theorem linked_empty : Linked Tree.empty := by
  have hlive : ∀ i, Tree.empty.lines.isLive i ≠ true := fun i => by
    simp [Tree.empty, Register.empty, Register.isLive]
  exact
    { ordered := Register.ordered_empty
      parent := fun c p hc => absurd hc (hlive c)
      children := fun i hi => absurd hi (hlive i)
      valid := fun i hi => absurd hi (hlive i)
      marked := fun i hi => absurd hi (hlive i) }

theorem coherent_empty : Coherent Tree.empty := by
  refine ⟨store_empty, linked_empty, ?_⟩
  intro n s hn hs
  exact absurd (store_empty.branching.known n s hn hs) (Nat.not_lt_zero _)

theorem Linked.of_lines {t u : Tree} (h : Linked t) (hlines : u.lines = t.lines) : Linked u := by
  apply h.congr
  · rw [hlines]
    exact Register.SameDisplay.refl _
  · intro i
    unfold links line
    rw [hlines]

namespace Coherent

variable {t u : Tree}

/-- Changing the links does not matter, as long as they are sound again. -/
theorem relinked (h : Coherent t) (hr : Relinked t u) (hl : Linked u) : Coherent u := by
  refine ⟨h.store.relinked hr, hl, h.branched.congr ?_ ?_ ?_ ?_⟩
  · exact fun n hn => hr.nodes ▸ hn
  · exact fun n => congrArg Node.stem (hr.nodeEq n)
  · exact fun n s _ _ hl => (hr.isLive s.line).trans hl
  · exact fun i _ => hr.node i

/-- A checkmark, set or taken back, leaves the tree coherent. -/
theorem setCheckmarked (h : Coherent t) {i : Nat} (hi : t.lines.isLive i = true) (b : Bool) :
    Coherent (t.setCheckmarked i b) :=
  h.relinked ((Relinked.refl t).setCheckmarked i b) (h.linked.setCheckmarked hi b)

/-- Marks of nodes do not matter. -/
theorem modifyNode_marks (h : Coherent t) (n : Nat) {f : Node → Node}
    (hf : ∀ nd, (f nd).stem = nd.stem ∧ (f nd).children = nd.children ∧
      (f nd).lines = nd.lines) : Coherent (t.modifyNode n f) := by
  refine ⟨h.store.modifyNode_marks n hf, h.linked.of_lines rfl, h.branched.congr ?_ ?_ ?_ ?_⟩
  · intro m hm
    rw [nodes_modifyNode, Register.isLive_modify] at hm
    exact hm
  · intro m
    rw [node_modifyNode]
    split
    · exact (hf _).1
    · rfl
  · exact fun _ _ _ _ hl => hl
  · exact fun _ _ => rfl

/-- A new line enters the display and one node. -/
theorem insert (h : Coherent t) {k : Nat} (hk : k ≤ t.lines.order.length) {l : Line}
    (hl : IsNew l) {n : Nat} {g : List Nat → List Nat}
    (hstore : Store (({ t with lines := t.lines.insert k l } : Tree).modifyNode n
      (fun nd => { nd with lines := g nd.lines }))) :
    Coherent (({ t with lines := t.lines.insert k l } : Tree).modifyNode n
      (fun nd => { nd with lines := g nd.lines })) := by
  refine ⟨hstore, (h.linked.insert hk hl).of_lines rfl, h.branched.congr ?_ ?_ ?_ ?_⟩
  · intro m hm
    rw [nodes_modifyNode, Register.isLive_modify] at hm
    exact hm
  · intro m
    rw [node_modifyNode]
    split <;> rfl
  · exact fun _ s _ _ hlive => (Register.isLive_insert _ _ _ _).mpr (Or.inr hlive)
  · intro i hi
    have hne : i ≠ t.lines.size := Nat.ne_of_lt (Register.lt_size_of_isLive hi)
    rw [line_modifyNode, line_insert, if_neg hne]

/-- A new premise leaves the tree coherent. -/
theorem addPremise (h : Coherent t) (φ : Formula) : Coherent (t.addPremise φ).2 :=
  h.insert t.premiseCount_le ⟨fun _ => by simp, rfl, rfl, by simp⟩ (h.store.addPremise φ)

/-- A new line in a node of the tree leaves it coherent. -/
theorem withNewLine (h : Coherent t) {n : Nat} (hn : t.nodes.isLive n = true) (φ : Formula) :
    Coherent (t.withNewLine n φ) := by
  have hstore := h.store.withNewLine hn φ
  rw [withNewLine_eq] at hstore ⊢
  apply h.insert (Nat.le_refl _) (g := fun ids => ids ++ [t.lines.size])
  · exact hstore
  · exact ⟨fun _ => by simp, rfl, rfl, by simp⟩

/-- A line that no branch rests on can go. -/
theorem withoutLine (h : Coherent t) {i : Nat} (hi : t.lines.isLive i = true)
    (hb : (t.line i).branches = []) : Coherent (t.withoutLine i) := by
  have hplaces : SamePlaces (t.modifyNode (t.line i).node
      (fun n => { n with lines := n.lines.filter (· ≠ i) })) (t.withoutLine i) :=
    SamePlaces.detach _ i
  have hlinked : Linked (t.modifyNode (t.line i).node
      (fun n => { n with lines := n.lines.filter (· ≠ i) })) := h.linked.of_lines rfl
  refine ⟨h.store.withoutLine hi, hlinked.detach hi, h.branched.congr ?_ ?_ ?_ ?_⟩
  · intro m hm
    rw [hplaces.nodes, nodes_modifyNode, Register.isLive_modify] at hm
    exact hm
  · intro m
    rw [hplaces.nodeEq, node_modifyNode]
    split <;> rfl
  · intro m s hm hs hl
    refine (isLive_detach _ i s.line).mpr ⟨?_, hl⟩
    intro hc
    rw [hplaces.nodes, nodes_modifyNode, Register.isLive_modify] at hm
    have hmem : m ∈ (t.line i).branches := by
      rw [h.store.branching.branches, List.mem_filter, h.store.rooted.ordered.mem_iff, beq_iff_eq,
        Node.branchedOn?, hs, ← hc]
      exact ⟨hm, rfl⟩
    rw [hb] at hmem
    simp at hmem
  · exact fun j _ => hplaces.node j

/-- A leaf may fork on any line of its branch. -/
theorem withFork (h : Coherent t) {n i : Nat} (hn : t.nodes.isLive n = true)
    (hleaf : (t.node n).children = []) (hi : t.inAncestry n i = true) :
    Coherent (t.withFork n i) := by
  obtain ⟨hlive, hmem⟩ : t.lines.isLive i = true ∧ (t.line i).node ∈ t.ancestors n := by
    simpa [inAncestry] using hi
  have hnlt := Register.lt_size_of_isLive hn
  have hstem : ∀ m, ((t.withFork n i).node m).stem =
      if m = t.nodes.size ∨ m = t.nodes.size + 1 then some ⟨n, i⟩ else (t.node m).stem := by
    intro m
    rw [show (t.withFork n i).node m = (forked t.nodes n i).get m from rfl, get_forked]
    rfl
  have hanc : ∀ m < t.nodes.size, (t.withFork n i).ancestors m = t.ancestors m := by
    intro m hm
    apply ancestors_congr
    intro k hk
    unfold Node.parent?
    rw [hstem, if_neg (by omega)]
  have hline : ∀ j, ((t.withFork n i).line j).node = (t.line j).node := fun j => by
    rw [line_withFork]
  have hdisplay := display_withFork t n i
  refine ⟨h.store.withFork hn hleaf hlive, ?_, ?_⟩
  · apply h.linked.congr
    · exact hdisplay
    · intro j
      unfold links
      rw [line_withFork]
  · intro m s hm hs
    rw [hstem] at hs
    rw [hdisplay.isLive, hline]
    by_cases hnew : m = t.nodes.size ∨ m = t.nodes.size + 1
    · rw [if_pos hnew] at hs
      obtain rfl := Option.some.inj hs
      exact ⟨hlive, (hanc n hnlt).symm ▸ hmem⟩
    · rw [if_neg hnew] at hs
      have hm' : t.nodes.isLive m = true := ((isLive_forked _ _ _ _).mp hm).resolve_left hnew
      have hp := h.store.rooted.parent_live m s hm' hs
      rw [hanc s.node (Register.lt_size_of_isLive hp)]
      exact h.branched m s hm' hs

theorem deleteNode (h : Coherent t) {n : Nat} {s : Stem} (hn : t.nodes.isLive n = true)
    (hleaf : (t.node n).children = []) (hs : (t.node n).stem = some s) :
    Coherent ((t.stow (t.node n).lines).withoutNode n s) := by
  have hmem : ∀ j, j ∈ (t.node n).lines ↔ t.lines.isLive j = true ∧ (t.line j).node = n :=
    fun j => h.store.holding.mem_lines_iff hn
  have hplaces : SamePlaces t (t.stow (t.node n).lines) := SamePlaces.stow t _
  have hdisplay := display_withoutNode (t.stow (t.node n).lines) n s
  have hstow := h.linked.stow (h.store.holding.nodup_lines hn) (fun j hj => ((hmem j).mp hj).1)
  refine ⟨h.store.deleteNode hn hleaf hs, ?_, h.branched.congr ?_ ?_ ?_ ?_⟩
  · apply hstow.congr
    · exact hdisplay
    · intro j
      unfold links
      rw [line_withoutNode]
  · intro m hm
    rw [nodes_withoutNode, isLive_cut, hplaces.nodes] at hm
    exact hm.2
  · intro m
    refine Eq.trans ?_ (congrArg Node.stem (hplaces.nodeEq m))
    exact stem_cut _ n s.node m
  · -- A line that a remaining node was branched on is not among those that went: it lies above that
    -- node, and nothing grows from the one that is deleted.
    intro m s' hm hs' hl
    rw [nodes_withoutNode, isLive_cut, hplaces.nodes] at hm
    rw [hdisplay.isLive, isLive_stow, hmem]
    exact ⟨fun hc => h.branched.stem_line_node_ne h.store.rooted hleaf hm.2 hs' hc.2, hl⟩
  · intro j _
    rw [line_withoutNode]
    exact hplaces.node j

/-- A deletion of a node that is carried out leaves the tree coherent. -/
theorem of_deleteNode (h : Coherent t) {n : Nat} (hok : t.deleteNode n = .ok u) : Coherent u := by
  obtain ⟨hn, hleaf, s, hs, rfl⟩ := deleteNode_ok_iff.mp hok
  rw [stow_eq_foldl]
  exact h.deleteNode hn hleaf hs

end Coherent

end TruthTrees.Tree
