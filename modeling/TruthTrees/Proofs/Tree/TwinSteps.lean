import TruthTrees.Proofs.Tree.Inverses
import TruthTrees.Proofs.Tree.Renaming

/-! Twin trees stay twins when the same is done to both. What is deleted needs no new map, and what
is added extends the map by the new identities. -/
namespace TruthTrees.Tree

variable {σ σ' τ τ' : Nat → Nat} {t u : Tree} {i j n m : Nat}

theorem LineRenames.congr {l l' : Line} (h : LineRenames σ τ l l') (hnode : τ' l.node = τ l.node)
    (hline : ∀ p, l.justification = .line p → σ' p = σ p) : LineRenames σ' τ' l l' where
  formula := h.formula
  node := h.node.trans hnode.symm
  justification := by
    rw [h.justification]
    cases hj : l.justification with
    | missing | premise => rfl
    | line p => simp [Justification.rename, hline p hj]
  checkmarked := h.checkmarked

theorem NodeRenames.congr {nd nd' : Node} (h : NodeRenames σ τ nd nd')
    (hstem : ∀ s, nd.stem = some s → s.rename σ' τ' = s.rename σ τ) : NodeRenames σ' τ' nd nd' where
  stem := by
    rw [h.stem]
    cases hs : nd.stem with
    | none => rfl
    | some s => simp [hstem s hs]
  closed := h.closed
  markedOpen := h.markedOpen

/-- A change of nodes does not matter that leaves alone what corresponds. -/
theorem Renames.modifyNode (h : Renames σ τ t u) (hn : t.nodes.isLive n = true)
    {f g : Node → Node} (hfg : ∀ nd nd', NodeRenames σ τ nd nd' → NodeRenames σ τ (f nd) (g nd')) :
    Renames σ τ (t.modifyNode n f) (u.modifyNode (τ n) g) where
  lines := h.lines
  nodes := h.nodes.modify _ _ _ _
  line := h.line
  node m hm := by
    rw [nodes_modifyNode, Register.isLive_modify] at hm
    have hlt := Register.lt_size_of_isLive hm
    have hlt' := Register.lt_size_of_isLive (h.nodes.isLive hm)
    rw [node_modifyNode, node_modifyNode]
    by_cases hmn : m = n
    · rw [if_pos ⟨hmn, hlt⟩, if_pos ⟨congrArg τ hmn, hlt'⟩]
      exact hfg _ _ (h.node m hm)
    · rw [if_neg (fun hc => hmn hc.1), if_neg (fun hc => hmn ((h.nodes.inj hm hn).mp hc.1))]
      exact h.node m hm

theorem Twins.modifyNode_marks (h : Twins σ τ t u) (hn : t.nodes.isLive n = true)
    {f : Node → Node} (hf : ∀ nd, (f nd).stem = nd.stem ∧ (f nd).children = nd.children ∧
      (f nd).lines = nd.lines)
    (hff : ∀ nd nd', NodeRenames σ τ nd nd' → NodeRenames σ τ (f nd) (f nd')) :
    Twins σ τ (t.modifyNode n f) (u.modifyNode (τ n) f) :=
  ⟨h.toRenames.modifyNode hn hff, h.left.modifyNode_marks n hf, h.right.modifyNode_marks (τ n) hf⟩

theorem Twins.setClosed (h : Twins σ τ t u) (hn : t.nodes.isLive n = true) (b : Bool) :
    Twins σ τ (t.setClosed n b) (u.setClosed (τ n) b) :=
  h.modifyNode_marks hn (fun _ => ⟨rfl, rfl, rfl⟩) (fun _ _ hnd => ⟨hnd.stem, rfl, hnd.markedOpen⟩)

theorem Twins.setOpen (h : Twins σ τ t u) (hn : t.nodes.isLive n = true) (b : Bool) :
    Twins σ τ (t.setOpen n b) (u.setOpen (τ n) b) :=
  h.modifyNode_marks hn (fun _ => ⟨rfl, rfl, rfl⟩) (fun _ _ hnd => ⟨hnd.stem, hnd.closed, rfl⟩)

/-- Relinked trees correspond if what their lines rest on and which are checkmarked does. -/
theorem Renames.relinked (h : Renames σ τ t u) {t' u' : Tree} (ht : Relinked t t')
    (hu : Relinked u u')
    (hsupport : ∀ i, t.lines.isLive i = true → u'.support (σ i) = (t'.support i).rename σ)
    (hmark : ∀ i, t.lines.isLive i = true →
      (u'.line (σ i)).checkmarked = (t'.line i).checkmarked) : Renames σ τ t' u' where
  lines := h.lines.congr ht.display hu.display
  nodes := by
    rw [ht.nodes, hu.nodes]
    exact h.nodes
  line i hi := by
    rw [ht.isLive] at hi
    have hline := h.line i hi
    refine ⟨?_, ?_, hsupport i hi, hmark i hi⟩
    · rw [hu.formula, ht.formula, hline.formula]
    · rw [hu.node, ht.node, hline.node]
  node n hn := by
    rw [ht.nodes] at hn
    rw [ht.nodeEq, hu.nodeEq]
    exact h.node n hn

/-- Twins stay twins under a checkmark. -/
theorem Twins.setCheckmarked (h : Twins σ τ t u) (hi : t.lines.isLive i = true) (b : Bool) :
    Twins σ τ (t.setCheckmarked i b) (u.setCheckmarked (σ i) b) := by
  have hi' := h.lines.isLive hi
  have hline := line_setCheckmarked (Register.lt_size_of_isLive hi)
    (fun c hc => h.left.linked.lt_size_of_mem_children hi hc) b
  have hline' := line_setCheckmarked (Register.lt_size_of_isLive hi')
    (fun c hc => h.right.linked.lt_size_of_mem_children hi' hc) b
  refine ⟨h.toRenames.relinked ((Relinked.refl t).setCheckmarked i b)
    ((Relinked.refl u).setCheckmarked (σ i) b) ?_ ?_, h.left.setCheckmarked hi b,
    h.right.setCheckmarked hi' b⟩
  · intro j hj
    unfold support
    rw [hline, hline']
    exact (h.line j hj).justification
  · intro j hj
    rw [hline, hline']
    simp only [h.lines.inj hj hi, (h.line j hj).checkmarked]

/-- Twin lines come in the same order. -/
theorem Twins.before (h : Twins σ τ t u) {p c : Nat} (hbefore : t.Before p c) :
    u.Before (σ p) (σ c) := by
  unfold Before
  rw [h.lines.order]
  exact List.Sublist.map σ hbefore

/-- Twins stay twins when a line is linked. -/
theorem Twins.relink (h : Twins σ τ t u) {p c : Nat} (hbefore : t.Before p c)
    (hp : t.support c ≠ .premise) : Twins σ τ (t.relink p c) (u.relink (σ p) (σ c)) := by
  have hc := hbefore.right_live h.lines.left
  have hp' : u.support (σ c) ≠ .premise := fun hs => hp ((h.premise_iff hc).mp hs)
  have ht := h.left.linked.rewired_relink hbefore hp
  have hu := h.right.linked.rewired_relink (h.before hbefore) hp'
  refine ⟨h.toRenames.relinked ht.relinked hu.relinked ?_ ?_, h.left.relinked ht.relinked ht.linked,
    h.right.relinked hu.relinked hu.linked⟩
  · intro j hj
    rw [ht.support, hu.support]
    by_cases hjc : j = c
    · rw [if_pos hjc, if_pos (congrArg σ hjc)]
      rfl
    · rw [if_neg hjc, if_neg (fun hs => hjc ((h.lines.inj hj hc).mp hs))]
      exact h.support hj
  · intro j hj
    rw [ht.checkmarked, hu.checkmarked]
    exact (h.line j hj).checkmarked

/-- Renamed lines are taken out alike. -/
theorem Renames.detach (h : Renames σ τ t u) (ht : Linked t) (hu : Linked u)
    (hi : t.lines.isLive i = true) : Renames σ τ (t.detach i) (u.detach (σ i)) where
  lines := by
    have hr := Relinked.unhook t i
    have hr' := Relinked.unhook u (σ i)
    have hi' : (t.unhook i).lines.isLive i = true := (hr.isLive i).trans hi
    exact (h.lines.congr hr.display hr'.display).withdraw hi'
  nodes := by
    rw [(SamePlaces.detach t i).nodes, (SamePlaces.detach u (σ i)).nodes]
    exact h.nodes
  line j hj := by
    obtain ⟨hji, hj⟩ := (isLive_detach t i j).mp hj
    have hline := h.line j hj
    have hchildren := h.mem_children_iff ht hu hi hj
    have hparent := h.support_eq_line_iff ht hi hj
    have hmark := h.parentCheckmarked ht hu hi
    rw [line_detach ht.toTied hi, line_detach hu.toTied (h.lines.isLive hi)]
    refine ⟨hline.formula, hline.node, ?_, ?_⟩
    · simp only [detachedLine, hchildren]
      split
      · rfl
      · exact hline.justification
    · simp only [detachedLine, hparent, hmark, hline.checkmarked]
  node n hn := by
    rw [(SamePlaces.detach t i).nodes] at hn
    rw [(SamePlaces.detach t i).nodeEq, (SamePlaces.detach u (σ i)).nodeEq]
    exact h.node n hn

/-- Twins stay twins when a line is deleted. -/
theorem Twins.withoutLine (h : Twins σ τ t u) (hi : t.lines.isLive i = true)
    (hb : (t.line i).branches = []) : Twins σ τ (t.withoutLine i) (u.withoutLine (σ i)) := by
  have hb' : (u.line (σ i)).branches = [] := by
    rw [h.branches hi, hb]
    rfl
  obtain ⟨hlive, hhome⟩ := h.home hi
  have hnode := h.toRenames.modifyNode hlive
    (f := fun nd => { nd with lines := nd.lines.filter (· ≠ i) })
    (g := fun nd => { nd with lines := nd.lines.filter (· ≠ σ i) })
    (fun _ _ hnd => ⟨hnd.stem, hnd.closed, hnd.markedOpen⟩)
  rw [← hhome] at hnode
  exact ⟨hnode.detach (h.left.linked.of_lines rfl) (h.right.linked.of_lines rfl) hi,
    h.left.withoutLine hi hb, h.right.withoutLine (h.lines.isLive hi) hb'⟩

/-- Lines that are deleted one after another. -/
theorem Renames.stow (h : Renames σ τ t u) (ht : Linked t) (hu : Linked u) {ids : List Nat}
    (hnodup : ids.Nodup) (hids : ∀ i ∈ ids, t.lines.isLive i = true) :
    Renames σ τ (t.stow ids) (u.stow (ids.map σ)) := by
  induction ids with
  | nil => exact h
  | cons i ids ih =>
    obtain ⟨hi, hnodup⟩ := List.nodup_cons.mp hnodup
    have hrest : ∀ j ∈ ids, t.lines.isLive j = true := fun j hj =>
      hids j (List.mem_cons_of_mem i hj)
    have hnodup' : (ids.map σ).Nodup := hnodup.map_on
      (fun j hj k hk => (h.lines.inj (hrest j hj) (hrest k hk)).mp)
    have hrest' : ∀ j ∈ ids.map σ, u.lines.isLive j = true := by
      intro j hj
      obtain ⟨k, hk, rfl⟩ := List.mem_map.mp hj
      exact h.lines.isLive (hrest k hk)
    have hlive : (t.stow ids).lines.isLive i = true :=
      (isLive_stow ids i).mpr ⟨hi, hids i List.mem_cons_self⟩
    rw [List.map_cons, stow_cons, stow_cons]
    exact (ih hnodup hrest).detach (ht.stow hnodup hrest) (hu.stow hnodup' hrest') hlive

theorem Renames.withoutNode (h : Renames σ τ t u) (hn : t.nodes.isLive n = true) (s : Stem) :
    Renames σ τ (t.withoutNode n s) (u.withoutNode (τ n) (s.rename σ τ)) where
  lines := h.lines.congr (display_withoutNode t n s) (display_withoutNode u (τ n) _)
  nodes := by
    rw [nodes_withoutNode, nodes_withoutNode]
    exact (h.nodes.modify _ _ _ _).withdraw ((Register.isLive_modify _ _ _ _).trans hn)
  line i hi := by
    have hline := h.line i ((Register.isLive_modify _ _ _ _).symm.trans hi)
    rw [line_withoutNode, line_withoutNode]
    exact ⟨hline.formula, hline.node, hline.justification, hline.checkmarked⟩
  node m hm := by
    have hnode := h.node m ((isLive_cut _ _ _ _).mp hm).2
    have hcut : ∀ (v : Tree) (k : Nat) (s : Stem) (m : Nat), (v.withoutNode k s).node m =
        (cut v.nodes k s.node).get m := fun _ _ _ _ => rfl
    rw [hcut, hcut, get_cut, get_cut]
    exact ⟨hnode.stem, hnode.closed, hnode.markedOpen⟩

/-- Twins stay twins when a node is deleted. -/
theorem Twins.of_deleteNode (h : Twins σ τ t u) (hn : t.nodes.isLive n = true) {t' u' : Tree}
    (ht : t.deleteNode n = .ok t') (hu : u.deleteNode (τ n) = .ok u') : Twins σ τ t' u' := by
  refine ⟨?_, h.left.of_deleteNode ht, h.right.of_deleteNode hu⟩
  obtain ⟨-, -, s, hs, rfl⟩ := deleteNode_ok_iff.mp ht
  obtain ⟨-, -, s', hs', rfl⟩ := deleteNode_ok_iff.mp hu
  obtain rfl : s.rename σ τ = s' := by simpa [(h.node n hn).stem, hs] using hs'
  have hstow := h.toRenames.stow h.left.linked h.right.linked
    (h.left.store.holding.nodup_lines hn) (h.isLive_of_mem_lines hn)
  rw [stow_eq_foldl, stow_eq_foldl, h.lines_node hn]
  apply hstow.withoutNode
  rw [(SamePlaces.stow t _).nodes]
  exact hn

theorem Twins.leafPair (h : Twins σ τ t u) (hn : t.nodes.isLive n = true) :
    u.leafPair (τ n) = (t.leafPair n).map (fun pair => (τ pair.1, τ pair.2)) := by
  have hchild := h.isLive_of_mem_children_node n
  have hleaf : ∀ m ∈ (t.node n).children, (u.node (τ m)).isLeaf = (t.node m).isLeaf :=
    fun m hm => h.isLeaf (hchild m hm)
  unfold Tree.leafPair
  rw [liveNode_of_isLive hn, liveNode_of_isLive (h.nodes.isLive hn)]
  simp only [bind, Except.bind, h.children_node hn, h.nodeNumber hn]
  match hc : (t.node n).children with
  | [] | [_] | _ :: _ :: _ :: _ => rfl
  | [l, r] =>
    rw [hc] at hleaf
    simp only [List.map_cons, List.map_nil, hleaf l (by simp), hleaf r (by simp)]
    split <;> rfl

/-- Deleting a pair of branches is refused for the same reason, or carried out. -/
theorem Twins.deleteBranch (h : Twins σ τ t u) (hn : t.nodes.isLive n = true) :
    (∃ e, t.deleteBranch n = (t, .error e) ∧ u.deleteBranch (τ n) = (u, .error e)) ∨
    ∃ t' u' pair pair', t.deleteBranch n = (t', .ok pair) ∧
      u.deleteBranch (τ n) = (u', .ok pair') ∧ Twins σ τ t' u' := by
  have hpair' := h.leafPair hn
  cases hpair : t.leafPair n with
  | error e =>
    rw [hpair] at hpair'
    left
    refine ⟨e, ?_, ?_⟩
    · simp only [Tree.deleteBranch, hpair]
    · simp only [Tree.deleteBranch, hpair', Except.map]
  | ok pair =>
    obtain ⟨l, r⟩ := pair
    rw [hpair] at hpair'
    obtain ⟨t', ht⟩ := h.left.deleteBranch_ok hpair
    obtain ⟨u', hu⟩ := h.right.deleteBranch_ok hpair'
    obtain ⟨-, t₁, hr, hl⟩ := deleteBranch_ok_iff.mp ht
    obtain ⟨-, u₁, hr', hl'⟩ := deleteBranch_ok_iff.mp hu
    obtain ⟨hr₁, -⟩ := deleteNode_ok_iff.mp hr
    obtain ⟨hl₁, -⟩ := deleteNode_ok_iff.mp hl
    have h₁ := h.of_deleteNode hr₁ hr hr'
    exact Or.inr ⟨t', u', _, _, ht, hu, h₁.of_deleteNode hl₁ hl hl'⟩

/-- New lines at the same place correspond to each other. -/
theorem Twins.insert (h : Twins σ τ t u) {k : Nat} (hk : k ≤ t.lines.order.length) {l l' : Line}
    (hl : LineRenames σ τ l l') (hnew : ∀ p, l.justification ≠ .line p) :
    Renames (Function.update σ t.lines.size u.lines.size) τ
      { t with lines := t.lines.insert k l } { u with lines := u.lines.insert k l' } := by
  have hold : ∀ j, t.lines.isLive j = true →
      Function.update σ t.lines.size u.lines.size j = σ j := fun j hj =>
    Function.update_of_ne (Nat.ne_of_lt (Register.lt_size_of_isLive hj)) _ _
  refine ⟨h.lines.insert hk l l', h.nodes, ?_, ?_⟩
  · intro i hi
    rcases (Register.isLive_insert _ _ _ _).mp hi with rfl | hi
    · have hline : ∀ v : Tree, ∀ a, ({ v with lines := v.lines.insert k a } : Tree).line
          v.lines.size = a := fun v a => by
        rw [line_insert, if_pos rfl]
      rw [Function.update_self, hline, hline]
      exact hl.congr rfl (fun p hp => absurd hp (hnew p))
    · have hne := Nat.ne_of_lt (Register.lt_size_of_isLive hi)
      have hne' := Nat.ne_of_lt (Register.lt_size_of_isLive (h.lines.isLive hi))
      rw [hold i hi, line_insert, line_insert, if_neg hne, if_neg hne']
      refine (h.line i hi).congr rfl (fun p hp => hold p ?_)
      exact (h.left.linked.parent i p hi hp).left_live h.lines.left
  · intro n hn
    refine (h.node n hn).congr (fun s hs => ?_)
    simp only [Stem.rename, hold s.line (h.left.branched n s hn hs).1]

theorem Twins.length_lines (h : Twins σ τ t u) : u.lines.order.length = t.lines.order.length := by
  rw [h.lines.order, List.length_map]

theorem Twins.premiseCount (h : Twins σ τ t u) : u.premiseCount = t.premiseCount := by
  have htake : ∀ ids : List Nat, (∀ i ∈ ids, t.lines.isLive i = true) →
      ((ids.map σ).takeWhile (fun i => (u.line i).justification = .premise)).length =
        (ids.takeWhile (fun i => (t.line i).justification = .premise)).length := by
    intro ids hids
    induction ids with
    | nil => rfl
    | cons i ids ih =>
      have hpremise := h.premise_iff (hids i List.mem_cons_self)
      have hrest := ih (fun j hj => hids j (List.mem_cons_of_mem i hj))
      by_cases hp : (t.line i).justification = .premise
      · simp [hpremise, hp, hrest]
      · simp [hpremise, hp]
  unfold Tree.premiseCount
  rw [h.lines.order, htake]
  exact fun i hi => (h.lines.left.mem_iff i).mp hi

/-- New lines that enter corresponding nodes, at whatever place in them. -/
theorem Twins.insertInto (h : Twins σ τ t u) {k : Nat} (hk : k ≤ t.lines.order.length)
    {l l' : Line} (hl : LineRenames σ τ l l') (hnew : ∀ p, l.justification ≠ .line p)
    (hn : t.nodes.isLive n = true) (g g' : List Nat → List Nat) :
    Renames (Function.update σ t.lines.size u.lines.size) τ
      (({ t with lines := t.lines.insert k l } : Tree).modifyNode n
        (fun nd => { nd with lines := g nd.lines }))
      (({ u with lines := u.lines.insert k l' } : Tree).modifyNode (τ n)
        (fun nd => { nd with lines := g' nd.lines })) :=
  (h.insert hk hl hnew).modifyNode hn (fun _ _ hnd => ⟨hnd.stem, hnd.closed, hnd.markedOpen⟩)

/-- Twins stay twins under a new premise, which is sent to the other new premise. -/
theorem Twins.addPremise (h : Twins σ τ t u) (φ : Formula) :
    Twins (Function.update σ t.lines.size u.lines.size) τ (t.addPremise φ).2
      (u.addPremise φ).2 := by
  refine ⟨?_, h.left.addPremise φ, h.right.addPremise φ⟩
  have hroot := h.left.store.rooted.root_live
  set new : Line := { formula := φ, node := root, justification := .premise, valid := true }
    with hnew
  have hrenames : LineRenames σ τ new new := ⟨rfl, h.map_root.symm, rfl, rfl⟩
  have hinto := h.insertInto t.premiseCount_le hrenames (fun _ => by simp [hnew]) hroot
  rw [h.map_root] at hinto
  unfold Tree.addPremise
  rw [h.premiseCount]
  exact hinto _ _

theorem Twins.withNewLine (h : Twins σ τ t u) (hn : t.nodes.isLive n = true) (φ : Formula) :
    Twins (Function.update σ t.lines.size u.lines.size) τ (t.withNewLine n φ)
      (u.withNewLine (τ n) φ) := by
  refine ⟨?_, h.left.withNewLine hn φ, h.right.withNewLine (h.nodes.isLive hn) φ⟩
  have hrenames : LineRenames σ τ (newLine n φ) (newLine (τ n) φ) := ⟨rfl, rfl, rfl, rfl⟩
  have hinto := h.insertInto (Nat.le_refl _) hrenames (fun _ => by simp) hn
    (fun ids => ids ++ [t.lines.size]) (fun ids => ids ++ [u.lines.size])
  rw [withNewLine_eq, withNewLine_eq, h.length_lines]
  exact hinto

def forkMap (τ : Nat → Nat) (t u : Tree) : Nat → Nat :=
  Function.update (Function.update τ t.nodes.size u.nodes.size) (t.nodes.size + 1)
    (u.nodes.size + 1)

theorem forkMap_of_isLive (hm : t.nodes.isLive m = true) : forkMap τ t u m = τ m := by
  have hlt := Register.lt_size_of_isLive hm
  unfold forkMap
  rw [Function.update_of_ne (by omega), Function.update_of_ne (by omega)]

theorem forkMap_size (τ : Nat → Nat) (t u : Tree) : forkMap τ t u t.nodes.size = u.nodes.size := by
  unfold forkMap
  rw [Function.update_of_ne (by omega), Function.update_self]

theorem forkMap_size_succ (τ : Nat → Nat) (t u : Tree) :
    forkMap τ t u (t.nodes.size + 1) = u.nodes.size + 1 :=
  Function.update_self _ _ _

/-- Twins stay twins under a fork, the new nodes being sent to each other. -/
theorem Twins.withFork (h : Twins σ τ t u) (hn : t.nodes.isLive n = true)
    (hleaf : (t.node n).children = []) (hi : t.inAncestry n i = true) :
    Twins σ (forkMap τ t u) (t.withFork n i) (u.withFork (τ n) (σ i)) := by
  have hlive : t.lines.isLive i = true := (Bool.and_eq_true_iff.mp hi).1
  have hleaf' : (u.node (τ n)).children = [] := by
    rw [h.children_node hn, hleaf]
    rfl
  have hi' : u.inAncestry (τ n) (σ i) = true := (h.inAncestry hn hlive).trans hi
  have ht := h.left.withFork hn hleaf hi
  have hu := h.right.withFork (h.nodes.isLive hn) hleaf' hi'
  refine ⟨⟨?_, ⟨ht.store.rooted.ordered, hu.store.rooted.ordered, ?_⟩, ?_, ?_⟩, ht, hu⟩
  · exact h.lines.congr (display_withFork t n i) (display_withFork u (τ n) (σ i))
  · have hold : t.nodes.order.map (forkMap τ t u) = t.nodes.order.map τ :=
      List.map_congr_left (fun m hm => forkMap_of_isLive ((h.nodes.left.mem_iff m).mp hm))
    rw [nodes_withFork, nodes_withFork, order_forked, order_forked, List.map_append, hold,
      h.nodes.order]
    simp [forkMap_size, forkMap_size_succ]
  · intro j hj
    have hj : t.lines.isLive j = true := (Register.isLive_modify _ _ _ _).symm.trans hj
    have hline : LineRenames σ (forkMap τ t u) (t.line j) (u.line (σ j)) :=
      (h.line j hj).congr (forkMap_of_isLive (h.left.store.holding.home j hj)) (fun _ _ => rfl)
    rw [line_withFork, line_withFork]
    exact ⟨hline.formula, hline.node, hline.justification, hline.checkmarked⟩
  · intro m hm
    have hget : ∀ (v : Tree) (k j m : Nat), (v.withFork k j).node m =
        (forked v.nodes k j).get m := fun _ _ _ _ => rfl
    rw [hget, hget, get_forked, get_forked]
    by_cases hnew : m = t.nodes.size ∨ m = t.nodes.size + 1
    · have hnew' : forkMap τ t u m = u.nodes.size ∨ forkMap τ t u m = u.nodes.size + 1 := by
        rcases hnew with rfl | rfl
        · exact Or.inl (forkMap_size τ t u)
        · exact Or.inr (forkMap_size_succ τ t u)
      rw [Register.get_of_size_le (r := t.nodes) (by omega),
        Register.get_of_size_le (r := u.nodes) (by omega)]
      simp only [if_pos hnew, if_pos hnew']
      exact ⟨by simp [Stem.rename, forkMap_of_isLive hn], rfl, rfl⟩
    · have hm' := ((isLive_forked _ _ _ _).mp hm).resolve_left hnew
      have hlt := Register.lt_size_of_isLive (h.nodes.isLive hm')
      have hnode : NodeRenames σ (forkMap τ t u) (t.node m) (u.node (τ m)) := by
        apply (h.node m hm').congr
        intro s hs
        simp only [Stem.rename, forkMap_of_isLive (h.left.store.rooted.parent_live m s hm' hs)]
      rw [forkMap_of_isLive hm']
      simp only [if_neg hnew, if_neg (show ¬(τ m = u.nodes.size ∨ τ m = u.nodes.size + 1) by omega)]
      exact ⟨hnode.stem, hnode.closed, hnode.markedOpen⟩

end TruthTrees.Tree
