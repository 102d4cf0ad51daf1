import TruthTrees.Proofs.Checked.Lines

/-! Growing, deleting and restoring branches in memory. A node that is deleted takes its lines along
one by one, and a node that is restored brings them back one by one, so that every line finds the
tree as it left it. -/
namespace TruthTrees.Checked

noncomputable section

def withFork (t : Tree) (n i : Nat) : Option ((Nat × Nat) × Tree) := do
  let new : Node := { stem := some ⟨n, i⟩ }
  let (left, nodes) := push t.nodes new
  let (right, nodes) := push nodes new
  let t ← modifyNode { t with nodes := nodes } n (fun nd => { nd with children := [left, right] })
  let t ← modifyLine t i (fun l => { l with branches := l.branches ++ [left, right] })
  return ((left, right), t)

def branch (t : Tree) (n i : Nat) : Attempt ((Nat × Nat) × Tree) := do
  let nd ← settled (t.liveNode n)
  if !nd.isLeaf then
    let k ← number t.nodes n
    throw (.tooManyChildren k)
  else
    let l ← settled (t.liveLine i)
    if !l.formula.decompose.branches then
      let k ← number t.lines i
      throw (.doesNotBranch k)
    else withFork t n i

section

variable {t : Tree} {n i : Nat}

/-- The index of a new node may wrap around, but even then it is the index of some node. -/
theorem exists_withFork (hn : n < t.nodes.size) (hi : i < t.lines.size) :
    ∃ pair u, withFork t n i = some (pair, u) ∧
      (n < u.nodes.size ∧ pair.1 < u.nodes.size ∧ pair.2 < u.nodes.size) ∧
      (t.nodes.size + 1 < indexLimit →
        pair = (t.nodes.size, t.nodes.size + 1) ∧ u = t.withFork n i) := by
  set new : Node := { stem := some ⟨n, i⟩ } with hnew
  obtain ⟨left, r, hr⟩ : ∃ left r, push t.nodes new = (left, r) := ⟨_, _, rfl⟩
  obtain ⟨right, r', hr'⟩ : ∃ right r', push r new = (right, r') := ⟨_, _, rfl⟩
  -- Each index is at most the number of the nodes before it, whether it wrapped around or not.
  have hsize : r.size = t.nodes.size + 1 ∧ left ≤ t.nodes.size := by
    obtain ⟨rfl, rfl⟩ := Prod.mk.inj hr
    exact ⟨by simp [Register.size], Nat.mod_le _ _⟩
  have hsize' : r'.size = r.size + 1 ∧ right ≤ r.size := by
    obtain ⟨rfl, rfl⟩ := Prod.mk.inj hr'
    exact ⟨by simp [Register.size], Nat.mod_le _ _⟩
  set x : Tree := { t with nodes := r' } with hx
  have hxsize : x.nodes.size = t.nodes.size + 2 := by
    change r'.size = t.nodes.size + 2
    omega
  have hnx : n < x.nodes.size := by omega
  have hnode := modifyNode_eq hnx (fun nd => { nd with children := [left, right] })
  set y := x.modifyNode n (fun nd => { nd with children := [left, right] }) with hy
  have hline := modifyLine_eq (t := y) hi
    (fun l => { l with branches := l.branches ++ [left, right] })
  set z := y.modifyLine i (fun l => { l with branches := l.branches ++ [left, right] }) with hz
  have hzsize : z.nodes.size = t.nodes.size + 2 := (Register.size_modify _ _ _).trans hxsize
  refine ⟨(left, right), z, ?_, ?_, ?_⟩
  · simp only [withFork, ← hnew, hr, hr', ← hx, hnode, hline, Option.bind_eq_bind,
      Option.bind_some]
    rfl
  · dsimp only
    omega
  · intro hroom
    obtain ⟨rfl, rfl⟩ := Prod.mk.inj (hr.symm.trans (push_eq (by omega) new))
    obtain ⟨rfl, rfl⟩ := Prod.mk.inj (hr'.symm.trans (push_eq (by omega) new))
    rw [hz, hy, hsize.1]
    exact ⟨rfl, rfl⟩

/-- Branching does no harm even where the indices run out, and gives the branches that were asked
for where they do not. -/
theorem exists_branch (t : Tree) (n i : Nat) : ∃ result, (branch t n i).run = some result ∧
    (∀ pair u, result = .ok (pair, u) →
      n < u.nodes.size ∧ pair.1 < u.nodes.size ∧ pair.2 < u.nodes.size) ∧
    (t.nodes.size + 1 < indexLimit → result = t.branch n i) := by
  unfold branch Tree.branch
  cases hnode : t.liveNode n with
  | error e => exact ⟨.error e, rfl, by simp, fun _ => rfl⟩
  | ok nd =>
    obtain ⟨hn, rfl⟩ := Tree.liveNode_ok_iff.mp hnode
    have hnlt := Register.lt_size_of_isLive hn
    rw [ok_bind (x := settled (.ok (t.node n))) rfl]
    by_cases hleaf : (!(t.node n).isLeaf) = true
    · rw [if_pos hleaf, ok_bind (run_lift (number_eq hnlt))]
      exact ⟨_, rfl, by simp, fun _ => (if_pos hleaf).symm⟩
    · rw [if_neg hleaf]
      cases hline : t.liveLine i with
      | error e => exact ⟨.error e, rfl, by simp, fun _ => (if_neg hleaf).symm⟩
      | ok l =>
        obtain ⟨hi, rfl⟩ := Tree.liveLine_ok_iff.mp hline
        have hilt := Register.lt_size_of_isLive hi
        rw [ok_bind (x := settled (.ok (t.line i))) rfl]
        by_cases hb : (!(t.line i).formula.decompose.branches) = true
        · rw [if_pos hb, ok_bind (run_lift (number_eq hilt))]
          exact ⟨_, rfl, by simp, fun _ => ((if_neg hleaf).trans (if_pos hb)).symm⟩
        · obtain ⟨pair, u, hfork, hbounds, hsame⟩ := exists_withFork hnlt hilt
          rw [if_neg hb]
          refine ⟨_, run_lift hfork, ?_, ?_⟩
          · intro pair' u' hresult
            obtain ⟨rfl, rfl⟩ := Prod.mk.inj (Except.ok.inj hresult)
            exact hbounds
          · intro hroom
            obtain ⟨rfl, rfl⟩ := hsame hroom
            exact ((if_neg hleaf).trans (if_neg hb)).symm

end

/-- Takes lines out of the links and the display, the last one first. -/
def stow (t : Tree) (ids : List Nat) : Option Tree := ids.reverse.foldlM detach t

/-- Puts lines back into the display and the links, the first one first. -/
def unstow (t : Tree) (ids : List Nat) : Option Tree :=
  ids.foldlM (fun t i => do reattach (← redisplay t i) i) t

def deleteNode (t : Tree) (n : Nat) : Attempt Tree := do
  let nd ← settled (t.liveNode n)
  match nd.stem with
  | none => throw .rootNode
  | some stem =>
    if !nd.isLeaf then
      let k ← number t.nodes stem.node
      throw (.notLeaves k)
    else
      let t ← stow t nd.lines
      let t ← modifyLine t stem.line (fun l => { l with branches := l.branches.filter (· ≠ n) })
      let t ← modifyNode t stem.node (fun p => { p with children := p.children.filter (· ≠ n) })
      let nodes ← withdraw t.nodes n
      return { t with nodes := nodes }

/-- Enters a node among the children of its parent and the branches of its line. -/
def placeNode (t : Tree) (n : Nat) (stem : Stem) : Option Tree := do
  let p ← node t stem.node
  let children ← place t.nodes n p.children
  let t ← modifyNode t stem.node (fun p => { p with children := children })
  let l ← line t stem.line
  let branches ← place t.nodes n l.branches
  modifyLine t stem.line (fun l => { l with branches := branches })

def restoreNode (t : Tree) (n : Nat) : Attempt Tree :=
  match t.nodes.get? n with
  | none => throw (.unknownNode n)
  | some nd => do
    if ← isLive t.nodes n then throw (.nodeNotDeleted n)
    else match nd.stem with
      | none => throw .rootNode
      | some stem =>
        let parent ← settled (t.liveNode stem.node)
        if 2 ≤ parent.children.length then
          let k ← number t.nodes stem.node
          throw (.tooManyChildren k)
        else
          let _ ← settled (t.liveLine stem.line)
          let nodes ← reinstate t.nodes n
          let t ← placeNode { t with nodes := nodes } n stem
          unstow t nd.lines

section

variable {t u : Tree} {n : Nat}

/-- The lines of a node are taken out without harm: each is in the tree when its turn comes. -/
theorem stow_eq (h : t.Linked) {ids : List Nat} (hids : ids.Nodup)
    (hlive : ∀ i ∈ ids, t.lines.isLive i = true) : stow t ids = some (t.stow ids) := by
  induction ids with
  | nil => rfl
  | cons i ids ih =>
    obtain ⟨hi, hids⟩ := List.nodup_cons.mp hids
    have hrest : ∀ j ∈ ids, t.lines.isLive j = true := fun j hj => hlive j (by simp [hj])
    have hi' : (t.stow ids).lines.isLive i = true :=
      (Tree.isLive_stow ids i).mpr ⟨hi, hlive i (by simp)⟩
    have hstow := ih hids hrest
    unfold stow at hstow ⊢
    rw [List.reverse_cons, List.foldlM_append, hstow]
    simp [detach_eq (h.stow hids hrest) hi']

/-- Lines come back to the tree that they left. -/
theorem unstow_eq (h : t.Linked) {ids : List Nat} (hids : ids.Nodup)
    (hlive : ∀ i ∈ ids, t.lines.isLive i = true) : unstow (t.stow ids) ids = some t := by
  induction ids with
  | nil => rfl
  | cons i ids ih =>
    obtain ⟨hi, hids⟩ := List.nodup_cons.mp hids
    have hrest : ∀ j ∈ ids, t.lines.isLive j = true := fun j hj => hlive j (by simp [hj])
    set x := t.stow ids with hx
    have hlinked : x.Linked := h.stow hids hrest
    have hi' : x.lines.isLive i = true := (Tree.isLive_stow ids i).mpr ⟨hi, hlive i (by simp)⟩
    obtain ⟨hlt, -, hnumber⟩ := Register.leftFrom_eq_some_iff.mp
      ((Tree.leftFrom_detach hlinked.ordered hi' i).trans (if_pos rfl))
    have hdisplay : redisplay (x.detach i) i = some ((x.detach i).redisplay i) :=
      redisplay_eq (hlinked.detach hi').ordered (hnumber ▸ Nat.succ_pos _) hlt
    have hreattach : reattach ((x.detach i).redisplay i) i = some x := by
      rw [reattach_eq hlinked hi' (hlinked.returning hi' rfl),
        Tree.reattach_redisplay_detach hlinked.toTied hi']
    rw [Tree.stow_cons, ← hx, unstow, List.foldlM_cons]
    simp only [hdisplay, Option.bind_eq_bind, Option.bind_some, hreattach]
    exact ih hids hrest

/-- Deleting a node does no harm, whichever node it is asked of. -/
theorem deleteNode_eq (h : t.Coherent) (n : Nat) :
    (deleteNode t n).run = some (t.deleteNode n) := by
  apply bind_eq rfl
  intro nd hnd
  obtain ⟨hn, rfl⟩ := Tree.liveNode_ok_iff.mp hnd
  cases hs : (t.node n).stem with
  | none => rfl
  | some s =>
    have hp := Register.lt_size_of_isLive (h.store.rooted.parent_live n s hn hs)
    have hl := h.store.branching.known n s hn hs
    dsimp only
    by_cases hleaf : (!(t.node n).isLeaf) = true
    · rw [if_pos hleaf, if_pos hleaf, ok_bind (run_lift (number_eq hp))]
      rfl
    · have hmem := fun j => (h.store.holding.mem_lines_iff (i := j) hn)
      have hstow := stow_eq h.linked (h.store.holding.nodup_lines hn)
        (fun j hj => ((hmem j).mp hj).1)
      set x := t.stow (t.node n).lines with hx
      have hplaces : Tree.SamePlaces t x := Tree.SamePlaces.stow t _
      have hline := modifyLine_eq (t := x) (hplaces.size ▸ hl)
        (fun l => { l with branches := l.branches.filter (· ≠ n) })
      set y := x.modifyLine s.line (fun l => { l with branches := l.branches.filter (· ≠ n) })
        with hy
      have hynodes : y.nodes = t.nodes := hplaces.nodes
      have hnode := modifyNode_eq (t := y) (hynodes ▸ hp)
        (fun p => { p with children := p.children.filter (· ≠ n) })
      set z := y.modifyNode s.node (fun p => { p with children := p.children.filter (· ≠ n) })
        with hz
      have hdisplay : Register.SameDisplay t.nodes z.nodes := by
        rw [hz, Tree.nodes_modifyNode, hynodes]
        exact Register.SameDisplay.modify _ _ _
      have hwithdraw := withdraw_eq (h.store.rooted.ordered.congr hdisplay)
        ((hdisplay.isLive n).trans hn)
      rw [if_neg hleaf, if_neg hleaf, ok_bind (run_lift hstow), ok_bind (run_lift hline),
        ok_bind (run_lift hnode), ok_bind (run_lift hwithdraw), Tree.stow_eq_foldl]
      rfl

theorem placeNode_eq {s : Stem} (hn : n < t.nodes.size) (hp : s.node < t.nodes.size)
    (hl : s.line < t.lines.size) (hchildren : ∀ m ∈ (t.node s.node).children, m < t.nodes.size)
    (hbranches : ∀ m ∈ (t.line s.line).branches, m < t.nodes.size)
    (hu : u = t.modifyNode s.node (fun p => { p with children := t.nodes.place n p.children })) :
    placeNode t n s = some (u.modifyLine s.line
      (fun l => { l with branches := u.nodes.place n l.branches })) := by
  have hnode : modifyNode t s.node
      (fun p => { p with children := t.nodes.place n (t.node s.node).children }) = some u := by
    rw [modifyNode_eq hp, hu]
    exact congrArg some (modifyNode_congr rfl)
  have hsize : u.nodes.size = t.nodes.size := by
    rw [hu, Tree.nodes_modifyNode, Register.size_modify]
  have hlines : u.lines = t.lines := by rw [hu, Tree.lines_modifyNode]
  have hplace : place u.nodes n (u.line s.line).branches =
      some (u.nodes.place n (u.line s.line).branches) := by
    apply place_eq (hsize ▸ hn)
    intro m hm
    unfold Tree.line at hm
    rw [hlines] at hm
    rw [hsize]
    exact hbranches m hm
  have hl' : s.line < u.lines.size := hlines ▸ hl
  simp only [placeNode, node_eq hp, place_eq hn hchildren, hnode, line_eq hl', hplace,
    modifyLine_eq hl', Option.bind_eq_bind, Option.bind_some]
  exact congrArg some (modifyLine_congr rfl)

/-- The node that returns finds its place among the children of its parent. -/
theorem regrow_eq (h : t.Store) {s : Stem} (hn : n < t.nodes.size)
    (hp : s.node < t.nodes.size) (hl : s.line < t.lines.size) :
    placeNode { t with nodes := t.nodes.reinstate n } n s = some (t.withNode n s) := by
  have hsize := Register.size_reinstate t.nodes n
  apply placeNode_eq (t := { t with nodes := t.nodes.reinstate n }) (by rw [hsize]; exact hn)
    (by rw [hsize]; exact hp) hl
  · intro m hm
    have hmem : m ∈ (t.node s.node).children := by
      simpa only [Tree.node, Register.get_reinstate] using hm
    rw [hsize]
    exact Register.lt_size_of_isLive (h.rooted.mem_children_iff.mp hmem).1
  · intro m hm
    rw [hsize]
    exact lt_size_of_mem_branches h hm
  · rfl

/-- A node that was just deleted is put back. -/
theorem restoreNode_eq (h : t.Coherent) (hok : t.deleteNode n = .ok u) :
    (restoreNode u n).run = some (u.restoreNode n) := by
  have hback := h.restoreNode_of_deleteNode hok
  obtain ⟨hlt, hdead, s, hs, hp, htwo, hl, -⟩ := Tree.restoreNode_ok_iff.mp hback
  have hstore : u.Store := h.store.of_deleteNode hok
  have hreinstate := reinstate_eq hstore.rooted.ordered (hstore.rooted.counted n hlt) hlt
  have hgrow := regrow_eq hstore hlt (Register.lt_size_of_isLive hp)
    (Register.lt_size_of_isLive hl)
  obtain ⟨hn, hleaf, s', hs', hu⟩ := Tree.deleteNode_ok_iff.mp hok
  rw [Tree.stow_eq_foldl] at hu
  set ids := (t.node n).lines with hids
  have hnode : (u.node n).stem = some s' ∧ (u.node n).lines = ids := by
    have hnodes : u.nodes = Tree.cut t.nodes n s'.node := by
      rw [hu, Tree.nodes_withoutNode, (Tree.SamePlaces.stow t ids).nodes]
    unfold Tree.node
    rw [hnodes, Tree.stem_cut, Tree.get_cut]
    exact ⟨hs', rfl⟩
  obtain rfl : s = s' := Option.some.inj (hs.symm.trans hnode.1)
  have hgrown : u.withNode n s = t.stow ids := by
    rw [hu]
    exact h.store.indexed.withNode_withoutNode_stow hn hs' ids
  have hunstow : unstow (u.withNode n s) (u.node n).lines = some t := by
    rw [hgrown, hnode.2]
    exact unstow_eq h.linked (h.store.holding.nodup_lines hn)
      (fun j hj => ((h.store.holding.mem_lines_iff hn).mp hj).1)
  have hget : u.nodes.get? n = some (u.node n) := Register.get?_eq_some_get hlt
  rw [hback]
  unfold restoreNode
  simp only [hget]
  rw [ok_bind (run_lift (isLive_eq hlt)), if_neg hdead]
  simp only [hs]
  rw [ok_bind (run_liveNode hp), if_neg (Nat.not_le_of_lt htwo), ok_bind (run_liveLine hl),
    ok_bind (run_lift hreinstate), ok_bind (run_lift hgrow)]
  exact run_lift hunstow

end

def leafPair (t : Tree) (n : Nat) : Attempt (Nat × Nat) := do
  let nd ← settled (t.liveNode n)
  match nd.children with
  | [left, right] =>
    let l ← node t left
    let r ← node t right
    if l.isLeaf && r.isLeaf then return (left, right)
    else
      let k ← number t.nodes n
      throw (.notLeaves k)
  | _ =>
    let k ← number t.nodes n
    throw (.noChildren k)

def deleteBranch (t : Tree) (n : Nat) : Option (Tree × Except Refusal (Nat × Nat)) := do
  match ← (leafPair t n).run with
  | .error e => return (t, .error e)
  | .ok (left, right) =>
    match ← (deleteNode t right).run with
    | .error e => return (t, .error e)
    | .ok t₁ =>
      match ← (deleteNode t₁ left).run with
      | .error e => return (t₁, .error e)
      | .ok t₂ => return (t₂, .ok (left, right))

def restoreBranch (t : Tree) (n : Nat) (pair : Nat × Nat) :
    Option (Tree × Except Refusal Unit) := do
  match t.liveNode n with
  | .error e => return (t, .error e)
  | .ok nd =>
    if !nd.isLeaf then
      let k ← number t.nodes n
      return (t, .error (.tooManyChildren k))
    else
      match ← (restoreNode t pair.1).run with
      | .error e => return (t, .error e)
      | .ok t₁ =>
        match ← (restoreNode t₁ pair.2).run with
        | .error e => return (t₁, .error e)
        | .ok t₂ => return (t₂, .ok ())

section

variable {t u : Tree} {n : Nat}

theorem leafPair_eq (h : t.Store) (n : Nat) : (leafPair t n).run = some (t.leafPair n) := by
  apply bind_eq rfl
  intro nd hnd
  obtain ⟨hn, rfl⟩ := Tree.liveNode_ok_iff.mp hnd
  have hnumber := number_eq (Register.lt_size_of_isLive hn)
  have hchild : ∀ m ∈ (t.node n).children, m < t.nodes.size := fun m hm =>
    Register.lt_size_of_isLive (h.rooted.mem_children_iff.mp hm).1
  rcases hchildren : (t.node n).children with _ | ⟨l, _ | ⟨r, _ | ⟨m, rest⟩⟩⟩
  · dsimp only
    rw [ok_bind (run_lift hnumber)]
    rfl
  · dsimp only
    rw [ok_bind (run_lift hnumber)]
    rfl
  · have hl := node_eq (hchild l (by simp [hchildren]))
    have hr := node_eq (hchild r (by simp [hchildren]))
    dsimp only
    rw [ok_bind (run_lift hl), ok_bind (run_lift hr)]
    split
    · rfl
    · rw [ok_bind (run_lift hnumber)]
      rfl
  · dsimp only
    rw [ok_bind (run_lift hnumber)]
    rfl

/-- Deleting a branch does no harm, whether or not it is refused. -/
theorem deleteBranch_eq (h : t.Coherent) (n : Nat) :
    deleteBranch t n = some (t.deleteBranch n) := by
  unfold deleteBranch Tree.deleteBranch
  simp only [leafPair_eq h.store, Option.bind_eq_bind, Option.bind_some]
  cases t.leafPair n with
  | error e => rfl
  | ok pair =>
    simp only [deleteNode_eq h, Option.bind_some]
    cases hr : t.deleteNode pair.2 with
    | error e => rfl
    | ok t₁ =>
      simp only [deleteNode_eq (h.of_deleteNode hr), Option.bind_some]
      cases t₁.deleteNode pair.1 <;> rfl

/-- Branches that were just deleted are put back. -/
theorem restoreBranch_eq (h : t.Coherent) {l r : Nat}
    (hok : t.deleteBranch n = (u, .ok (l, r))) :
    restoreBranch u n (l, r) = some (u.restoreBranch n (l, r)) := by
  obtain ⟨hn, hleaf⟩ := h.store.rooted.leaf_of_deleteBranch hok
  obtain ⟨-, t₁, hr, hl⟩ := Tree.deleteBranch_ok_iff.mp hok
  have hback := restoreNode_eq (h.of_deleteNode hr) hl
  have hback' := restoreNode_eq h hr
  rw [(h.of_deleteNode hr).restoreNode_of_deleteNode hl] at hback
  rw [h.restoreNode_of_deleteNode hr] at hback'
  rw [h.restoreBranch_of_deleteBranch hok]
  unfold restoreBranch
  rw [Tree.liveNode_of_isLive hn]
  simp [Node.isLeaf, hleaf, hback, hback']

end

end

end TruthTrees.Checked
