import TruthTrees.Proofs.Checked.Links
import TruthTrees.Proofs.Tree.Inverses

/-! Adding, deleting and restoring lines in memory. A deleted line is read when it is restored, so
what it remembers has to be there as well. That it is follows from how the line was deleted: a line
is only ever put back into the tree that its deletion left behind. -/
namespace TruthTrees.Checked

noncomputable section

section

variable {α β : Type}

end

def release (t : Tree) (p i : Nat) : Option Tree := do
  let t ← modifyLine t p (fun l => { l with children := l.children.filter (· ≠ i) })
  let parent ← line t p
  if parent.valid then modifyLine t i (fun l => { l with valid := false }) else return t

def leaveParent (t : Tree) (i : Nat) : Option Tree := do
  let l ← line t i
  match l.justification with
  | .line p =>
    let t ← release t p i
    let l ← line t i
    if l.parentCheckmarked then setCheckmarked t p false else return t
  | _ => return t

def orphanChildren (t : Tree) (i : Nat) : Option Tree := do
  let l ← line t i
  modifyLines t l.children
    (fun l => { l with justification := .missing, parentCheckmarked := false })

def detach (t : Tree) (i : Nat) : Option Tree := do
  let t ← leaveParent t i
  let t ← orphanChildren t i
  let t ← flood t i false
  let lines ← withdraw t.lines i
  return { t with lines := lines }

section

variable {t : Tree} {i p : Nat}

theorem release_eq (hp : p < t.lines.size) (hi : i < t.lines.size) :
    release t p i = some (t.release p i) := by
  have hremove : modifyLine t p (fun l => { l with children := l.children.filter (· ≠ i) }) =
      some (t.removeChild p i) := modifyLine_eq hp _
  have hr : Tree.Relinked t (t.removeChild p i) := (Tree.Relinked.refl t).removeChild p i
  simp only [release, hremove, Option.bind_eq_bind, Option.bind_some, line_eq (hr.size ▸ hp),
    modifyLine_eq (hr.size ▸ hi)]
  cases hvalid : ((t.removeChild p i).line p).valid <;> simp [Tree.release, hvalid]

/-- A line leaves the line that justifies it without harm. -/
theorem leaveParent_eq (h : t.Linked) (hi : t.lines.isLive i = true) :
    leaveParent t i = some (t.leaveParent i) := by
  have hilt := Register.lt_size_of_isLive hi
  unfold leaveParent
  simp only [line_eq hilt, Option.bind_eq_bind, Option.bind_some]
  cases hs : (t.line i).justification with
  | missing =>
    rw [Tree.leaveParent_of_no_parent (fun p hp => by simp [Tree.support, hs] at hp)]
    rfl
  | premise =>
    rw [Tree.leaveParent_of_no_parent (fun p hp => by simp [Tree.support, hs] at hp)]
    rfl
  | line p =>
    have hp := h.parent_live i p hi hs
    have hplt := Register.lt_size_of_isLive hp
    have hr := Tree.relinked_release t p i
    have hknown : ∀ c ∈ ((t.release p i).line p).children, c < (t.release p i).lines.size := by
      intro c hc
      rw [Tree.line_release h.toTied hi hs, if_pos rfl] at hc
      rw [hr.size]
      exact h.lt_size_of_mem_children hp (List.mem_filter.mp hc).1
    have hmark := setCheckmarked_eq (hr.size ▸ hplt) hknown false
    simp only [release_eq hplt hilt, Option.bind_some, line_eq (hr.size ▸ hilt), hmark]
    rw [Tree.leaveParent_of_parent hs]
    cases ((t.release p i).line i).parentCheckmarked <;> rfl

/-- A line in the tree is taken out without harm: whatever it refers to is there. -/
theorem detach_eq (h : t.Linked) (hi : t.lines.isLive i = true) :
    detach t i = some (t.detach i) := by
  have hline := Tree.line_leaveParent h.toTied hi
  set u := t.leaveParent i with hu
  have hr : Tree.Relinked t u := (Tree.Relinked.refl t).leaveParent i
  have hchildren : ∀ k, ∀ c ∈ (u.line k).children, c ∈ (t.line k).children := by
    intro k c hc
    rw [hline] at hc
    dsimp only at hc
    split at hc
    · exact (List.mem_filter.mp hc).1
    · exact hc
  have hilt : i < u.lines.size := hr.size ▸ Register.lt_size_of_isLive hi
  have hknown : ∀ c ∈ (u.line i).children, c < u.lines.size := by
    intro c hc
    rw [hr.size]
    exact h.lt_size_of_mem_children hi (hchildren i c hc)
  have horphan : orphanChildren u i = some (u.orphanChildren i) := by
    simp only [orphanChildren, line_eq hilt, Option.bind_eq_bind, Option.bind_some]
    exact modifyLines_eq hknown (fun _ => rfl)
  set v := u.orphanChildren i with hv
  have hrv : Tree.Relinked t v := hr.orphanChildren i
  -- Orphans keep their own children, so the links below the line still do not go in a circle.
  have hascending : v.Ascending := by
    apply h.ascending.of_subset hrv
    intro k c hc
    rw [hv, Tree.orphanChildren, Tree.line_modifyLines] at hc
    split at hc
    · exact hchildren k c hc
    · exact hchildren k c hc
  have hflood : flood v i false = some (t.unhook i) :=
    flood_eq hascending ((hrv.isLive i).trans hi) false
  have hrt : Tree.Relinked t (t.unhook i) := Tree.Relinked.unhook t i
  have hwithdraw := withdraw_eq (h.ordered.congr hrt.display) ((hrt.isLive i).trans hi)
  simp only [detach, leaveParent_eq h hi, ← hu, horphan, hflood, hwithdraw, Option.bind_eq_bind,
    Option.bind_some]
  rfl

end

def rejoinParent (t : Tree) (i : Nat) : Option Tree := do
  let l ← line t i
  match l.justification with
  | .line p =>
    if ← isLive t.lines p then placeChild t p i
    else modifyLine t i (fun l => { l with justification := .missing })
  | _ => return t

def adoptChildren (t : Tree) (i : Nat) : Option Tree := do
  let l ← line t i
  let kept ← l.children.filterM (fun c => do
    let live ← isLive t.lines c
    let child ← line t c
    return live && child.justification = .missing)
  let t ← modifyLines t kept (fun l => { l with justification := .line i })
  modifyLine t i (fun l => { l with children := kept })

def restoreCheckmarks (t : Tree) (i : Nat) : Option Tree := do
  let l ← line t i
  let t ← setCheckmarked t i l.checkmarked
  let l ← line t i
  match l.parentCheckmarked, l.justification with
  | true, .line p => setCheckmarked t p true
  | _, _ => return t

def reattach (t : Tree) (i : Nat) : Option Tree := do
  let t ← rejoinParent t i
  let t ← adoptChildren t i
  let t ← revalidate t i
  restoreCheckmarks t i

section

variable {t u : Tree} {i : Nat}

theorem rejoinParent_eq (h : t.Linked) (hi : t.lines.isLive i = true)
    (hu : Tree.Returning t u i) : rejoinParent u i = some (u.rejoinParent i) := by
  have hilt : i < u.lines.size := hu.display.size ▸ Register.lt_size_of_isLive hi
  have hjust : (u.line i).justification = t.support i := by
    rw [hu.line]
    exact if_neg (h.not_mem_children hi)
  unfold rejoinParent Tree.rejoinParent
  simp only [line_eq hilt, Option.bind_eq_bind, Option.bind_some, hjust]
  cases hs : t.support i with
  | missing => rfl
  | premise => rfl
  | line p =>
    have hp := h.parent_live i p hi hs
    have hplt : p < u.lines.size := hu.display.size ▸ Register.lt_size_of_isLive hp
    have hknown : ∀ c ∈ (u.line p).children, c < u.lines.size := by
      intro c hc
      rw [hu.line, Tree.detachedLine] at hc
      dsimp only at hc
      rw [if_pos hs] at hc
      rw [hu.display.size]
      exact h.lt_size_of_mem_children hp (List.mem_filter.mp hc).1
    simp only [isLive_eq hplt, (hu.isLive p).trans hp, Option.bind_some, if_true]
    exact placeChild_eq hplt hilt hknown

theorem adoptChildren_eq (hi : i < u.lines.size)
    (hchildren : ∀ c ∈ (u.line i).children, c < u.lines.size) :
    adoptChildren u i = some (u.adoptChildren i) := by
  set kept := (u.line i).children.filter
    (fun c => u.lines.isLive c && (u.line c).justification = .missing) with hkept
  have hfilter : (u.line i).children.filterM (fun c => do
      let live ← isLive u.lines c
      let child ← line u c
      return live && child.justification = .missing) = some kept := by
    apply List.filterM_eq_some
    intro c hc
    rw [isLive_eq (hchildren c hc), line_eq (hchildren c hc)]
    rfl
  have hknown : ∀ c ∈ kept, c < u.lines.size := fun c hc =>
    hchildren c (List.mem_filter.mp hc).1
  have hmodify : modifyLines u kept (fun l => { l with justification := .line i }) =
      some (u.modifyLines kept (fun l => { l with justification := .line i })) :=
    modifyLines_eq hknown (fun _ => rfl)
  have hsize : (u.modifyLines kept (fun l => { l with justification := .line i })).lines.size =
      u.lines.size := Register.size_modifyAll _ _ _
  unfold adoptChildren
  simp only [Option.bind_eq_bind, line_eq hi, Option.bind_some] at hfilter ⊢
  rw [hfilter, Option.bind_some, hmodify, Option.bind_some]
  exact modifyLine_eq (hsize ▸ hi) _

/-- A line is put back without harm, as what it refers to has not left the registers. -/
theorem reattach_eq (h : t.Linked) (hi : t.lines.isLive i = true) (hu : Tree.Returning t u i) :
    reattach u i = some (u.reattach i) := by
  have hilt := Register.lt_size_of_isLive hi
  set w := u.rejoinParent i with hw
  have hrw : Tree.Relinked u w := (Tree.Relinked.refl u).rejoinParent i
  have hadopt : adoptChildren w i = some (w.adoptChildren i) := by
    apply adoptChildren_eq (by rw [hrw.size, hu.display.size]; exact hilt)
    intro c hc
    rw [hw, Tree.Returning.line_rejoinParent h.toTied hi hu] at hc
    rw [hrw.size, hu.display.size]
    exact h.lt_size_of_mem_children hi hc
  set v := w.adoptChildren i with hv
  have hrv : Tree.Relinked u v := hrw.adoptChildren i
  have hthreaded : v.Threaded := Tree.Returning.threaded_adoptChildren h.toTied hi hu
  have hvi : v.lines.isLive i = true := ((hrv.isLive i).trans (hu.isLive i)).trans hi
  set x := v.revalidate i with hx
  have hrx : Tree.Relinked u x := hrv.revalidate i
  have hsize : x.lines.size = t.lines.size := hrx.size.trans hu.display.size
  have hlinex := Tree.Returning.line_revalidate_adoptChildren h.toTied hi hu
  have hmark : setCheckmarked x i (x.line i).checkmarked =
      some (x.setCheckmarked i (x.line i).checkmarked) := by
    apply setCheckmarked_eq (hsize ▸ hilt)
    intro c hc
    rw [hlinex] at hc
    rw [hsize]
    exact h.lt_size_of_mem_children hi hc
  have hliney := Tree.Returning.line_passCheckmark h.toTied hi hu hx
  set y := x.setCheckmarked i (x.line i).checkmarked with hy
  have hsizey : y.lines.size = t.lines.size := (hrx.setCheckmarked i _).size.trans hu.display.size
  have hrestore : restoreCheckmarks x i = some (x.restoreCheckmarks i) := by
    unfold restoreCheckmarks Tree.restoreCheckmarks
    simp only [line_eq (show i < x.lines.size from hsize ▸ hilt), Option.bind_eq_bind,
      Option.bind_some, hmark, line_eq (show i < y.lines.size from hsizey ▸ hilt), ← hy]
    cases (y.line i).parentCheckmarked with
    | false => rfl
    | true =>
      cases hs : (y.line i).justification with
      | missing => rfl
      | premise => rfl
      | line p =>
        have hp : t.support i = .line p := by
          rw [hliney] at hs
          exact hs
        have hplive := h.parent_live i p hi hp
        apply setCheckmarked_eq (hsizey ▸ Register.lt_size_of_isLive hplive)
        intro c hc
        rw [hliney] at hc
        rw [hsizey]
        exact h.lt_size_of_mem_children hplive hc
  simp only [reattach, rejoinParent_eq h hi hu, ← hw, hadopt, revalidate_eq hthreaded hvi,
    ← hx, hrestore, Option.bind_eq_bind, Option.bind_some]
  rfl

end

/-- The number of premises at the beginning of a list of lines. -/
def leadingPremises (t : Tree) : List Nat → Option Nat
  | [] => some 0
  | i :: rest => do
    let l ← line t i
    if l.justification = .premise then
      let k ← leadingPremises t rest
      return k + 1
    else return 0

def placeLine (t : Tree) (n i : Nat) : Option Tree := do
  let nd ← node t n
  let ids ← place t.lines i nd.lines
  modifyNode t n (fun nd => { nd with lines := ids })

def addPremise (t : Tree) (φ : Formula) : Option (Nat × Tree) := do
  let k ← leadingPremises t t.lines.order
  let new : Line := { formula := φ, node := Tree.root, justification := .premise, valid := true }
  let (i, lines) ← insert t.lines k new
  let t ← placeLine { t with lines := lines } Tree.root i
  return (i, t)

def addLine (t : Tree) (n : Nat) (φ : Formula) : Attempt (Nat × Tree) := do
  let _ ← settled (t.liveNode n)
  let new : Line := { formula := φ, node := n, justification := .missing }
  let (i, lines) := push t.lines new
  let t ← modifyNode { t with lines := lines } n (fun nd => { nd with lines := nd.lines ++ [i] })
  return (i, t)

section

variable {t : Tree}

/-- The premises in front of a list are counted without harm. -/
theorem leadingPremises_eq {ids : List Nat} (h : ∀ i ∈ ids, i < t.lines.size) :
    leadingPremises t ids =
      some (ids.takeWhile (fun i => (t.line i).justification = .premise)).length := by
  induction ids with
  | nil => rfl
  | cons i ids ih =>
    rw [leadingPremises, line_eq (h i (by simp)), ih (fun j hj => h j (by simp [hj]))]
    by_cases hp : (t.line i).justification = .premise <;> simp [hp]

theorem placeLine_eq {n i : Nat} (hn : n < t.nodes.size) (hi : i < t.lines.size)
    (hlines : ∀ j ∈ (t.node n).lines, j < t.lines.size) : placeLine t n i =
      some (t.modifyNode n (fun nd => { nd with lines := t.lines.place i nd.lines })) := by
  have hsame : t.modifyNode n (fun nd => { nd with lines := t.lines.place i (t.node n).lines }) =
      t.modifyNode n (fun nd => { nd with lines := t.lines.place i nd.lines }) :=
    modifyNode_congr rfl
  simp only [placeLine, node_eq hn, place_eq hi hlines, Option.bind_eq_bind, Option.bind_some,
    modifyNode_eq hn, hsame]

theorem lt_size_of_mem_lines (h : t.Store) {n i : Nat} (hn : t.nodes.isLive n = true)
    (hi : i ∈ (t.node n).lines) : i < t.lines.size :=
  Register.lt_size_of_isLive ((h.holding.mem_lines_iff hn).mp hi).1

/-- A premise is added without harm while there are indices left. -/
theorem addPremise_eq (h : t.Store) (hsize : t.lines.size < indexLimit) (φ : Formula) :
    addPremise t φ = some (t.addPremise φ) := by
  have hcount : leadingPremises t t.lines.order = some t.premiseCount :=
    leadingPremises_eq (fun i hi => h.holding.ordered.lt_size hi)
  set new : Line := { formula := φ, node := Tree.root, justification := .premise, valid := true }
    with hnew
  have hinsert := insert_eq h.holding.ordered hsize t.premiseCount_le new
  set u : Tree := { t with lines := t.lines.insert t.premiseCount new } with hu
  have hlarger : u.lines.size = t.lines.size + 1 := Register.size_insert _ _ _
  have hplace := placeLine_eq (t := u) (n := Tree.root) (i := t.lines.size)
    (Register.lt_size_of_isLive h.rooted.root_live) (by omega)
    (fun j hj => by
      have := lt_size_of_mem_lines h h.rooted.root_live hj
      omega)
  simp only [addPremise, hcount, ← hnew, hinsert, ← hu, hplace, Option.bind_eq_bind,
    Option.bind_some]
  rfl

/-- A line is added, or refused, without harm while there are indices left. -/
theorem addLine_eq (hsize : t.lines.size < indexLimit) (n : Nat) (φ : Formula) :
    (addLine t n φ).run = some (t.addLine n φ) := by
  apply bind_eq rfl
  intro nd hnd
  have hn := Register.lt_size_of_isLive (Tree.liveNode_ok_iff.mp hnd).1
  let new : Line := { formula := φ, node := n, justification := .missing }
  have hmodify := modifyNode_eq (t := { t with lines := t.lines.push new }) hn
    (fun nd => { nd with lines := nd.lines ++ [t.lines.size] })
  simp only [push_eq hsize]
  rw [ok_bind (run_lift hmodify)]
  rfl

end

def deleteLine (t : Tree) (i : Nat) : Attempt Tree := do
  let l ← settled (t.liveLine i)
  if l.branches ≠ [] then
    let k ← number t.lines i
    let ks ← (l.branches.mapM (number t.nodes) : Option (List Nat))
    throw (.hasBranches k ks)
  else
    let t ← modifyNode t l.node (fun n => { n with lines := n.lines.filter (· ≠ i) })
    detach t i

def redisplay (t : Tree) (i : Nat) : Option Tree := do
  let lines ← reinstate t.lines i
  return { t with lines := lines }

def restoreLine (t : Tree) (i : Nat) : Attempt Tree :=
  match t.lines.get? i with
  | none => throw (.unknownLine i)
  | some l => do
    if ← isLive t.lines i then throw (.lineNotDeleted i)
    else
      let _ ← settled (t.liveNode l.node)
      let t ← redisplay t i
      let t ← placeLine t l.node i
      reattach t i

section

variable {t u : Tree} {i : Nat}

theorem lt_size_of_mem_branches (h : t.Store) {n : Nat} (hn : n ∈ (t.line i).branches) :
    n < t.nodes.size := by
  rw [h.branching.branches] at hn
  exact h.rooted.ordered.lt_size (List.mem_filter.mp hn).1

/-- Deleting a line does no harm, whichever line it is asked of. -/
theorem deleteLine_eq (h : t.Coherent) (i : Nat) :
    (deleteLine t i).run = some (t.deleteLine i) := by
  apply bind_eq rfl
  intro l hl
  obtain ⟨hi, rfl⟩ := Tree.liveLine_ok_iff.mp hl
  by_cases hbranches : (t.line i).branches ≠ []
  · have hnumbers : (t.line i).branches.mapM (number t.nodes) =
        some ((t.line i).branches.map t.nodeNumber) :=
      List.mapM_eq_some (fun n hn => number_eq (lt_size_of_mem_branches h.store hn))
    rw [if_pos hbranches, if_pos hbranches,
      ok_bind (run_lift (number_eq (Register.lt_size_of_isLive hi))), ok_bind (run_lift hnumbers)]
    rfl
  · have hn := Register.lt_size_of_isLive (h.store.holding.home i hi)
    rw [if_neg hbranches, if_neg hbranches, ok_bind (run_lift (modifyNode_eq hn _))]
    exact run_lift (detach_eq (h.linked.of_lines rfl) hi)

/-- A line with a number returns to the display without harm. -/
theorem redisplay_eq (h : t.lines.Ordered) (hpos : 0 < t.lines.number i) (hi : i < t.lines.size) :
    redisplay t i = some (t.redisplay i) := by
  rw [redisplay, reinstate_eq h hpos hi]
  rfl

/-- A line that was just deleted is put back. -/
theorem restoreLine_eq (h : t.Coherent) (hok : t.deleteLine i = .ok u) :
    (restoreLine u i).run = some (u.restoreLine i) := by
  have hback := h.restoreLine_of_deleteLine hok
  obtain ⟨hlt, hdead, hlive, -⟩ := Tree.restoreLine_ok_iff.mp hback
  have hstore : u.Store := h.store.of_deleteLine hok
  obtain ⟨hi, -, hu⟩ := Tree.deleteLine_ok_iff.mp hok
  have hdisplay := redisplay_eq hstore.holding.ordered (hstore.holding.counted i hlt) hlt
  have hplace : placeLine (u.redisplay i) (u.line i).node i = some _ :=
    placeLine_eq (Register.lt_size_of_isLive hlive) (by simpa [Tree.redisplay] using hlt)
      (fun j hj => by
        have := lt_size_of_mem_lines hstore hlive hj
        simpa [Tree.redisplay] using this)
  set g : Node → Node := fun nd =>
    { nd with lines := (u.redisplay i).lines.place i nd.lines } with hg
  set t' := t.modifyNode (t.line i).node (fun nd => { nd with lines := nd.lines.filter (· ≠ i) })
    with ht'
  have hlinked : t'.Linked := h.linked.of_lines rfl
  have hlines : u.lines = (t'.detach i).lines := congrArg Tree.lines hu
  have hreturn : Tree.Returning t' ((u.modifyNode (u.line i).node g).redisplay i) i :=
    hlinked.returning hi hlines
  have hreattach : reattach ((u.redisplay i).modifyNode (u.line i).node g) i =
      some (((u.redisplay i).modifyNode (u.line i).node g).reattach i) :=
    reattach_eq hlinked hi hreturn
  have hget : u.lines.get? i = some (u.line i) := Register.get?_eq_some_get hlt
  unfold restoreLine Tree.restoreLine
  simp only [hget, if_neg hdead]
  rw [ok_bind (run_lift (isLive_eq hlt)), if_neg hdead, ok_bind (run_liveNode hlive),
    ok_bind (run_lift hdisplay), ok_bind (run_lift hplace), Tree.liveNode_of_isLive hlive]
  exact run_lift hreattach

end

end

end TruthTrees.Checked
