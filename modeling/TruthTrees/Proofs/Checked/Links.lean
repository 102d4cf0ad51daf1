import TruthTrees.Proofs.Checked.Registers
import TruthTrees.Proofs.Tree.Linking

/-! The links between lines, followed through memory. A line or node is found by its index, which
has to be known. Marking all lines that rest on a line valid works off a stack of lines and comes to
an end only if the links do not go in a circle; where it would go on for ever, it is `none` like
everything else that goes wrong. On a tree with sound links nothing goes wrong. -/
namespace TruthTrees.Checked

noncomputable section

section

variable {α β : Type}

/-- What a recursion gives that may make so many calls one inside the other. One call more breaks
off. -/
def nested (step : (α → Option β) → α → Option β) : Nat → α → Option β
  | 0, _ => none
  | k + 1, a => step (nested step k) a

open Classical in
/-- What a recursion gives that may make as many calls as it needs. It comes to a result if some
number of calls is enough for that, and otherwise goes on for ever or breaks off. -/
def recursion (step : (α → Option β) → α → Option β) (a : α) : Option β :=
  if h : ∃ b m, ∀ k, m ≤ k → nested step k a = some b then some h.choose else none

/-- A recursion for which some number of calls is enough comes to a result. -/
theorem recursion_eq {step : (α → Option β) → α → Option β} {a : α} {b : β} (m : Nat)
    (h : ∀ k, m ≤ k → nested step k a = some b) : recursion step a = some b := by
  have hresult : ∃ b m, ∀ k, m ≤ k → nested step k a = some b := ⟨b, m, h⟩
  obtain ⟨m', h'⟩ := hresult.choose_spec
  -- Two results would both be there once enough calls for both are made.
  have hsame : some hresult.choose = some b := by
    rw [← h (max m m') (Nat.le_max_left _ _), h' (max m m') (Nat.le_max_right _ _)]
  rw [recursion, dif_pos hresult, hsame]

end

def line (t : Tree) (i : Nat) : Option Line := t.lines.get? i

def node (t : Tree) (n : Nat) : Option Node := t.nodes.get? n

def modifyLine (t : Tree) (i : Nat) (f : Line → Line) : Option Tree :=
  onEntry t.lines i (t.modifyLine i f)

def modifyLines (t : Tree) (ids : List Nat) (f : Line → Line) : Option Tree :=
  ids.foldlM (fun t i => modifyLine t i f) t

def modifyNode (t : Tree) (n : Nat) (f : Node → Node) : Option Tree :=
  onEntry t.nodes n (t.modifyNode n f)

section

variable {t : Tree} {i n : Nat}

theorem line_eq (h : i < t.lines.size) : line t i = some (t.line i) := Register.get?_eq_some_get h

theorem node_eq (h : n < t.nodes.size) : node t n = some (t.node n) := Register.get?_eq_some_get h

theorem modifyLine_eq (h : i < t.lines.size) (f : Line → Line) :
    modifyLine t i f = some (t.modifyLine i f) := onEntry_eq h _

theorem modifyNode_eq (h : n < t.nodes.size) (f : Node → Node) :
    modifyNode t n f = some (t.modifyNode n f) := onEntry_eq h _

theorem modifyLine_congr {f g : Line → Line} (h : f (t.line i) = g (t.line i)) :
    t.modifyLine i f = t.modifyLine i g :=
  Tree.eq_of_parts (modify_congr h) rfl

theorem modifyNode_congr {f g : Node → Node} (h : f (t.node n) = g (t.node n)) :
    t.modifyNode n f = t.modifyNode n g :=
  Tree.eq_of_parts rfl (modify_congr h)

/-- Which lines are changed matters, and not how often or in which order. -/
theorem modifyLines_congr {ids ids' : List Nat} (h : ∀ i, i ∈ ids ↔ i ∈ ids') (f : Line → Line) :
    t.modifyLines ids f = t.modifyLines ids' f := by
  unfold Tree.modifyLines Register.modifyAll
  simp only [h]

theorem modifyLines_nil (t : Tree) (f : Line → Line) : t.modifyLines [] f = t := by
  refine Tree.eq_of_parts ((Register.SameDisplay.modifyAll t.lines [] f).eq_of_get ?_) rfl
  intro i _
  rw [Register.get_modifyAll, if_neg (by simp)]

theorem modifyLines_cons {f : Line → Line} (hf : ∀ l, f (f l) = f l) (ids : List Nat) :
    (t.modifyLine i f).modifyLines ids f = t.modifyLines (i :: ids) f := by
  have hone := Register.SameDisplay.modify t.lines i f
  have htwo := hone.trans (Register.SameDisplay.modifyAll _ ids f)
  have hall := Register.SameDisplay.modifyAll t.lines (i :: ids) f
  refine Tree.eq_of_parts ((hall.symm.trans htwo).eq_of_get ?_) rfl
  intro j _
  simp only [Register.get_modifyAll, Register.get_modify, Register.size_modify, List.mem_cons]
  by_cases hj : j < t.lines.size
  · by_cases hi : j = i
    · subst hi
      by_cases hmem : j ∈ ids <;> simp [hj, hmem, hf]
    · by_cases hmem : j ∈ ids <;> simp [hj, hi, hmem]
  · simp [hj]

/-- A change that may be repeated can be made line by line. -/
theorem modifyLines_eq {ids : List Nat} (h : ∀ i ∈ ids, i < t.lines.size) {f : Line → Line}
    (hf : ∀ l, f (f l) = f l) : modifyLines t ids f = some (t.modifyLines ids f) := by
  induction ids generalizing t with
  | nil => rw [modifyLines_nil]; rfl
  | cons i ids ih =>
    have hrest : ∀ j ∈ ids, j < (t.modifyLine i f).lines.size := by
      intro j hj
      rw [Tree.lines_modifyLine, Register.size_modify]
      exact h j (by simp [hj])
    calc modifyLines t (i :: ids) f = modifyLines (t.modifyLine i f) ids f := by
          simp [modifyLines, modifyLine_eq (h i (by simp))]
      _ = some ((t.modifyLine i f).modifyLines ids f) := ih hrest
      _ = some (t.modifyLines (i :: ids) f) := by rw [modifyLines_cons hf]

theorem children_modifyLine (t : Tree) (i k : Nat) {f : Line → Line}
    (hf : ∀ l, (f l).children = l.children) :
    ((t.modifyLine i f).line k).children = (t.line k).children := by
  rw [Tree.line_modifyLine]
  split
  · exact hf _
  · rfl

theorem mem_children_of_removeChild {p c j k : Nat}
    (h : j ∈ ((t.removeChild p c).line k).children) : j ∈ (t.line k).children := by
  unfold Tree.removeChild at h
  rw [Tree.line_modifyLine] at h
  split at h
  · exact (List.mem_filter.mp h).1
  · exact h

end

/-- Marks the line on top of a stack, and puts the lines that rest on it on the stack. -/
def floodStep (valid : Bool) (goOn : Tree × List Nat → Option Tree) :
    Tree × List Nat → Option Tree
  | (t, []) => some t
  | (t, c :: rest) => do
    let t ← modifyLine t c (fun l => { l with valid := valid })
    let l ← line t c
    goOn (t, l.children.reverse ++ rest)

def flood (t : Tree) (i : Nat) (valid : Bool) : Option Tree := do
  let l ← line t i
  recursion (floodStep valid) (t, l.children.reverse)

/-- The lines on a stack and all that rests on them. -/
def below (t : Tree) (stack : List Nat) : List Nat :=
  stack.flatMap (fun c => c :: t.dependents c)

section

variable {t : Tree} {i : Nat}

theorem mem_below_reverse (t : Tree) (ids : List Nat) (j : Nat) :
    j ∈ below t ids.reverse ↔ j ∈ below t ids := by
  simp [below]

theorem length_below_reverse (t : Tree) (ids : List Nat) :
    (below t ids.reverse).length = (below t ids).length := by
  simp [below, List.length_flatMap, List.sum_reverse]

/-- One step of the work: a line goes off the stack, and its children go on. -/
theorem below_step (h : t.Ascending) {c : Nat} (hc : t.lines.isLive c = true) (rest : List Nat) :
    (below t ((t.line c).children.reverse ++ rest)).length + 1 = (below t (c :: rest)).length ∧
      ∀ j, j ∈ c :: below t ((t.line c).children.reverse ++ rest) ↔ j ∈ below t (c :: rest) := by
  have happend : below t ((t.line c).children.reverse ++ rest) =
      below t (t.line c).children.reverse ++ below t rest := List.flatMap_append
  have hcons : below t (c :: rest) = c :: (below t (t.line c).children ++ below t rest) := by
    rw [below, List.flatMap_cons, h.dependents_eq hc]
    rfl
  rw [happend, hcons]
  constructor
  · rw [List.length_cons, List.length_append, List.length_append, length_below_reverse]
  · intro j
    rw [List.mem_cons, List.mem_cons, List.mem_append, List.mem_append, mem_below_reverse]

/-- The stack runs empty when all that is below it has been marked. -/
theorem nested_flood_eq (h : t.Ascending) (valid : Bool) {stack : List Nat}
    (hstack : ∀ c ∈ stack, t.lines.isLive c = true) {k : Nat} (hk : (below t stack).length < k) :
    nested (floodStep valid) k (t, stack) =
      some (t.modifyLines (below t stack) (fun l => { l with valid := valid })) := by
  -- The amount of work that is left is finite, as links do not go in a circle, and marking lines
  -- does not change it. So the induction is on the number of calls, of which each does some of the
  -- work.
  induction k generalizing t stack with
  | zero => omega
  | succ k ih =>
    cases stack with
    | nil =>
      rw [nested, floodStep, below, List.flatMap_nil, modifyLines_nil]
    | cons c rest =>
      have hc := hstack c (by simp)
      obtain ⟨hlength, hmem⟩ := below_step h hc rest
      set u := t.modifyLine c (fun l => { l with valid := valid }) with hu
      have hr : Tree.Relinked t u := (Tree.Relinked.refl t).modifyLine c (fun _ => ⟨rfl, rfl, rfl⟩)
      have hchildren : ∀ k, (u.line k).children = (t.line k).children := fun k =>
        children_modifyLine t c k (fun _ => rfl)
      have hascending : u.Ascending := h.of_subset hr (fun k _ hj => hchildren k ▸ hj)
      have hlive : ∀ k ∈ (t.line c).children.reverse ++ rest, u.lines.isLive k = true := by
        intro k hk
        rw [hr.isLive]
        rcases List.mem_append.mp hk with hk | hk
        · exact h.child_live c k hc (List.mem_reverse.mp hk)
        · exact hstack k (by simp [hk])
      have hbelow : below u ((t.line c).children.reverse ++ rest) =
          below t ((t.line c).children.reverse ++ rest) := by
        unfold below
        rw [List.flatMap_def, List.flatMap_def]
        congr 1
        apply List.map_congr_left
        intro k _
        rw [Tree.dependents_congr hr.size (fun m _ => hchildren m)]
      have hlt : c < t.lines.size := Register.lt_size_of_isLive hc
      have hline : line u c = some (u.line c) := line_eq (hr.size ▸ hlt)
      rw [nested, floodStep, modifyLine_eq hlt]
      simp only [Option.bind_eq_bind, Option.bind_some, ← hu, hline, hchildren]
      rw [ih hascending hlive (by rw [hbelow]; omega), hbelow]
      refine congrArg some (Eq.trans ?_ (modifyLines_congr hmem _))
      exact modifyLines_cons (f := fun l => { l with valid := valid }) (fun _ => rfl) _

/-- On a tree whose links do not go in a circle, all lines that rest on a line get marked. -/
theorem flood_eq (h : t.Ascending) (hi : t.lines.isLive i = true) (valid : Bool) :
    flood t i valid = some (t.setDependentsValid i valid) := by
  have hstack : ∀ c ∈ (t.line i).children.reverse, t.lines.isLive c = true := fun c hc =>
    h.child_live i c hi (List.mem_reverse.mp hc)
  have hmem : ∀ j, j ∈ below t (t.line i).children.reverse ↔ j ∈ t.dependents i := by
    intro j
    rw [mem_below_reverse, h.dependents_eq hi]
    rfl
  rw [flood, line_eq (Register.lt_size_of_isLive hi)]
  simp only [Option.bind_eq_bind, Option.bind_some]
  rw [recursion_eq _ (fun k hk => nested_flood_eq h valid hstack hk), modifyLines_congr hmem]
  rfl

end

def restsOnPremiseWithin (t : Tree) : Nat → Nat → Option Bool
  | 0, _ => some false
  | k + 1, i => do
    let l ← line t i
    match l.justification with
    | .premise => return true
    | .line p => restsOnPremiseWithin t k p
    | .missing => return false

def revalidate (t : Tree) (i : Nat) : Option Tree := do
  let valid ← restsOnPremiseWithin t (t.lines.size + 1) i
  let t ← modifyLine t i (fun l => { l with valid := valid })
  if valid then flood t i true else return t

section

variable {t : Tree} {i : Nat}

/-- The walk up the justifications reads only lines in the tree. -/
theorem restsOnPremiseWithin_eq (h : t.Acyclic) {k : Nat} (hi : t.lines.isLive i = true) :
    restsOnPremiseWithin t k i = some (t.restsOnPremiseWithin k i) := by
  induction k generalizing i with
  | zero => rfl
  | succ k ih =>
    rw [restsOnPremiseWithin, Tree.restsOnPremiseWithin, line_eq (Register.lt_size_of_isLive hi)]
    simp only [Option.bind_eq_bind, Option.bind_some]
    cases hs : (t.line i).justification with
    | premise => rfl
    | missing => rfl
    | line p => exact ih (h.parent_live i p hi hs)

/-- The validity of a line and of all that rests on it is found without harm. -/
theorem revalidate_eq (h : t.Threaded) (hi : t.lines.isLive i = true) :
    revalidate t i = some (t.revalidate i) := by
  set u := t.modifyLine i (fun l => { l with valid := t.restsOnPremise i }) with hu
  have hr : Tree.Relinked t u := (Tree.Relinked.refl t).modifyLine i (fun _ => ⟨rfl, rfl, rfl⟩)
  have hchildren : ∀ k, (u.line k).children = (t.line k).children := fun k =>
    children_modifyLine t i k (fun _ => rfl)
  have hascending : u.Ascending := h.ascending.of_subset hr (fun k _ hj => hchildren k ▸ hj)
  have hpremise : restsOnPremiseWithin t (t.lines.size + 1) i = some (t.restsOnPremise i) :=
    restsOnPremiseWithin_eq h.toAcyclic hi
  simp only [revalidate, Tree.revalidate, hpremise, Option.bind_eq_bind, Option.bind_some,
    modifyLine_eq (Register.lt_size_of_isLive hi), ← hu]
  split
  · exact flood_eq hascending ((hr.isLive i).trans hi) true
  · rfl

end

def setCheckmarked (t : Tree) (i : Nat) (checked : Bool) : Option Tree := do
  let t ← modifyLine t i (fun l => { l with checkmarked := checked })
  let l ← line t i
  modifyLines t l.children (fun l => { l with parentCheckmarked := checked })

def placeChild (t : Tree) (parent child : Nat) : Option Tree := do
  let l ← line t parent
  let ids ← place t.lines child l.children
  modifyLine t parent (fun l => { l with children := ids })

section

variable {t : Tree}

theorem setCheckmarked_eq {i : Nat} (hi : i < t.lines.size)
    (hchildren : ∀ c ∈ (t.line i).children, c < t.lines.size) (b : Bool) :
    setCheckmarked t i b = some (t.setCheckmarked i b) := by
  set u := t.modifyLine i (fun l => { l with checkmarked := b }) with hu
  have hsize : u.lines.size = t.lines.size := Register.size_modify _ _ _
  have hsame : (u.line i).children = (t.line i).children :=
    children_modifyLine t i i (fun _ => rfl)
  have hknown : ∀ c ∈ (u.line i).children, c < u.lines.size := by
    intro c hc
    rw [hsame] at hc
    rw [hsize]
    exact hchildren c hc
  rw [setCheckmarked, modifyLine_eq hi]
  simp only [Option.bind_eq_bind, Option.bind_some, ← hu, line_eq (hsize ▸ hi)]
  exact modifyLines_eq hknown (fun _ => rfl)

theorem placeChild_eq {p c : Nat} (hp : p < t.lines.size) (hc : c < t.lines.size)
    (hchildren : ∀ k ∈ (t.line p).children, k < t.lines.size) :
    placeChild t p c = some (t.placeChild p c) := by
  have hsame : t.modifyLine p
      (fun l => { l with children := t.lines.place c (t.line p).children }) = t.placeChild p c :=
    modifyLine_congr rfl
  simp only [placeChild, line_eq hp, place_eq hc hchildren, Option.bind_eq_bind, Option.bind_some,
    modifyLine_eq hp, hsame]

end

/-- A computation that may be refused, besides going wrong. -/
abbrev Attempt (α : Type) : Type := ExceptT Refusal Option α

/-- What has been found out without reading anything that might not be there. -/
def settled {α : Type} (x : Except Refusal α) : Attempt α := ExceptT.mk (some x)

def sever (t : Tree) (child : Nat) : Option Tree := do
  let l ← line t child
  match l.justification with
  | .line p =>
    let t ← modifyLine t p (fun l => { l with children := l.children.filter (· ≠ child) })
    let parent ← line t p
    let t ← if parent.valid then do
        let t ← modifyLine t child (fun l => { l with valid := false })
        flood t child false
      else some t
    modifyLine t child (fun l => { l with justification := .missing, parentCheckmarked := false })
  | _ => return t

def unlink (t : Tree) (child : Nat) : Attempt Tree := do
  let _ ← settled (t.liveLine child)
  sever t child

def link (t : Tree) (parent child : Nat) : Attempt Tree := do
  let _ ← settled (t.liveLine parent)
  let _ ← settled (t.liveLine child)
  let t ← unlink t child
  let t ← placeChild t parent child
  let p ← line t parent
  let t ← modifyLine t child
    (fun l => { l with justification := .line parent, parentCheckmarked := p.checkmarked })
  revalidate t child

section

variable {α β : Type} {t : Tree}

/-- Stages that do not go wrong follow each other as they do where nothing can go wrong. -/
theorem bind_eq {x : Attempt α} {x' : Except Refusal α} {f : α → Attempt β}
    {f' : α → Except Refusal β} (hx : x.run = some x')
    (hf : ∀ a, x' = .ok a → (f a).run = some (f' a)) : (x >>= f).run = some (x' >>= f') := by
  rw [ExceptT.run_bind, hx]
  cases x' with
  | error e => rfl
  | ok a => exact hf a rfl

theorem ok_bind {ε : Type} {x : ExceptT ε Option α} {a : α} (hx : x.run = some (.ok a))
    (f : α → ExceptT ε Option β) : (x >>= f).run = (f a).run := by
  rw [ExceptT.run_bind, hx]
  rfl

theorem error_bind {ε : Type} {x : ExceptT ε Option α} {e : ε} (hx : x.run = some (.error e))
    (f : α → ExceptT ε Option β) : (x >>= f).run = some (.error e) := by
  rw [ExceptT.run_bind, hx]
  rfl

theorem run_liveLine {i : Nat} (h : t.lines.isLive i = true) :
    (settled (t.liveLine i)).run = some (.ok (t.line i)) :=
  congrArg some (Tree.liveLine_of_isLive h)

theorem run_liveNode {n : Nat} (h : t.nodes.isLive n = true) :
    (settled (t.liveNode n)).run = some (.ok (t.node n)) :=
  congrArg some (Tree.liveNode_of_isLive h)

theorem run_lift {ε : Type} {x : Option α} {a : α} (hx : x = some a) :
    (liftM x : ExceptT ε Option α).run = some (.ok a) := by
  rw [hx]
  rfl

/-- A line in the tree is cut off from its justification without harm. -/
theorem sever_eq (h : t.Linked) {c : Nat} (hc : t.lines.isLive c = true) :
    sever t c = some (t.sever c) := by
  have hclt := Register.lt_size_of_isLive hc
  unfold sever Tree.sever
  simp only [line_eq hclt, Option.bind_eq_bind, Option.bind_some]
  cases hs : (t.line c).justification with
  | missing => rfl
  | premise => rfl
  | line p =>
    have hplt := Register.lt_size_of_isLive ((h.parent c p hc hs).left_live h.ordered)
    set u := t.removeChild p c with hu
    have hr : Tree.Relinked t u := (Tree.Relinked.refl t).removeChild p c
    have hremove : modifyLine t p (fun l => { l with children := l.children.filter (· ≠ c) }) =
        some u := modifyLine_eq hplt _
    set v := u.modifyLine c (fun l => { l with valid := false }) with hv
    have hrv : Tree.Relinked t v := hr.modifyLine c (fun _ => ⟨rfl, rfl, rfl⟩)
    have hascending : v.Ascending := by
      apply h.ascending.of_subset hrv
      intro k j hj
      have hchildren : (v.line k).children = (u.line k).children :=
        children_modifyLine u c k (fun _ => rfl)
      exact mem_children_of_removeChild (hchildren ▸ hj)
    have hflood : flood v c false = some (v.setDependentsValid c false) :=
      flood_eq hascending ((hrv.isLive c).trans hc) false
    simp only [hremove, Option.bind_some, line_eq (hr.size ▸ hplt), modifyLine_eq (hr.size ▸ hclt),
      ← hv, hflood]
    cases (u.line p).valid with
    | true => exact modifyLine_eq ((hrv.setDependentsValid c false).size ▸ hclt) _
    | false => rfl

/-- Taking a justification back does no harm, whichever line it is asked of. -/
theorem unlink_eq (h : t.Linked) (c : Nat) : (unlink t c).run = some (t.unlink c) := by
  have hstages : t.unlink c = t.liveLine c >>= fun _ => .ok (t.sever c) := by
    unfold Tree.unlink Tree.tryUnlink
    cases t.liveLine c <;> rfl
  rw [hstages]
  apply bind_eq rfl
  intro l hl
  exact run_lift (sever_eq h (Tree.liveLine_ok_iff.mp hl).1)

/-- A line that is displayed below another one can be made to rest on it. -/
theorem link_eq (h : t.Linked) {p c : Nat} (hbefore : t.Before p c)
    (hpremise : t.support c ≠ .premise) : (link t p c).run = some (t.link p c) := by
  have hp := hbefore.left_live h.ordered
  have hc := hbefore.right_live h.ordered
  set u := t.sever c with hu
  have hr : Tree.Relinked t u := (Tree.Relinked.refl t).sever c
  have hlinked : u.Linked := h.sever hc
  have hpu : u.lines.isLive p = true := (hr.isLive p).trans hp
  have hcu : u.lines.isLive c = true := (hr.isLive c).trans hc
  have hplt := Register.lt_size_of_isLive hpu
  have hclt := Register.lt_size_of_isLive hcu
  have hunlink : (unlink t c).run = some (.ok u) := by
    rw [unlink_eq h, Tree.unlink_ok_iff.mpr ⟨hc, rfl⟩]
  have hplace : placeChild u p c = some (u.placeChild p c) :=
    placeChild_eq hplt hclt (fun k hk => hlinked.lt_size_of_mem_children hpu hk)
  have hrp : Tree.Relinked u (u.placeChild p c) := (Tree.Relinked.refl u).placeChild p c
  have hhook : modifyLine (u.placeChild p c) c (fun l =>
      { l with
        justification := .line p
        parentCheckmarked := ((u.placeChild p c).line p).checkmarked }) = some (u.hook p c) :=
    modifyLine_eq (hrp.size ▸ hclt) _
  -- The line rests on nothing when it is hooked to its new parent, so links go down the display.
  have hmissing : u.support c = .missing := by
    rw [hu, Tree.support_sever h hc hpremise, if_pos rfl]
  have hbefore' : u.Before p c := by
    unfold Tree.Before
    rw [hr.order]
    exact hbefore
  have hlisted : (u.hook p c).Listed := hlinked.toListed.hook hbefore' hmissing
  have hch : (u.hook p c).lines.isLive c = true :=
    (((Tree.Relinked.refl u).hook p c).isLive c).trans hcu
  unfold link
  rw [Tree.link_ok_iff.mpr ⟨hp, hc, rfl⟩, ok_bind (run_liveLine hp), ok_bind (run_liveLine hc),
    ok_bind hunlink, ok_bind (run_lift hplace), ok_bind (run_lift (line_eq (hrp.size ▸ hplt))),
    ok_bind (run_lift hhook)]
  exact run_lift (revalidate_eq hlisted.toThreaded hch)

end

end

end TruthTrees.Checked
