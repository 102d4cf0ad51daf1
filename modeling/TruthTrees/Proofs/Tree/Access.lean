import TruthTrees.Proofs.Register.Order
import TruthTrees.Tree.Lines

/-! Reading a tree after a change. Changing the links, the checkmarks and the validity of lines
leaves everything else alone: the two trees of such a change are called relinked, and they differ
only in what their lines say about each other. -/
namespace TruthTrees.Tree

theorem line_modifyLine (t : Tree) (i j : Nat) (f : Line → Line) :
    (t.modifyLine i f).line j = if j = i ∧ j < t.lines.size then f (t.line j) else t.line j :=
  t.lines.get_modify i j f

theorem line_modifyLines (t : Tree) (ids : List Nat) (j : Nat) (f : Line → Line) :
    (t.modifyLines ids f).line j =
      if j ∈ ids ∧ j < t.lines.size then f (t.line j) else t.line j :=
  t.lines.get_modifyAll ids j f

theorem node_modifyNode (t : Tree) (n m : Nat) (f : Node → Node) :
    (t.modifyNode n f).node m = if m = n ∧ m < t.nodes.size then f (t.node m) else t.node m :=
  t.nodes.get_modify n m f

@[simp] theorem line_modifyNode (t : Tree) (n i : Nat) (f : Node → Node) :
    (t.modifyNode n f).line i = t.line i := rfl

@[simp] theorem lines_modifyLine (t : Tree) (i : Nat) (f : Line → Line) :
    (t.modifyLine i f).lines = t.lines.modify i f := rfl

@[simp] theorem lines_modifyLines (t : Tree) (ids : List Nat) (f : Line → Line) :
    (t.modifyLines ids f).lines = t.lines.modifyAll ids f := rfl

@[simp] theorem lines_modifyNode (t : Tree) (n : Nat) (f : Node → Node) :
    (t.modifyNode n f).lines = t.lines := rfl

@[simp] theorem nodes_modifyLine (t : Tree) (i : Nat) (f : Line → Line) :
    (t.modifyLine i f).nodes = t.nodes := rfl

@[simp] theorem nodes_modifyNode (t : Tree) (n : Nat) (f : Node → Node) :
    (t.modifyNode n f).nodes = t.nodes.modify n f := rfl

/-- A tree is given by its two registers. -/
theorem eq_of_parts {t u : Tree} (hlines : u.lines = t.lines) (hnodes : u.nodes = t.nodes) :
    u = t := by
  cases t
  cases u
  exact congrArg₂ Tree.mk hlines hnodes

theorem node_empty (n : Nat) : Tree.empty.node n = {} := by
  refine (Register.get_push _ n _).trans ?_
  split
  · rfl
  · exact Register.get_of_size_le (Nat.zero_le n)

theorem liveLine_of_isLive {t : Tree} {i : Nat} (h : t.lines.isLive i = true) :
    t.liveLine i = .ok (t.line i) := by
  have hget : t.lines.get? i = some (t.line i) :=
    Register.get?_eq_some_get (Register.lt_size_of_isLive h)
  simp only [liveLine, hget, h, if_true]

theorem liveNode_of_isLive {t : Tree} {n : Nat} (h : t.nodes.isLive n = true) :
    t.liveNode n = .ok (t.node n) := by
  have hget : t.nodes.get? n = some (t.node n) :=
    Register.get?_eq_some_get (Register.lt_size_of_isLive h)
  simp only [liveNode, hget, h, if_true]

/-- A line is found when it is in the tree. -/
theorem liveLine_ok_iff {t : Tree} {i : Nat} {l : Line} :
    t.liveLine i = .ok l ↔ t.lines.isLive i = true ∧ l = t.line i := by
  by_cases hlive : t.lines.isLive i = true
  · rw [liveLine_of_isLive hlive, Except.ok.injEq, eq_comm]
    exact (and_iff_right hlive).symm
  · refine iff_of_false ?_ (fun h => hlive h.1)
    unfold liveLine
    split
    · simp
    · simp [hlive]

/-- A node is found when it is in the tree. -/
theorem liveNode_ok_iff {t : Tree} {n : Nat} {nd : Node} :
    t.liveNode n = .ok nd ↔ t.nodes.isLive n = true ∧ nd = t.node n := by
  by_cases hlive : t.nodes.isLive n = true
  · rw [liveNode_of_isLive hlive, Except.ok.injEq, eq_comm]
    exact (and_iff_right hlive).symm
  · refine iff_of_false ?_ (fun h => hlive h.1)
    unfold liveNode
    split
    · simp
    · simp [hlive]

def KeepsPlace (f : Line → Line) : Prop :=
  ∀ l, (f l).formula = l.formula ∧ (f l).node = l.node ∧ (f l).branches = l.branches

/-- Two trees with the same nodes and lines, whose lines say the same, are held by the same nodes
and were branched on alike. Nothing is said about their links and about which lines are displayed.
-/
structure SamePlaces (t t' : Tree) : Prop where
  nodes : t'.nodes = t.nodes
  size : t'.lines.size = t.lines.size
  formula : ∀ i, (t'.line i).formula = (t.line i).formula
  node : ∀ i, (t'.line i).node = (t.line i).node
  branches : ∀ i, (t'.line i).branches = (t.line i).branches

/-- Two trees that differ at most in the links, the checkmarks and the validity of their lines. -/
structure Relinked (t t' : Tree) : Prop extends SamePlaces t t' where
  display : Register.SameDisplay t.lines t'.lines

namespace SamePlaces

variable {t t' t'' : Tree}

theorem refl (t : Tree) : SamePlaces t t :=
  ⟨rfl, rfl, fun _ => rfl, fun _ => rfl, fun _ => rfl⟩

theorem trans (h : SamePlaces t t') (h' : SamePlaces t' t'') : SamePlaces t t'' where
  nodes := h'.nodes.trans h.nodes
  size := h'.size.trans h.size
  formula i := (h'.formula i).trans (h.formula i)
  node i := (h'.node i).trans (h.node i)
  branches i := (h'.branches i).trans (h.branches i)

theorem nodeEq (h : SamePlaces t t') (n : Nat) : t'.node n = t.node n := by
  unfold Tree.node
  rw [h.nodes]

end SamePlaces

namespace Relinked

variable {t t' t'' : Tree}

theorem refl (t : Tree) : Relinked t t := ⟨SamePlaces.refl t, Register.SameDisplay.refl _⟩

theorem trans (h : Relinked t t') (h' : Relinked t' t'') : Relinked t t'' :=
  ⟨h.toSamePlaces.trans h'.toSamePlaces, h.display.trans h'.display⟩

theorem order (h : Relinked t t') : t'.lines.order = t.lines.order := h.display.order

theorem isLive (h : Relinked t t') (i : Nat) : t'.lines.isLive i = t.lines.isLive i :=
  h.display.isLive i

theorem number (h : Relinked t t') (i : Nat) : t'.lines.number i = t.lines.number i :=
  h.display.number i

theorem leftFrom (h : Relinked t t') (i : Nat) : t'.lines.leftFrom i = t.lines.leftFrom i :=
  h.display.leftFrom i

/-- Relinked trees with the same lines are the same. -/
theorem eq_of_line (h : Relinked t t') (hline : ∀ i, t'.line i = t.line i) : t' = t :=
  eq_of_parts (h.display.eq_of_get (fun i _ => hline i)) h.nodes

theorem modifyLine (h : Relinked t t') (i : Nat) {f : Line → Line} (hf : KeepsPlace f) :
    Relinked t (t'.modifyLine i f) := by
  have hline : ∀ j, ((t'.modifyLine i f).line j).formula = (t'.line j).formula ∧
      ((t'.modifyLine i f).line j).node = (t'.line j).node ∧
      ((t'.modifyLine i f).line j).branches = (t'.line j).branches := by
    intro j
    rw [line_modifyLine]
    split
    · exact hf _
    · exact ⟨rfl, rfl, rfl⟩
  exact h.trans ⟨⟨rfl, Register.size_modify _ _ _, fun j => (hline j).1, fun j => (hline j).2.1,
    fun j => (hline j).2.2⟩, Register.SameDisplay.modify _ _ _⟩

/-- A change that keeps places, made to several lines, only relinks. -/
theorem modifyLines (h : Relinked t t') (ids : List Nat) {f : Line → Line} (hf : KeepsPlace f) :
    Relinked t (t'.modifyLines ids f) := by
  have hline : ∀ j, ((t'.modifyLines ids f).line j).formula = (t'.line j).formula ∧
      ((t'.modifyLines ids f).line j).node = (t'.line j).node ∧
      ((t'.modifyLines ids f).line j).branches = (t'.line j).branches := by
    intro j
    rw [line_modifyLines]
    split
    · exact hf _
    · exact ⟨rfl, rfl, rfl⟩
  exact h.trans ⟨⟨rfl, Register.size_modifyAll _ _ _, fun j => (hline j).1, fun j => (hline j).2.1,
    fun j => (hline j).2.2⟩, Register.SameDisplay.modifyAll _ _ _⟩

theorem ite (h : Relinked t t') (h' : Relinked t t'') (b : Bool) :
    Relinked t (if b then t' else t'') := by
  cases b
  · exact h'
  · exact h

/-- Marking what rests on a line only relinks. -/
theorem setDependentsValid (h : Relinked t t') (i : Nat) (b : Bool) :
    Relinked t (t'.setDependentsValid i b) :=
  h.modifyLines _ (fun _ => ⟨rfl, rfl, rfl⟩)

theorem setCheckmarked (h : Relinked t t') (i : Nat) (b : Bool) :
    Relinked t (t'.setCheckmarked i b) := by
  apply modifyLines
  · exact h.modifyLine i (fun _ => ⟨rfl, rfl, rfl⟩)
  · exact fun _ => ⟨rfl, rfl, rfl⟩

theorem removeChild (h : Relinked t t') (p c : Nat) : Relinked t (t'.removeChild p c) :=
  h.modifyLine p (fun _ => ⟨rfl, rfl, rfl⟩)

/-- Entering a line among the children of another only relinks. -/
theorem placeChild (h : Relinked t t') (p c : Nat) : Relinked t (t'.placeChild p c) :=
  h.modifyLine p (fun _ => ⟨rfl, rfl, rfl⟩)

theorem revalidate (h : Relinked t t') (i : Nat) : Relinked t (t'.revalidate i) := by
  have h' := h.modifyLine i (f := fun l => { l with valid := t'.restsOnPremise i })
    (fun _ => ⟨rfl, rfl, rfl⟩)
  exact ite (h'.setDependentsValid i true) h' _

theorem sever (h : Relinked t t') (c : Nat) : Relinked t (t'.sever c) := by
  unfold Tree.sever
  split
  · rename_i p _
    have h' := h.removeChild p c
    apply modifyLine
    · apply ite _ h'
      apply setDependentsValid
      exact h'.modifyLine c (fun _ => ⟨rfl, rfl, rfl⟩)
    · exact fun _ => ⟨rfl, rfl, rfl⟩
  · exact h

theorem leaveParent (h : Relinked t t') (i : Nat) : Relinked t (t'.leaveParent i) := by
  unfold Tree.leaveParent
  split
  · rename_i p _
    have h' := h.removeChild p i
    have h'' := ite (h'.modifyLine i (f := fun l => { l with valid := false })
      (fun _ => ⟨rfl, rfl, rfl⟩)) h' ((t'.removeChild p i).line p).valid
    exact ite (h''.setCheckmarked p false) h'' _
  · exact h

theorem orphanChildren (h : Relinked t t') (i : Nat) : Relinked t (t'.orphanChildren i) :=
  h.modifyLines _ (fun _ => ⟨rfl, rfl, rfl⟩)

theorem rejoinParent (h : Relinked t t') (i : Nat) : Relinked t (t'.rejoinParent i) := by
  unfold Tree.rejoinParent
  split
  · split
    · exact h.placeChild _ i
    · exact h.modifyLine i (fun _ => ⟨rfl, rfl, rfl⟩)
  · exact h

theorem adoptChildren (h : Relinked t t') (i : Nat) : Relinked t (t'.adoptChildren i) := by
  apply modifyLine
  · exact h.modifyLines _ (fun _ => ⟨rfl, rfl, rfl⟩)
  · exact fun _ => ⟨rfl, rfl, rfl⟩

theorem restoreCheckmarks (h : Relinked t t') (i : Nat) : Relinked t (t'.restoreCheckmarks i) := by
  have h' := h.setCheckmarked i (t'.line i).checkmarked
  unfold Tree.restoreCheckmarks
  dsimp only
  split
  · exact h'.setCheckmarked _ true
  · exact h'

/-- Putting the links of a line back only relinks. -/
theorem reattach (h : Relinked t t') (i : Nat) : Relinked t (t'.reattach i) :=
  (((h.rejoinParent i).adoptChildren i).revalidate i).restoreCheckmarks i

end Relinked

/-- Before the display changes, a line that is to be deleted only gives up its links. -/
def unhook (t : Tree) (i : Nat) : Tree :=
  ((t.leaveParent i).orphanChildren i).setDependentsValid i false

theorem detach_eq (t : Tree) (i : Nat) :
    t.detach i = { t.unhook i with lines := (t.unhook i).lines.withdraw i } := rfl

theorem Relinked.unhook (t : Tree) (i : Nat) : Relinked t (t.unhook i) :=
  (((Relinked.refl t).leaveParent i).orphanChildren i).setDependentsValid i false

theorem SamePlaces.detach (t : Tree) (i : Nat) : SamePlaces t (t.detach i) := by
  have h := Relinked.unhook t i
  rw [detach_eq]
  refine ⟨h.nodes, (Register.size_withdraw _ _).trans h.size, ?_, ?_, ?_⟩
  · exact fun j => (congrArg Line.formula (Register.get_withdraw _ i j)).trans (h.formula j)
  · exact fun j => (congrArg Line.node (Register.get_withdraw _ i j)).trans (h.node j)
  · exact fun j => (congrArg Line.branches (Register.get_withdraw _ i j)).trans (h.branches j)

/-- A line that is taken out leaves the display, and nothing else does. -/
theorem order_detach {t : Tree} (h : t.lines.Ordered) {i : Nat} (hi : t.lines.isLive i = true) :
    (t.detach i).lines.order = t.lines.order.erase i := by
  have hr := Relinked.unhook t i
  rw [detach_eq, (h.congr hr.display).order_withdraw ((hr.isLive i).trans hi), hr.order]

/-- A line that is taken out keeps the number it had, for its return. -/
theorem leftFrom_detach {t : Tree} (h : t.lines.Ordered) {i : Nat} (hi : t.lines.isLive i = true)
    (j : Nat) : (t.detach i).lines.leftFrom j =
      if j = i then some (t.lines.order.idxOf i + 1) else t.lines.leftFrom j := by
  have hr := Relinked.unhook t i
  rw [detach_eq, (h.congr hr.display).leftFrom_withdraw ((hr.isLive i).trans hi), hr.order,
    hr.leftFrom]

theorem ordered_detach {t : Tree} (h : t.lines.Ordered) {i : Nat}
    (hi : t.lines.isLive i = true) : (t.detach i).lines.Ordered := by
  have hr := Relinked.unhook t i
  rw [detach_eq]
  exact (h.congr hr.display).withdraw ((hr.isLive i).trans hi)

theorem counted_detach {t : Tree} (h : t.lines.Counted) (ho : t.lines.Ordered) {i : Nat}
    (hi : t.lines.isLive i = true) : (t.detach i).lines.Counted := by
  have hr := Relinked.unhook t i
  rw [detach_eq]
  exact (h.congr hr.display).withdraw (ho.congr hr.display) ((hr.isLive i).trans hi)

/-- Only the line itself is gone after it has been taken out. -/
theorem isLive_detach (t : Tree) (i j : Nat) :
    (t.detach i).lines.isLive j = true ↔ j ≠ i ∧ t.lines.isLive j = true := by
  rw [detach_eq, Register.isLive_withdraw, (Relinked.unhook t i).isLive]

@[simp] theorem line_redisplay (t : Tree) (i j : Nat) : (t.redisplay i).line j = t.line j :=
  Register.get_reinstate _ i j

theorem SamePlaces.redisplay (t : Tree) (i : Nat) : SamePlaces t (t.redisplay i) := by
  refine ⟨rfl, Register.size_reinstate _ _, ?_, ?_, ?_⟩
  all_goals simp

end TruthTrees.Tree
