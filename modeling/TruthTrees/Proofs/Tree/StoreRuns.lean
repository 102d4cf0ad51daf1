import TruthTrees.Edit
import TruthTrees.Formula.Parser
import TruthTrees.Proofs.Tree.StoreLines
import TruthTrees.Proofs.Tree.StoreNodes

/-! Whatever is done to a tree, with whatever arguments and whether it is refused or not, lines and
nodes refer to each other as they should. The operations need not come from a session: they may
restore in any order what was deleted, link lines in any direction and branch on any line. -/
namespace TruthTrees

theorem Edit.apply_link (s : Sheet) (c p : Nat) (before : Option Nat) :
    Edit.apply s (.justify c before (some p)) = Edit.settle s (s.tree.link p c) := by
  rw [Edit.apply, Tree.tryLink_eq]
  cases s.tree.link p c <;> rfl

theorem Edit.apply_unlink (s : Sheet) (c : Nat) (before : Option Nat) :
    Edit.apply s (.justify c before none) = Edit.settle s (s.tree.unlink c) := by
  rw [Edit.apply, Tree.tryUnlink_eq]
  cases s.tree.unlink c <;> rfl

namespace Tree

inductive Operation where
  | addPremise (φ : Formula)
  | addLine (n : Nat) (φ : Formula)
  /-- A premise that is given as text. -/
  | readPremise (text : String)
  /-- A line that is given as text. -/
  | readLine (n : Nat) (text : String)
  | deleteLine (i : Nat)
  | restoreLine (i : Nat)
  | link (parent child : Nat)
  | unlink (child : Nat)
  | setDependentsValid (i : Nat) (valid : Bool)
  | setCheckmarked (i : Nat) (checked : Bool)
  | branch (n i : Nat)
  | deleteNode (n : Nat)
  | restoreNode (n : Nat)
  | deleteBranch (n : Nat)
  | restoreBranch (n : Nat) (pair : Nat × Nat)
  | setClosed (n : Nat) (closed : Bool)
  | setOpen (n : Nat) (isOpen : Bool)
  | checkmark (i : Nat)
  | close (n i j : Nat)
  | markOpen (n : Nat)
  /-- An edit of the sheet that has the tree and any node as the current one. -/
  | edit (current : Nat) (e : Edit)

def orKeep (t : Tree) : Except Refusal Tree → Tree
  | .ok t' => t'
  | .error _ => t

/-- Does an operation. What was done before a refusal stays done. -/
def perform (t : Tree) : Operation → Tree
  | .addPremise φ => (t.addPremise φ).2
  | .addLine n φ => t.orKeep ((t.addLine n φ).map Prod.snd)
  | .readPremise text => t.orKeep ((Formula.ofText text).map (fun φ => (t.addPremise φ).2))
  | .readLine n text => t.orKeep (Formula.ofText text >>= fun φ => (t.addLine n φ).map Prod.snd)
  | .deleteLine i => t.orKeep (t.deleteLine i)
  | .restoreLine i => t.orKeep (t.restoreLine i)
  | .link p c => (t.tryLink p c).1
  | .unlink c => (t.tryUnlink c).1
  | .setDependentsValid i valid => t.setDependentsValid i valid
  | .setCheckmarked i checked => t.setCheckmarked i checked
  | .branch n i => t.orKeep ((t.branch n i).map Prod.snd)
  | .deleteNode n => t.orKeep (t.deleteNode n)
  | .restoreNode n => t.orKeep (t.restoreNode n)
  | .deleteBranch n => (t.deleteBranch n).1
  | .restoreBranch n pair => (t.restoreBranch n pair).1
  | .setClosed n closed => t.setClosed n closed
  | .setOpen n isOpen => t.setOpen n isOpen
  | .checkmark i => t.orKeep (t.checkmark i)
  | .close n i j => t.orKeep (t.close n i j)
  | .markOpen n => t.orKeep (t.markOpen n)
  | .edit current e => (Edit.apply ⟨t, current⟩ e).1.tree

def performAll (t : Tree) (ops : List Operation) : Tree := ops.foldl perform t

theorem fst_tryLink (t : Tree) (p c : Nat) : (t.tryLink p c).1 = t.orKeep (t.link p c) := by
  rw [tryLink_eq]
  cases t.link p c <;> rfl

theorem fst_tryUnlink (t : Tree) (c : Nat) : (t.tryUnlink c).1 = t.orKeep (t.unlink c) := by
  rw [tryUnlink_eq]
  cases t.unlink c <;> rfl

theorem store_empty : Store Tree.empty := by
  have hlive : ∀ n, Tree.empty.nodes.isLive n = true ↔ n = 0 := by
    intro n
    refine (Register.isLive_push _ n _).trans ?_
    simp [Register.size, Register.empty, Register.isLive]
  have hline : ∀ i, Tree.empty.line i = default := fun i => Register.get_of_size_le (Nat.zero_le i)
  have hlive' : ∀ i, Tree.empty.lines.isLive i ≠ true := fun i => by
    simp [Tree.empty, Register.empty, Register.isLive]
  refine ⟨⟨⟨Register.ordered_empty.push _, ?_, ?_⟩, (hlive root).mpr rfl, rfl, ?_, ?_,
    Register.counted_empty.push Register.ordered_empty _⟩,
    ⟨⟨Register.ordered_empty, ?_, ?_⟩, ?_, Register.counted_empty⟩, ⟨?_, ?_⟩⟩
  · intro n
    have hget : ∀ m, Tree.empty.nodes.get m = {} := node_empty
    simp [hget, Node.parent?]
  · intro n
    rw [show Tree.empty.nodes.get n = {} from node_empty n]
    exact Nat.zero_le 2
  · intro n hn hroot
    exact absurd (Nat.lt_one_iff.mp hn) hroot
  · intro n s _ hs
    rw [show Tree.empty.nodes.get n = {} from node_empty n] at hs
    simp at hs
  · intro n _
    rw [node_empty]
    rfl
  · exact fun i hi => absurd hi (hlive' i)
  · intro n _
    apply Stowed.mk
    all_goals rw [node_empty]
    all_goals simp
  · intro i
    simp [hline, node_empty, Node.branchedOn?]
    rfl
  · intro n s _ hs
    rw [node_empty] at hs
    simp at hs

theorem Store.orKeep {t : Tree} (h : Store t) {r : Except Refusal Tree}
    (hr : ∀ t', r = .ok t' → Store t') : Store (t.orKeep r) := by
  cases r with
  | ok t' => exact hr t' rfl
  | error e => exact h

section Operations

variable {t t' : Tree}

theorem Store.of_addLine (h : Store t) {n : Nat} {φ : Formula}
    (hok : (t.addLine n φ).map Prod.snd = .ok t') : Store t' := by
  obtain ⟨i, hok⟩ := Except.map_snd_ok_iff.mp hok
  obtain ⟨hn, -, rfl⟩ := addLine_ok_iff.mp hok
  exact h.withNewLine hn φ

/-- Deleting a line keeps the storage in step, when it is carried out. -/
theorem Store.of_deleteLine (h : Store t) {i : Nat} (hok : t.deleteLine i = .ok t') : Store t' := by
  obtain ⟨hi, -, rfl⟩ := deleteLine_ok_iff.mp hok
  exact h.withoutLine hi

theorem Store.of_restoreLine (h : Store t) {i : Nat} (hok : t.restoreLine i = .ok t') :
    Store t' := by
  obtain ⟨hi, hdead, hn, rfl⟩ := restoreLine_ok_iff.mp hok
  exact h.withLine hi hdead hn

/-- Linking two lines keeps the storage in step, when it is carried out. -/
theorem Store.of_link (h : Store t) {p c : Nat} (hok : t.link p c = .ok t') : Store t' := by
  obtain ⟨-, -, rfl⟩ := link_ok_iff.mp hok
  apply h.relinked
  apply Relinked.revalidate
  apply Relinked.modifyLine
  · exact ((Relinked.refl t).sever c).placeChild p c
  · exact fun _ => ⟨rfl, rfl, rfl⟩

theorem Store.of_unlink (h : Store t) {c : Nat} (hok : t.unlink c = .ok t') : Store t' := by
  obtain ⟨-, rfl⟩ := unlink_ok_iff.mp hok
  exact h.relinked ((Relinked.refl t).sever c)

theorem Store.setCheckmarked (h : Store t) (i : Nat) (b : Bool) : Store (t.setCheckmarked i b) :=
  h.relinked ((Relinked.refl t).setCheckmarked i b)

theorem Store.setClosed (h : Store t) (n : Nat) (b : Bool) : Store (t.setClosed n b) :=
  h.modifyNode_marks n (fun _ => ⟨rfl, rfl, rfl⟩)

theorem Store.setOpen (h : Store t) (n : Nat) (b : Bool) : Store (t.setOpen n b) :=
  h.modifyNode_marks n (fun _ => ⟨rfl, rfl, rfl⟩)

theorem Store.of_branch (h : Store t) {n i : Nat} (hok : (t.branch n i).map Prod.snd = .ok t') :
    Store t' := by
  obtain ⟨⟨l, r⟩, hok⟩ := Except.map_snd_ok_iff.mp hok
  obtain ⟨hn, hleaf, hi, -, -, -, rfl⟩ := branch_ok_iff.mp hok
  exact h.withFork hn hleaf hi

/-- Deleting a node keeps the storage in step, when it is carried out. -/
theorem Store.of_deleteNode (h : Store t) {n : Nat} (hok : t.deleteNode n = .ok t') : Store t' := by
  obtain ⟨hn, hleaf, s, hs, rfl⟩ := deleteNode_ok_iff.mp hok
  rw [stow_eq_foldl]
  exact h.deleteNode hn hleaf hs

theorem Store.of_restoreNode (h : Store t) {n : Nat} (hok : t.restoreNode n = .ok t') :
    Store t' := by
  obtain ⟨hn, hdead, s, hs, hp, htwo, hl, rfl⟩ := restoreNode_ok_iff.mp hok
  exact h.restoreNode hn hdead hs hp htwo hl

/-- Also when the second child cannot be deleted, the references are as they should be. -/
theorem Store.deleteBranch (h : Store t) (n : Nat) : Store (t.deleteBranch n).1 := by
  unfold Tree.deleteBranch
  split
  · exact h
  · split
    · exact h
    · rename_i t₁ hr
      have h₁ := h.of_deleteNode hr
      split
      · exact h₁
      · rename_i t₂ hl
        exact h₁.of_deleteNode hl

/-- Restoring a branch keeps the storage in step, even when it stops halfway. -/
theorem Store.restoreBranch (h : Store t) (n : Nat) (pair : Nat × Nat) :
    Store (t.restoreBranch n pair).1 := by
  unfold Tree.restoreBranch
  split
  · exact h
  · split
    · exact h
    · split
      · exact h
      · rename_i t₁ hl
        have h₁ := h.of_restoreNode hl
        split
        · exact h₁
        · rename_i t₂ hr
          exact h₁.of_restoreNode hr

/-- Every edit keeps the storage in step, carried out or refused. -/
theorem Store.edit (h : Store t) (current : Nat) (e : Edit) :
    Store (Edit.apply ⟨t, current⟩ e).1.tree := by
  have hsettle : ∀ r : Except Refusal Tree, (∀ t', r = .ok t' → Store t') →
      Store (Edit.settle ⟨t, current⟩ r).1.tree := by
    intro r hr
    cases r with
    | ok t' => exact hr t' rfl
    | error e => exact h
  cases e with
  | insert i => exact hsettle _ (fun _ hok => h.of_restoreLine hok)
  | remove i => exact hsettle _ (fun _ hok => h.of_deleteLine hok)
  | graft n pair => exact h.restoreBranch n pair
  | prune n pair =>
    have hb := h.deleteBranch n
    unfold Edit.apply
    dsimp only
    split
    · rename_i heq
      rwa [heq] at hb
    · rename_i heq
      rwa [heq] at hb
  | justify c before after =>
    cases after with
    | none =>
      rw [Edit.apply_unlink]
      exact hsettle _ (fun _ hok => h.of_unlink hok)
    | some p =>
      rw [Edit.apply_link]
      exact hsettle _ (fun _ hok => h.of_link hok)
  | checkmark i checked => exact h.setCheckmarked i checked
  | close n closed => exact h.setClosed n closed
  | markOpen n isOpen => exact h.setOpen n isOpen
  | goTo before after => exact h

end Operations

/-- No operation upsets the references between lines and nodes. -/
theorem Store.perform {t : Tree} (h : Store t) (op : Operation) : Store (t.perform op) := by
  cases op with
  | addPremise φ => exact h.addPremise φ
  | addLine n φ => exact h.orKeep (fun _ hok => h.of_addLine hok)
  | readPremise text =>
    apply h.orKeep
    intro t' hok
    cases hφ : Formula.ofText text with
    | error e => simp [hφ, Except.map] at hok
    | ok φ =>
      obtain rfl : (t.addPremise φ).2 = t' := by simpa [hφ, Except.map] using hok
      exact h.addPremise φ
  | readLine n text =>
    apply h.orKeep
    intro t' hok
    obtain ⟨φ, -, hok⟩ := Except.bind_ok_iff.mp hok
    exact h.of_addLine hok
  | deleteLine i => exact h.orKeep (fun _ hok => h.of_deleteLine hok)
  | restoreLine i => exact h.orKeep (fun _ hok => h.of_restoreLine hok)
  | link p c =>
    rw [Tree.perform, fst_tryLink]
    exact h.orKeep (fun _ hok => h.of_link hok)
  | unlink c =>
    rw [Tree.perform, fst_tryUnlink]
    exact h.orKeep (fun _ hok => h.of_unlink hok)
  | setDependentsValid i valid => exact h.relinked ((Relinked.refl t).setDependentsValid i valid)
  | setCheckmarked i checked => exact h.setCheckmarked i checked
  | branch n i => exact h.orKeep (fun _ hok => h.of_branch hok)
  | deleteNode n => exact h.orKeep (fun _ hok => h.of_deleteNode hok)
  | restoreNode n => exact h.orKeep (fun _ hok => h.of_restoreNode hok)
  | deleteBranch n => exact h.deleteBranch n
  | restoreBranch n pair => exact h.restoreBranch n pair
  | setClosed n closed => exact h.setClosed n closed
  | setOpen n isOpen => exact h.setOpen n isOpen
  | checkmark i =>
    apply h.orKeep
    intro t' hok
    obtain ⟨-, -, rfl⟩ := checkmark_ok_iff.mp hok
    exact h.setCheckmarked i true
  | close n i j =>
    apply h.orKeep
    intro t' hok
    obtain ⟨-, -, -, -, rfl⟩ := close_ok_iff.mp hok
    exact h.setClosed n true
  | markOpen n =>
    apply h.orKeep
    intro t' hok
    obtain ⟨-, -, -, rfl⟩ := markOpen_ok_iff.mp hok
    exact h.setOpen n true
  | edit current e => exact h.edit current e

/-- The references are as they should be after every run of operations. -/
theorem Store.performAll {t : Tree} (h : Store t) (ops : List Operation) :
    Store (t.performAll ops) := by
  induction ops generalizing t with
  | nil => exact h
  | cons op ops ih => exact ih (h.perform op)

/-- A list holds exactly the entries with a property, and is strictly ordered by their numbers. -/
def ListsByNumber {α : Type} (r : Register α) (ids : List Nat) (P : Nat → Prop) : Prop :=
  (∀ i, i ∈ ids ↔ P i) ∧ ids.Pairwise (fun i j => r.number i < r.number j)

/-- What can be relied on in the lists of a tree. -/
structure WellStored (t : Tree) : Prop where
  lines_listed : ∀ i, t.lines.order.count i = if t.lines.isLive i then 1 else 0
  lines_numbered : ∀ k (hk : k < t.lines.order.length), t.lineNumber t.lines.order[k] = k + 1
  nodes_listed : ∀ n, t.nodes.order.count n = if t.nodes.isLive n then 1 else 0
  nodes_numbered : ∀ k (hk : k < t.nodes.order.length), t.nodeNumber t.nodes.order[k] = k + 1
  node_lines : ∀ n, t.nodes.isLive n = true → ListsByNumber t.lines (t.node n).lines
    (fun i => t.lines.isLive i = true ∧ (t.line i).node = n)
  line_node : ∀ i, t.lines.isLive i = true → t.nodes.isLive (t.line i).node = true
  dead_node_lines : ∀ n, t.nodes.isLive n = false →
    ∀ i ∈ (t.node n).lines, t.lines.isLive i = false
  parent : ∀ n, t.nodes.isLive n = true → n ≠ root → ∃ p, (t.node n).parent? = some p ∧
    t.nodes.isLive p = true ∧ (t.node p).children.count n = 1
  node_children : ∀ n, ListsByNumber t.nodes (t.node n).children
    (fun m => t.nodes.isLive m = true ∧ (t.node m).parent? = some n)
  node_children_le : ∀ n, (t.node n).children.length ≤ 2
  line_branches : ∀ i, ListsByNumber t.nodes (t.line i).branches
    (fun n => t.nodes.isLive n = true ∧ (t.node n).branchedOn? = some i)

/-- An entry in the tree is displayed once, any other never. -/
theorem count_order {α : Type} {r : Register α} (h : r.Ordered) (i : Nat) :
    r.order.count i = if r.isLive i then 1 else 0 := by
  split
  · rename_i hi
    exact List.count_eq_one_of_mem h.nodup ((h.mem_iff i).mpr hi)
  · rename_i hi
    exact List.count_eq_zero.mpr (fun hc => hi ((h.mem_iff i).mp hc))

/-- What is picked from the display is listed by its numbers. -/
theorem listsByNumber_filter {α : Type} {r : Register α} (h : r.Ordered) {p : Nat → Bool}
    {P : Nat → Prop} (hp : ∀ i, p i = true ↔ P i) :
    ListsByNumber r (r.order.filter p) (fun i => r.isLive i = true ∧ P i) := by
  refine ⟨fun i => ?_, h.pairwise_number List.filter_sublist⟩
  rw [List.mem_filter, h.mem_iff, hp]

/-- The display order decides in which order a list by number is. -/
theorem ListsByNumber.eq_filter {α : Type} {r : Register α} (h : r.Ordered) {ids : List Nat}
    {p : Nat → Bool} {P : Nat → Prop} (hp : ∀ i, p i = true ↔ P i)
    (hids : ListsByNumber r ids (fun i => r.isLive i = true ∧ P i)) : ids = r.order.filter p := by
  have hfilter := listsByNumber_filter h hp
  have hnodup : ids.Nodup := by
    apply hids.2.imp
    intro i j hij heq
    exact absurd hij (by simp [heq])
  refine List.Perm.eq_of_pairwise ?_ hids.2 hfilter.2 ?_
  · intro i j _ _ hij hji
    exact absurd hij (Nat.lt_asymm hji)
  · apply (List.perm_ext_iff_of_nodup hnodup (h.nodup.filter p)).mpr
    intro i
    rw [hids.1, hfilter.1]

theorem Store.wellStored {t : Tree} (h : Store t) : WellStored t where
  lines_listed := count_order h.holding.ordered
  lines_numbered _ hk := h.holding.ordered.number_getElem hk
  nodes_listed := count_order h.rooted.ordered
  nodes_numbered _ hk := h.rooted.ordered.number_getElem hk
  node_lines n hn := by
    rw [h.holding.lines n hn]
    exact listsByNumber_filter h.holding.ordered (fun i => beq_iff_eq)
  line_node := h.holding.home
  dead_node_lines n hn i hi := by
    have hdead := (h.holding.stowed n (by simp [hn])).dead i hi
    simpa using hdead
  parent n hn hroot := by
    obtain ⟨s, hs, -⟩ := h.rooted.stem n (Register.lt_size_of_isLive hn) hroot
    have hparent : (t.node n).parent? = some s.node := congrArg (Option.map Stem.node) hs
    refine ⟨s.node, hparent, h.rooted.parent_live n s hn hs, ?_⟩
    have hchildren : (t.node s.node).children =
        t.nodes.order.filter (fun m => (t.node m).parent? == some s.node) :=
      h.rooted.children s.node
    rw [hchildren, List.count_filter (by simpa using hparent), count_order h.rooted.ordered,
      if_pos hn]
  node_children n := by
    rw [show (t.node n).children = _ from h.rooted.children n]
    exact listsByNumber_filter h.rooted.ordered (fun m => beq_iff_eq)
  node_children_le := h.rooted.children_le
  line_branches i := by
    rw [h.branching.branches i]
    exact listsByNumber_filter h.rooted.ordered (fun m => beq_iff_eq)

/-- After every run of operations from the empty tree, refused ones included, the displayed lines
and nodes are the live ones, numbered from one, and every list of lines or nodes in the tree holds
exactly the live ones that belong there, ordered by number. -/
theorem wellStored_performAll_empty (ops : List Operation) :
    WellStored (Tree.empty.performAll ops) :=
  (store_empty.performAll ops).wellStored

end Tree

end TruthTrees
