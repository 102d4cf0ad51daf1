import TruthTrees.Proofs.Tree.StoreRuns

/-! The lines that were branched on. Branching on a line that does not split up is refused, and
neither what lines say nor where nodes grow from ever changes. So every node, deleted or not, grows
from a line that splits up, and every line, deleted or not, says what it was added with. -/
namespace TruthTrees.Tree

def Splits (t : Tree) : Prop :=
  ∀ n s, (t.node n).stem = some s →
    s.line < t.lines.size ∧ (t.line s.line).formula.decompose.branches = true

/-- Two trees of which the second one has all lines of the first, which still say the same, and no
nodes that grow from elsewhere. What lines say that only the second one has is of some kind. -/
structure Keeps (P : Formula → Prop) (t u : Tree) : Prop where
  size : t.lines.size ≤ u.lines.size
  formula : ∀ i < t.lines.size, (u.line i).formula = (t.line i).formula
  added : ∀ i, t.lines.size ≤ i → i < u.lines.size → P (u.line i).formula
  stem : ∀ n, (u.node n).stem = (t.node n).stem

namespace Keeps

variable {P : Formula → Prop} {t u v : Tree}

/-- Lines are only added by adding them. -/
theorem of_size_eq (size : u.lines.size = t.lines.size)
    (formula : ∀ i < t.lines.size, (u.line i).formula = (t.line i).formula)
    (stem : ∀ n, (u.node n).stem = (t.node n).stem) : Keeps P t u :=
  ⟨Nat.le_of_eq size.symm, formula, fun i hle hlt => absurd hlt (by omega), stem⟩

theorem refl (t : Tree) : Keeps P t t := of_size_eq rfl (fun _ _ => rfl) (fun _ => rfl)

theorem trans (h : Keeps P t u) (h' : Keeps P u v) : Keeps P t v where
  size := Nat.le_trans h.size h'.size
  formula i hi := (h'.formula i (Nat.lt_of_lt_of_le hi h.size)).trans (h.formula i hi)
  added i hle hlt := by
    by_cases hi : i < u.lines.size
    · rw [h'.formula i hi]
      exact h.added i hle hi
    · exact h'.added i (Nat.le_of_not_lt hi) hlt
  stem n := (h'.stem n).trans (h.stem n)

/-- What moves no line changes no stem and no formula. -/
theorem of_samePlaces (h : SamePlaces t u) : Keeps P t u :=
  of_size_eq h.size (fun i _ => h.formula i) (fun n => congrArg Node.stem (h.nodeEq n))

theorem modifyNode (t : Tree) (n : Nat) {f : Node → Node} (hf : ∀ nd, (f nd).stem = nd.stem) :
    Keeps P t (t.modifyNode n f) := by
  refine of_size_eq rfl (fun _ _ => rfl) (fun m => ?_)
  rw [node_modifyNode]
  split
  · exact hf _
  · rfl

/-- A new line leaves what the others say and where the nodes grow from. -/
theorem insert (t : Tree) (k : Nat) {l : Line} (hl : P l.formula) :
    Keeps P t { t with lines := t.lines.insert k l } := by
  have hsize : (t.lines.insert k l).size = t.lines.size + 1 := Register.size_insert _ _ _
  refine ⟨by dsimp only; omega, ?_, ?_, fun _ => rfl⟩
  · intro i hi
    rw [line_insert, if_neg (Nat.ne_of_lt hi)]
  · intro i hle hlt
    dsimp only at hlt
    rw [line_insert, if_pos (by omega)]
    exact hl

theorem withoutNode (t : Tree) (n : Nat) (s : Stem) : Keeps P t (t.withoutNode n s) := by
  refine of_size_eq (Register.size_modify _ _ _) ?_ (stem_cut t.nodes n s.node)
  intro i _
  rw [line_withoutNode]

theorem withNode (t : Tree) (n : Nat) (s : Stem) : Keeps P t (t.withNode n s) := by
  refine of_size_eq (Register.size_modify _ _ _) ?_ (stem_regrown t.nodes n s.node)
  intro i _
  rw [line_withNode]

theorem addPremise (t : Tree) {φ : Formula} (hφ : P φ) : Keeps P t (t.addPremise φ).2 :=
  (insert t _ hφ).trans (modifyNode _ root (fun _ => rfl))

theorem of_addLine {n i : Nat} {φ : Formula} (hφ : P φ) (hok : t.addLine n φ = .ok (i, u)) :
    Keeps P t u := by
  obtain ⟨-, -, rfl⟩ := addLine_ok_iff.mp hok
  rw [withNewLine_eq]
  exact (insert t _ hφ).trans (modifyNode _ n (fun _ => rfl))

theorem of_deleteLine {i : Nat} (hok : t.deleteLine i = .ok u) : Keeps P t u := by
  obtain ⟨-, -, rfl⟩ := deleteLine_ok_iff.mp hok
  set v := t.modifyNode (t.line i).node
    (fun n => { n with lines := n.lines.filter (· ≠ i) }) with hv
  have hnode : Keeps P t v := modifyNode t _ (fun _ => rfl)
  exact hnode.trans (of_samePlaces (SamePlaces.detach v i))

theorem of_restoreLine {i : Nat} (hok : t.restoreLine i = .ok u) : Keeps P t u := by
  obtain ⟨-, -, -, rfl⟩ := restoreLine_ok_iff.mp hok
  set v := (t.redisplay i).modifyNode (t.line i).node
    (fun n => { n with lines := (t.redisplay i).lines.place i n.lines }) with hv
  have hdisplay : Keeps P t (t.redisplay i) := of_samePlaces (SamePlaces.redisplay t i)
  have hnode : Keeps P (t.redisplay i) v := modifyNode _ _ (fun _ => rfl)
  have hlinks : Keeps P v (v.reattach i) :=
    of_samePlaces ((Relinked.refl v).reattach i).toSamePlaces
  exact hdisplay.trans (hnode.trans hlinks)

theorem of_link {p c : Nat} (hok : t.link p c = .ok u) : Keeps P t u := by
  obtain ⟨-, -, rfl⟩ := link_ok_iff.mp hok
  apply of_samePlaces
  apply Relinked.toSamePlaces
  apply Relinked.revalidate
  apply Relinked.modifyLine
  · exact ((Relinked.refl t).sever c).placeChild p c
  · exact fun _ => ⟨rfl, rfl, rfl⟩

theorem of_unlink {c : Nat} (hok : t.unlink c = .ok u) : Keeps P t u := by
  obtain ⟨-, rfl⟩ := unlink_ok_iff.mp hok
  exact of_samePlaces ((Relinked.refl t).sever c).toSamePlaces

theorem setCheckmarked (t : Tree) (i : Nat) (b : Bool) : Keeps P t (t.setCheckmarked i b) :=
  of_samePlaces ((Relinked.refl t).setCheckmarked i b).toSamePlaces

theorem of_deleteNode {n : Nat} (hok : t.deleteNode n = .ok u) : Keeps P t u := by
  obtain ⟨-, -, s, -, rfl⟩ := deleteNode_ok_iff.mp hok
  rw [stow_eq_foldl]
  exact (of_samePlaces (SamePlaces.stow t _)).trans (withoutNode _ n s)

theorem of_restoreNode {n : Nat} (hok : t.restoreNode n = .ok u) : Keeps P t u := by
  obtain ⟨-, -, s, -, -, -, -, rfl⟩ := restoreNode_ok_iff.mp hok
  exact (withNode t n s).trans (of_samePlaces (SamePlaces.unstow _ _))

theorem deleteBranch (t : Tree) (n : Nat) : Keeps P t (t.deleteBranch n).1 := by
  unfold Tree.deleteBranch
  split
  · exact refl t
  · split
    · exact refl t
    · rename_i t₁ hr
      split
      · exact of_deleteNode hr
      · rename_i t₂ hl
        exact (of_deleteNode hr).trans (of_deleteNode hl)

theorem restoreBranch (t : Tree) (n : Nat) (pair : Nat × Nat) :
    Keeps P t (t.restoreBranch n pair).1 := by
  unfold Tree.restoreBranch
  split
  · exact refl t
  · split
    · exact refl t
    · split
      · exact refl t
      · rename_i t₁ hl
        split
        · exact of_restoreNode hl
        · rename_i t₂ hr
          exact (of_restoreNode hl).trans (of_restoreNode hr)

theorem orKeep {r : Except Refusal Tree} (hr : ∀ u, r = .ok u → Keeps P t u) :
    Keeps P t (t.orKeep r) := by
  cases r with
  | ok u => exact hr u rfl
  | error e => exact refl t

/-- Whatever an edit does, it changes no stem and no formula. -/
theorem edit (t : Tree) (current : Nat) (e : Edit) :
    Keeps P t (Edit.apply ⟨t, current⟩ e).1.tree := by
  have hsettle : ∀ r : Except Refusal Tree, (∀ u, r = .ok u → Keeps P t u) →
      Keeps P t (Edit.settle ⟨t, current⟩ r).1.tree := by
    intro r hr
    cases r with
    | ok u => exact hr u rfl
    | error e => exact refl t
  cases e with
  | insert i => exact hsettle _ (fun _ hok => of_restoreLine hok)
  | remove i => exact hsettle _ (fun _ hok => of_deleteLine hok)
  | graft n pair => exact restoreBranch t n pair
  | prune n pair =>
    have hb := deleteBranch (P := P) t n
    unfold Edit.apply
    dsimp only
    split
    · rename_i heq
      rwa [heq] at hb
    · rename_i heq
      rwa [heq] at hb
  | justify c before after =>
    cases after with
    | none =>
      rw [Edit.apply_unlink]
      exact hsettle _ (fun _ hok => of_unlink hok)
    | some p =>
      rw [Edit.apply_link]
      exact hsettle _ (fun _ hok => of_link hok)
  | checkmark i checked => exact setCheckmarked t i checked
  | close n closed => exact modifyNode t n (fun _ => rfl)
  | markOpen n isOpen => exact modifyNode t n (fun _ => rfl)
  | goTo before after => exact refl t

end Keeps

def Operation.formula? : Operation → Option Formula
  | .addPremise φ | .addLine _ φ => some φ
  | .readPremise text | .readLine _ text => (Formula.ofText text).toOption
  | _ => none

/-- Only branching grows nodes, and it does so on a line that splits up. -/
theorem keeps_or_fork {P : Formula → Prop} (t : Tree) {op : Operation}
    (hop : ∀ φ, op.formula? = some φ → P φ) : Keeps P t (t.perform op) ∨
    ∃ n i, t.lines.isLive i = true ∧ (t.line i).formula.decompose.branches = true ∧
      t.perform op = t.withFork n i := by
  cases op with
  | branch n i =>
    cases hbranch : t.branch n i with
    | error e =>
      refine Or.inl (Keeps.orKeep fun u hok => ?_)
      simp [hbranch, Except.map] at hok
    | ok result =>
      obtain ⟨⟨l, r⟩, u⟩ := result
      obtain ⟨-, -, hi, hsplits, -, -, rfl⟩ := branch_ok_iff.mp hbranch
      exact Or.inr ⟨n, i, hi, hsplits, by simp [perform, hbranch, Except.map, Tree.orKeep]⟩
  | addPremise φ => exact Or.inl (Keeps.addPremise t (hop φ rfl))
  | addLine n φ =>
    refine Or.inl (Keeps.orKeep fun u hok => ?_)
    obtain ⟨i, hok⟩ := Except.map_snd_ok_iff.mp hok
    exact Keeps.of_addLine (hop φ rfl) hok
  | readPremise text =>
    refine Or.inl (Keeps.orKeep fun u hok => ?_)
    cases hφ : Formula.ofText text with
    | error e => simp [hφ, Except.map] at hok
    | ok φ =>
      obtain rfl : (t.addPremise φ).2 = u := by simpa [hφ, Except.map] using hok
      exact Keeps.addPremise t (hop φ (by simp [Operation.formula?, hφ, Except.toOption]))
  | readLine n text =>
    refine Or.inl (Keeps.orKeep fun u hok => ?_)
    obtain ⟨φ, hφ, hok⟩ := Except.bind_ok_iff.mp hok
    obtain ⟨i, hok⟩ := Except.map_snd_ok_iff.mp hok
    exact Keeps.of_addLine (hop φ (by simp [Operation.formula?, hφ, Except.toOption])) hok
  | deleteLine i => exact Or.inl (Keeps.orKeep fun _ hok => Keeps.of_deleteLine hok)
  | restoreLine i => exact Or.inl (Keeps.orKeep fun _ hok => Keeps.of_restoreLine hok)
  | link p c =>
    rw [Tree.perform, fst_tryLink]
    exact Or.inl (Keeps.orKeep fun _ hok => Keeps.of_link hok)
  | unlink c =>
    rw [Tree.perform, fst_tryUnlink]
    exact Or.inl (Keeps.orKeep fun _ hok => Keeps.of_unlink hok)
  | setDependentsValid i valid =>
    exact Or.inl (.of_samePlaces ((Relinked.refl t).setDependentsValid i valid).toSamePlaces)
  | setCheckmarked i checked => exact Or.inl (Keeps.setCheckmarked t i checked)
  | deleteNode n => exact Or.inl (Keeps.orKeep fun _ hok => Keeps.of_deleteNode hok)
  | restoreNode n => exact Or.inl (Keeps.orKeep fun _ hok => Keeps.of_restoreNode hok)
  | deleteBranch n => exact Or.inl (Keeps.deleteBranch t n)
  | restoreBranch n pair => exact Or.inl (Keeps.restoreBranch t n pair)
  | setClosed n closed => exact Or.inl (Keeps.modifyNode t n (fun _ => rfl))
  | setOpen n isOpen => exact Or.inl (Keeps.modifyNode t n (fun _ => rfl))
  | checkmark i =>
    refine Or.inl (Keeps.orKeep fun u hok => ?_)
    obtain ⟨-, -, rfl⟩ := checkmark_ok_iff.mp hok
    exact Keeps.setCheckmarked t i true
  | close n i j =>
    refine Or.inl (Keeps.orKeep fun u hok => ?_)
    obtain ⟨-, -, -, -, rfl⟩ := close_ok_iff.mp hok
    exact Keeps.modifyNode t n (fun _ => rfl)
  | markOpen n =>
    refine Or.inl (Keeps.orKeep fun u hok => ?_)
    obtain ⟨-, -, -, rfl⟩ := markOpen_ok_iff.mp hok
    exact Keeps.modifyNode t n (fun _ => rfl)
  | edit current e => exact Or.inl (Keeps.edit t current e)

theorem splits_empty : Splits Tree.empty := by
  intro n s hs
  simp [node_empty] at hs

/-- Whatever is done, nodes grow from lines that split up. -/
theorem Splits.perform {t : Tree} (h : Splits t) (op : Operation) : Splits (t.perform op) := by
  intro m s hs
  rcases keeps_or_fork (P := fun _ => True) t (fun _ _ => trivial) with
    hkeeps | ⟨n, i, hi, hsplits, heq⟩
  · rw [hkeeps.stem] at hs
    obtain ⟨hlt, hbranches⟩ := h m s hs
    rw [hkeeps.formula _ hlt]
    exact ⟨Nat.lt_of_lt_of_le hlt hkeeps.size, hbranches⟩
  · rw [heq] at hs ⊢
    have hsize : (t.withFork n i).lines.size = t.lines.size := Register.size_modify _ _ _
    rw [show (t.withFork n i).node m = _ from get_forked t.nodes n i m] at hs
    dsimp only at hs
    rw [hsize, line_withFork]
    split at hs
    · obtain rfl := Option.some.inj hs
      exact ⟨Register.lt_size_of_isLive hi, hsplits⟩
    · exact h m s hs

/-- After every run of operations, nodes grow from lines that split up only. -/
theorem Splits.performAll {t : Tree} (h : Splits t) (ops : List Operation) :
    Splits (t.performAll ops) := by
  induction ops generalizing t with
  | nil => exact h
  | cons op ops ih => exact ih (h.perform op)

def AllSay (P : Formula → Prop) (t : Tree) : Prop :=
  ∀ i < t.lines.size, P (t.line i).formula

/-- No operation brings in a formula other than its own. -/
theorem AllSay.perform {P : Formula → Prop} {t : Tree} (h : AllSay P t) {op : Operation}
    (hop : ∀ φ, op.formula? = some φ → P φ) : AllSay P (t.perform op) := by
  intro j hj
  rcases keeps_or_fork t hop with hkeeps | ⟨n, i, -, -, heq⟩
  · by_cases hold : j < t.lines.size
    · rw [hkeeps.formula j hold]
      exact h j hold
    · exact hkeeps.added j (Nat.le_of_not_lt hold) hj
  · have hsize : (t.withFork n i).lines.size = t.lines.size := Register.size_modify _ _ _
    rw [heq, hsize] at hj
    rw [heq, line_withFork]
    exact h j hj

/-- After every run of operations, lines say what operations have added only. -/
theorem AllSay.performAll {P : Formula → Prop} {t : Tree} (h : AllSay P t) {ops : List Operation}
    (hops : ∀ op ∈ ops, ∀ φ, op.formula? = some φ → P φ) : AllSay P (t.performAll ops) := by
  induction ops generalizing t with
  | nil => exact h
  | cons op ops ih =>
    exact ih (h.perform (hops op List.mem_cons_self))
      (fun op' hop' => hops op' (List.mem_cons_of_mem op hop'))

end TruthTrees.Tree
