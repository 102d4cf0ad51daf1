import TruthTrees.Proofs.Tree.RemnantSteps
import TruthTrees.Tree.Rules

/-! What the rule for justifying a line leaves behind: a line that rests on another one says the
same, or was reached by taking the other one apart, and stands on a branch grown from it where it
has to. Formulas, the nodes that hold them and the stems of nodes never change, so this stays true
as long as the link does. -/
namespace TruthTrees.Tree

/-- What makes a line a good reason for another one. -/
def Warrants (t : Tree) (p c : Nat) : Prop :=
  (t.line p).formula.equivalent (t.line c).formula = true ∨
    (t.line p).formula.contains (t.line c).formula = true ∧
      (needsBranch (t.line p).formula (t.line c).formula = true →
        (t.node (t.line c).node).branchedOn? = some p)

def Warranted (t : Tree) : Prop :=
  ∀ p c, t.lines.isLive c = true → t.support c = .line p → t.Warrants p c

theorem warranted_empty : Warranted Tree.empty := by
  intro p c hc
  simp [Tree.empty, Register.empty, Register.isLive] at hc

/-- A line may rest on another one when it is no premise, is displayed behind the other one and has
a good reason in it. -/
theorem checkJustify_ok_iff {t : Tree} {c p : Nat} {x : Unit} : t.checkJustify c p = .ok x ↔
    t.support c ≠ .premise ∧ t.lineNumber p < t.lineNumber c ∧ t.Warrants p c := by
  unfold checkJustify Warrants support
  dsimp only
  split_ifs with hpremise hnumber hequivalent hcontains hneeds
  · simp [hpremise]
  · simp [Nat.not_lt.mpr hnumber]
  · simp [hpremise, Nat.lt_of_not_le hnumber, hequivalent]
  · simp_all
  · cases hb : (t.node (t.line c).node).branchedOn? with
    | none => simp [hequivalent, hneeds]
    | some i => by_cases hi : i = p <;> simp_all
  · simp_all

def NoNewLinks (t u : Tree) : Prop :=
  ∀ p c, u.lines.isLive c = true → u.support c = .line p →
    t.lines.isLive c = true ∧ t.support c = .line p

theorem NoNewLinks.trans {t u v : Tree} (h : NoNewLinks t u) (h' : NoNewLinks u v) :
    NoNewLinks t v := fun p c hc hs => h p c (h' p c hc hs).1 (h' p c hc hs).2

/-- Taking a line out brings no new justification. -/
theorem noNewLinks_detach {t : Tree} (h : Linked t) {i : Nat} (hi : t.lines.isLive i = true) :
    NoNewLinks t (t.detach i) := by
  intro p c hc hs
  rw [support_detach h.toTied hi] at hs
  split at hs
  · simp at hs
  · exact ⟨((isLive_detach t i c).mp hc).2, hs⟩

theorem noNewLinks_stow {t : Tree} (h : Linked t) {ids : List Nat} (hids : ids.Nodup)
    (hlive : ∀ i ∈ ids, t.lines.isLive i = true) : NoNewLinks t (t.stow ids) := by
  induction ids with
  | nil => exact fun _ _ hc hs => ⟨hc, hs⟩
  | cons i ids ih =>
    obtain ⟨hi, hids⟩ := List.nodup_cons.mp hids
    have hrest : ∀ j ∈ ids, t.lines.isLive j = true := fun j hj => hlive j (by simp [hj])
    have hi' : (t.stow ids).lines.isLive i = true :=
      (isLive_stow ids i).mpr ⟨hi, hlive i (by simp)⟩
    exact (ih hids hrest).trans (noNewLinks_detach (h.stow hids hrest) hi')

/-- A warrant depends on the two formulas and on what the lower line's node grows from. -/
theorem Warrants.congr {t u : Tree} {p c : Nat} (h : t.Warrants p c)
    (hp : (u.line p).formula = (t.line p).formula) (hc : (u.line c).formula = (t.line c).formula)
    (hn : (u.line c).node = (t.line c).node)
    (hs : (u.node (t.line c).node).stem = (t.node (t.line c).node).stem) : u.Warrants p c := by
  unfold Warrants at h ⊢
  rw [hp, hc, hn, Node.branchedOn?, hs]
  exact h

namespace Warranted

variable {t u : Tree}

/-- Reasons stay good when no line comes to rest on another one. -/
theorem transfer (h : Warranted t) (ht : Coherent t)
    (hline : ∀ i, t.lines.isLive i = true →
      (u.line i).formula = (t.line i).formula ∧ (u.line i).node = (t.line i).node)
    (hstem : ∀ n, t.nodes.isLive n = true → (u.node n).stem = (t.node n).stem)
    (hlinks : NoNewLinks t u) : Warranted u := by
  intro p c hc hs
  obtain ⟨hc', hs'⟩ := hlinks p c hc hs
  have hp' := (ht.linked.parent c p hc' hs').left_live ht.linked.ordered
  exact (h p c hc' hs').congr (hline p hp').1 (hline c hc').1 (hline c hc').2
    (hstem _ (ht.store.holding.home c hc'))

theorem modifyNode_marks (h : Warranted t) (ht : Coherent t) (n : Nat) {f : Node → Node}
    (hf : ∀ nd, (f nd).stem = nd.stem) : Warranted (t.modifyNode n f) := by
  apply h.transfer ht
  · exact fun _ _ => ⟨rfl, rfl⟩
  · intro m _
    rw [node_modifyNode]
    split
    · exact hf _
    · rfl
  · exact fun _ _ hc hs => ⟨hc, hs⟩

theorem setCheckmarked (h : Warranted t) (ht : Coherent t) {i : Nat}
    (hi : t.lines.isLive i = true) (b : Bool) : Warranted (t.setCheckmarked i b) := by
  have hr := (Relinked.refl t).setCheckmarked i b
  apply h.transfer ht
  · exact fun j _ => ⟨hr.formula j, hr.node j⟩
  · exact fun n _ => congrArg Node.stem (hr.nodeEq n)
  · intro p c hc hs
    rw [hr.isLive] at hc
    refine ⟨hc, ?_⟩
    rw [support, line_setCheckmarked (Register.lt_size_of_isLive hi)
      (fun k hk => ht.linked.lt_size_of_mem_children hi hk)] at hs
    exact hs

/-- A new line does not rest on another one yet. -/
theorem insert (h : Warranted t) (ht : Coherent t) (k : Nat) {l : Line} (hl : IsNew l) {n : Nat}
    {f : Node → Node} (hf : ∀ nd, (f nd).stem = nd.stem) :
    Warranted (({ t with lines := t.lines.insert k l } : Tree).modifyNode n f) := by
  have hline : ∀ j, (({ t with lines := t.lines.insert k l } : Tree).modifyNode n f).line j =
      if j = t.lines.size then l else t.line j := by
    intro j
    rw [line_modifyNode, line_insert]
  apply h.transfer ht
  · intro i hi
    rw [hline, if_neg (Nat.ne_of_lt (Register.lt_size_of_isLive hi))]
    exact ⟨rfl, rfl⟩
  · intro m _
    rw [node_modifyNode]
    split
    · exact hf _
    · rfl
  · intro p c hc hs
    rw [support, hline] at hs
    by_cases hnew : c = t.lines.size
    · rw [if_pos hnew] at hs
      exact absurd hs (hl.support p)
    · rw [if_neg hnew] at hs
      exact ⟨((Register.isLive_insert _ _ _ _).mp hc).resolve_left hnew, hs⟩

/-- A line that comes to rest on another one needs a good reason. -/
theorem relink (h : Warranted t) (ht : Coherent t) {p c : Nat} (hbefore : t.Before p c)
    (hp : t.support c ≠ .premise) (hw : t.Warrants p c) : Warranted (t.relink p c) := by
  have hr := ht.linked.rewired_relink hbefore hp
  intro q d hd hs
  rw [hr.relinked.isLive] at hd
  rw [hr.support] at hs
  have hqd : t.Warrants q d := by
    by_cases hdc : d = c
    · subst hdc
      rw [if_pos rfl, Justification.line.injEq] at hs
      exact hs ▸ hw
    · rw [if_neg hdc] at hs
      exact h q d hd hs
  exact hqd.congr (hr.relinked.formula q) (hr.relinked.formula d) (hr.relinked.node d)
    (congrArg Node.stem (hr.relinked.nodeEq _))

theorem extend (h : Warranted t) (ht : Coherent t) {r : Remnants} (hr : Fits t r) :
    Warranted (t.extend r) := by
  apply h.transfer ht
  · intro i hi
    rw [line_extend_of_isLive hi]
    exact ⟨rfl, rfl⟩
  · exact fun n hn => congrArg Node.stem (node_extend_of_isLive hn)
  · intro p c hc hs
    rw [hr.isLive_line] at hc
    exact ⟨hc, (support_extend hc).symm.trans hs⟩

/-- The justifications that are left after a deletion are still warranted. -/
theorem withoutLine (h : Warranted t) (ht : Coherent t) {i : Nat}
    (hi : t.lines.isLive i = true) : Warranted (t.withoutLine i) := by
  unfold Tree.withoutLine
  set t' := t.modifyNode (t.line i).node (fun nd => { nd with lines := nd.lines.filter (· ≠ i) })
    with ht'
  have hplaces := SamePlaces.detach t' i
  have hlinked : Linked t' := ht.linked.of_lines rfl
  have hlinks : NoNewLinks t' (t'.detach i) := noNewLinks_detach hlinked hi
  apply h.transfer ht
  · exact fun j _ => ⟨hplaces.formula j, hplaces.node j⟩
  · intro m _
    rw [hplaces.nodeEq, ht', node_modifyNode]
    split <;> rfl
  · exact hlinks

/-- A fork leaves every justification warranted. -/
theorem withFork (h : Warranted t) (ht : Coherent t) (n i : Nat) :
    Warranted (t.withFork n i) := by
  apply h.transfer ht
  · intro j _
    rw [line_withFork]
    exact ⟨rfl, rfl⟩
  · intro m hm
    have hlt := Register.lt_size_of_isLive hm
    unfold node
    rw [nodes_withFork, get_forked]
    dsimp only
    rw [if_neg (by omega)]
  · intro p c hc hs
    rw [support, line_withFork] at hs
    exact ⟨(Register.isLive_modify _ _ _ _).symm.trans hc, hs⟩

theorem of_deleteNode (h : Warranted t) (ht : Coherent t) {n : Nat}
    (hok : t.deleteNode n = .ok u) : Warranted u := by
  obtain ⟨hn, -, s, -, rfl⟩ := deleteNode_ok_iff.mp hok
  rw [stow_eq_foldl]
  have hplaces := SamePlaces.stow t (t.node n).lines
  have hlive : ∀ i ∈ (t.node n).lines, t.lines.isLive i = true :=
    fun i hi => ((ht.store.holding.mem_lines_iff hn).mp hi).1
  apply h.transfer ht
  · intro i _
    rw [line_withoutNode]
    exact ⟨hplaces.formula i, hplaces.node i⟩
  · intro m _
    refine Eq.trans ?_ (congrArg Node.stem (hplaces.nodeEq m))
    exact stem_cut _ n s.node m
  · apply (noNewLinks_stow ht.linked (ht.store.holding.nodup_lines hn) hlive).trans
    intro p c hc hs
    rw [support, line_withoutNode] at hs
    exact ⟨(Register.isLive_modify _ _ _ _).symm.trans hc, hs⟩

theorem of_deleteBranch (h : Warranted t) (ht : Coherent t) {n l m : Nat}
    (hok : t.deleteBranch n = (u, .ok (l, m))) : Warranted u := by
  obtain ⟨-, t₁, hright, hleft⟩ := deleteBranch_ok_iff.mp hok
  exact (h.of_deleteNode ht hright).of_deleteNode (ht.of_deleteNode hright) hleft

end Warranted

end TruthTrees.Tree
