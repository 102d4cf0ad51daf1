import TruthTrees.Proofs.Tree.TwinRules
import TruthTrees.Proofs.Tree.TwinSteps

/-! What is asked of twin trees has the same outcome. Either both refuse it for the same reason, in
which lines and nodes are only named by number, or both do it and are twins again. -/
namespace TruthTrees

/-- Two computations are refused for the same reason or have related results. -/
inductive Agree {ε α β : Type} (R : α → β → Prop) : Except ε α → Except ε β → Prop
  | ok {a : α} {b : β} (h : R a b) : Agree R (.ok a) (.ok b)
  | error (e : ε) : Agree R (.error e) (.error e)

namespace Agree

variable {ε α β α' β' : Type} {R : α → β → Prop} {S : α' → β' → Prop}

theorem bind {x : Except ε α} {y : Except ε β} {f : α → Except ε α'} {g : β → Except ε β'}
    (h : Agree R x y) (hfg : ∀ a b, R a b → Agree S (f a) (g b)) : Agree S (x >>= f) (y >>= g) := by
  cases h with
  | ok h => exact hfg _ _ h
  | error e => exact .error e

/-- Computations that begin alike. -/
theorem bind_of_eq {x y : Except ε α} {f : α → Except ε α'} {g : α → Except ε β'} (h : y = x)
    (hfg : ∀ a, x = .ok a → Agree S (f a) (g a)) : Agree S (x >>= f) (y >>= g) := by
  subst h
  cases hx : y with
  | ok a => exact hfg a hx
  | error e => exact .error e

end Agree

namespace Tree

variable {σ τ : Nat → Nat} {t u : Tree} {i j n : Nat}

def Grown (τ : Nat → Nat) (a b : Nat × Tree) : Prop :=
  (∃ σ, Twins σ τ a.2 b.2) ∧ b.2.lineNumber b.1 = a.2.lineNumber a.1

/-- Trees with two new nodes are twins, in which a node still corresponds to the node that it
corresponded to before, and the new nodes have the same numbers. -/
def Sprouted (σ : Nat → Nat) (n m : Nat) (a b : (Nat × Nat) × Tree) : Prop :=
  (∃ τ, Twins σ τ a.2 b.2 ∧ m = τ n) ∧ b.2.nodeNumber b.1.1 = a.2.nodeNumber a.1.1 ∧
    b.2.nodeNumber b.1.2 = a.2.nodeNumber a.1.2

namespace Twins

theorem liveLine (h : Twins σ τ t u) (hi : t.lines.isLive i = true) :
    Agree (fun l l' => l = t.line i ∧ l' = u.line (σ i)) (t.liveLine i) (u.liveLine (σ i)) := by
  rw [liveLine_of_isLive hi, liveLine_of_isLive (h.lines.isLive hi)]
  exact .ok ⟨rfl, rfl⟩

theorem liveNode (h : Twins σ τ t u) (hn : t.nodes.isLive n = true) :
    Agree (fun nd nd' => nd = t.node n ∧ nd' = u.node (τ n)) (t.liveNode n)
      (u.liveNode (τ n)) := by
  rw [liveNode_of_isLive hn, liveNode_of_isLive (h.nodes.isLive hn)]
  exact .ok ⟨rfl, rfl⟩

/-- Twin trees remain twins under a new premise, the new lines being twins of each other. -/
theorem grown_addPremise (h : Twins σ τ t u) (φ : Formula) :
    Grown τ (t.addPremise φ) (u.addPremise φ) := by
  have hadd := h.addPremise φ
  have hlive : (t.addPremise φ).2.lines.isLive t.lines.size = true :=
    (Register.isLive_insert _ _ _ _).mpr (Or.inl rfl)
  have hnumber := hadd.lineNumber hlive
  rw [Function.update_self] at hnumber
  exact ⟨⟨_, hadd⟩, hnumber⟩

/-- Twin trees add a line, or refuse it, alike. -/
theorem addLine (h : Twins σ τ t u) (hn : t.nodes.isLive n = true) (φ : Formula) :
    Agree (Grown τ) (t.addLine n φ) (u.addLine (τ n) φ) := by
  have hadd := h.withNewLine hn φ
  have hlive : (t.withNewLine n φ).lines.isLive t.lines.size = true :=
    (Register.isLive_push _ _ _).mpr (Or.inl rfl)
  have hnumber := hadd.lineNumber hlive
  rw [Function.update_self] at hnumber
  rw [addLine_ok_iff.mpr ⟨hn, rfl, rfl⟩, addLine_ok_iff.mpr ⟨h.nodes.isLive hn, rfl, rfl⟩]
  exact .ok ⟨⟨_, hadd⟩, hnumber⟩

/-- Twin trees delete a line, or refuse to, alike. -/
theorem deleteLine (h : Twins σ τ t u) (hi : t.lines.isLive i = true) :
    Agree (Twins σ τ) (t.deleteLine i) (u.deleteLine (σ i)) := by
  refine (h.liveLine hi).bind ?_
  rintro _ _ ⟨rfl, rfl⟩
  rw [h.branches hi, h.lineNumber hi, h.map_nodeNumber (h.isLive_of_mem_branches i)]
  by_cases hb : (t.line i).branches = []
  · rw [if_neg (by simp [hb]), if_neg (by simp [hb])]
    exact .ok (h.withoutLine hi hb)
  · rw [if_pos hb, if_pos (by simp [hb])]
    exact .error _

/-- Twin trees link two lines, or refuse to, alike. -/
theorem link (h : Twins σ τ t u) {p c : Nat} (hbefore : t.Before p c)
    (hp : t.support c ≠ .premise) : Agree (Twins σ τ) (t.link p c) (u.link (σ p) (σ c)) := by
  have hplive := hbefore.left_live h.lines.left
  have hclive := hbefore.right_live h.lines.left
  rw [link_ok_iff.mpr ⟨hplive, hclive, rfl⟩,
    link_ok_iff.mpr ⟨h.lines.isLive hplive, h.lines.isLive hclive, rfl⟩]
  exact .ok (h.relink hbefore hp)

theorem checkmark (h : Twins σ τ t u) (hi : t.lines.isLive i = true) :
    Agree (Twins σ τ) (t.checkmark i) (u.checkmark (σ i)) := by
  refine (h.liveLine hi).bind (fun _ _ _ => ?_)
  refine Agree.bind_of_eq (by rw [h.checkCheckmark hi]) (fun _ _ => ?_)
  exact .ok (h.setCheckmarked hi true)

/-- Twin trees branch, or refuse to, alike. -/
theorem branch (h : Twins σ τ t u) (hn : t.nodes.isLive n = true) (hi : t.inAncestry n i = true) :
    Agree (Sprouted σ n (τ n)) (t.branch n i) (u.branch (τ n) (σ i)) := by
  have hlive : t.lines.isLive i = true := (Bool.and_eq_true_iff.mp hi).1
  refine (h.liveNode hn).bind ?_
  rintro _ _ ⟨rfl, rfl⟩
  rw [h.isLeaf hn, h.nodeNumber hn]
  by_cases hleaf : (t.node n).isLeaf = true
  · rw [if_neg (by simp [hleaf]), if_neg (by simp [hleaf])]
    refine (h.liveLine hlive).bind ?_
    rintro _ _ ⟨rfl, rfl⟩
    rw [h.formula hlive, h.lineNumber hlive]
    split
    · exact .error _
    · have hfork := h.withFork hn (List.isEmpty_iff.mp hleaf) hi
      have hlive : ∀ m, m = t.nodes.size ∨ m = t.nodes.size + 1 →
          (t.withFork n i).nodes.isLive m = true := fun m hm =>
        (isLive_forked _ _ _ _).mpr (Or.inl hm)
      have hleft := hfork.nodeNumber (hlive _ (Or.inl rfl))
      have hright := hfork.nodeNumber (hlive _ (Or.inr rfl))
      rw [forkMap_size] at hleft
      rw [forkMap_size_succ] at hright
      exact .ok ⟨⟨_, hfork, (forkMap_of_isLive hn).symm⟩, hleft, hright⟩
  · rw [if_pos (by simp [hleaf]), if_pos (by simp [hleaf])]
    exact .error _

theorem close (h : Twins σ τ t u) (hn : t.nodes.isLive n = true) (hi : t.lines.isLive i = true)
    (hj : t.lines.isLive j = true) :
    Agree (Twins σ τ) (t.close n i j) (u.close (τ n) (σ i) (σ j)) := by
  refine (h.liveNode hn).bind (fun _ _ _ => ?_)
  refine (h.liveLine hi).bind (fun _ _ _ => ?_)
  refine (h.liveLine hj).bind (fun _ _ _ => ?_)
  refine Agree.bind_of_eq (by rw [h.checkClose hn hi hj]) (fun _ _ => ?_)
  exact .ok (h.setClosed hn true)

theorem markOpen (h : Twins σ τ t u) (hn : t.nodes.isLive n = true) :
    Agree (Twins σ τ) (t.markOpen n) (u.markOpen (τ n)) := by
  refine (h.liveNode hn).bind ?_
  rintro _ _ ⟨rfl, rfl⟩
  rw [(h.node n hn).closed, h.nodeNumber hn]
  split
  · exact .error _
  · refine Agree.bind_of_eq (by rw [h.checkOpen hn]) (fun _ _ => ?_)
    exact .ok (h.setOpen hn true)

end Twins

end Tree

end TruthTrees
