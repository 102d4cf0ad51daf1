import TruthTrees.Proofs.Formula.Folds
import TruthTrees.Proofs.Tree.Coherent
import TruthTrees.Tree.Rules

/-! Trees in which the lines that rest on a line stand in another order. A rule sees of such a line
where it stands, what it says, and whether it stands on a branch grown from the line that it rests
on. As long as these are the same up to their order, and folding them in another order makes no
difference to the formula that they answer to, the line is decomposed in both trees or in none, and
keeps a branch from being finished in both or in none. -/
namespace TruthTrees

/-- What the rules see of a line that rests on another one. -/
structure ChildView where
  node : Nat
  formula : Formula
  /-- Whether the line stands on a branch that was grown from the line that it rests on. -/
  onOwnBranch : Bool
deriving DecidableEq

def Node.outline (nd : Node) : Option Nat × List Nat × Bool × Bool :=
  (nd.parent?, nd.children, nd.closed, nd.markedOpen)

namespace Tree

variable {t u : Tree} {i k n : Nat} {found found' : List Formula}

def childViews (t : Tree) (i : Nat) : List ChildView :=
  (t.line i).children.map (fun c =>
    ⟨(t.line c).node, (t.line c).formula, (t.node (t.line c).node).branchedOn? = some i⟩)

/-- The formulas a rule reads below a line depend on what is seen of its children only. -/
theorem childFormulas_eq (t : Tree) (i : Nat) (nodes : List Nat) :
    t.childFormulas i nodes =
      ((t.childViews i).filter (fun d => nodes.contains d.node)).map ChildView.formula := by
  rw [childFormulas, childViews, List.filter_map, List.map_map]
  rfl

theorem ownsBranches_eq (t : Tree) (i left right : Nat) :
    t.ownsBranches i left right =
      (t.childViews i).all (fun d => !(d.node = left || d.node = right) || d.onOwnBranch) := by
  rw [ownsBranches, childViews, List.all_map]
  rfl

theorem length_childFormulas_le (t : Tree) (i : Nat) (nodes : List Nat) :
    (t.childFormulas i nodes).length ≤ (t.childViews i).length := by
  rw [childFormulas_eq, List.length_map]
  exact List.length_filter_le _ _

/-- Every formula a rule reads below a line is that of a child. -/
theorem exists_of_mem_childFormulas {nodes : List Nat} {φ : Formula}
    (h : φ ∈ t.childFormulas i nodes) : ∃ c ∈ t.childViews i, c.formula = φ := by
  rw [childFormulas_eq] at h
  obtain ⟨c, hc, rfl⟩ := List.mem_map.mp h
  exact ⟨c, List.mem_of_mem_filter hc, rfl⟩

/-- What rests on a line in one more node comes on top of what was found in the others. -/
theorem childFormulas_cons_perm {nodes : List Nat} (hn : n ∉ nodes) :
    (t.childFormulas i nodes ++ t.childFormulas i [n]).Perm (t.childFormulas i (n :: nodes)) := by
  rw [childFormulas_eq, childFormulas_eq, childFormulas_eq, ← List.map_append]
  apply List.Perm.map
  have hsplit := List.filter_append_perm (fun d : ChildView => nodes.contains d.node)
    ((t.childViews i).filter (fun d => (n :: nodes).contains d.node))
  rw [List.filter_filter, List.filter_filter] at hsplit
  have hold : (t.childViews i).filter (fun d => nodes.contains d.node &&
      (n :: nodes).contains d.node) = (t.childViews i).filter (fun d => nodes.contains d.node) := by
    apply List.filter_congr
    intro d _
    by_cases hd : d.node ∈ nodes <;> simp [hd]
  have hnew : (t.childViews i).filter (fun d => !nodes.contains d.node &&
      (n :: nodes).contains d.node) = (t.childViews i).filter (fun d => [n].contains d.node) := by
    apply List.filter_congr
    intro d _
    by_cases hd : d.node ∈ nodes
    · have hne : d.node ≠ n := fun h => hn (h ▸ hd)
      simp [hd, hne]
    · simp [hd]
  rwa [hold, hnew] at hsplit

/-- Two trees that have the same nodes, but for the lines that these hold. -/
def SameFrame (t u : Tree) : Prop :=
  u.nodes.entries.map (fun e => e.value.outline) = t.nodes.entries.map (fun e => e.value.outline)

instance : Decidable (SameFrame t u) := inferInstanceAs (Decidable (_ = _))

/-- A line of one tree and a line of another one that differ in the order of the lines that rest on
them, and in their identities. -/
structure Rearranged (t u : Tree) (i k : Nat) : Prop where
  formula : (u.line k).formula = (t.line i).formula
  home : (u.line k).node = (t.line i).node
  checkmarked : (u.line k).checkmarked = (t.line i).checkmarked
  missing : (u.line k).justification = .missing ↔ (t.line i).justification = .missing
  branches : (t.line i).branches.Perm (u.line k).branches
  childViews : (t.childViews i).Perm (u.childViews k)

instance : Decidable (Rearranged t u i k) :=
  decidable_of_iff ((u.line k).formula = (t.line i).formula ∧
      (u.line k).node = (t.line i).node ∧
      (u.line k).checkmarked = (t.line i).checkmarked ∧
      ((u.line k).justification = .missing ↔ (t.line i).justification = .missing) ∧
      (t.line i).branches.Perm (u.line k).branches ∧ (t.childViews i).Perm (u.childViews k))
    ⟨fun ⟨h₁, h₂, h₃, h₄, h₅, h₆⟩ => ⟨h₁, h₂, h₃, h₄, h₅, h₆⟩,
      fun h => ⟨h.formula, h.home, h.checkmarked, h.missing, h.branches, h.childViews⟩⟩

namespace SameFrame

theorem symm (h : SameFrame t u) : SameFrame u t := Eq.symm h

theorem size (h : SameFrame t u) : u.nodes.size = t.nodes.size := by
  simpa using congrArg List.length h

theorem outline (h : SameFrame t u) (n : Nat) : (u.node n).outline = (t.node n).outline := by
  have hread : ∀ t : Tree, (t.node n).outline =
      ((t.nodes.entries.map (fun e => e.value.outline))[n]?).getD (default : Node).outline := by
    intro t
    rw [node, Register.get, Register.get?, List.getElem?_map]
    cases t.nodes.entries[n]? <;> rfl
  rw [hread, hread, h]

theorem parent? (h : SameFrame t u) (n : Nat) : (u.node n).parent? = (t.node n).parent? :=
  congrArg Prod.fst (h.outline n)

theorem children (h : SameFrame t u) (n : Nat) : (u.node n).children = (t.node n).children :=
  congrArg (fun o => o.2.1) (h.outline n)

theorem closed (h : SameFrame t u) (n : Nat) : (u.node n).closed = (t.node n).closed :=
  congrArg (fun o => o.2.2.1) (h.outline n)

theorem markedOpen (h : SameFrame t u) (n : Nat) :
    (u.node n).markedOpen = (t.node n).markedOpen :=
  congrArg (fun o => o.2.2.2) (h.outline n)

theorem shape (h : SameFrame t u) (n : Nat) : u.shape n = t.shape n := by
  fun_induction Tree.shape t n with
  | case1 n hc => rw [Tree.shape, h.children, hc]
  | case2 n c hc hlt ih =>
    rw [Tree.shape, h.children, hc]
    dsimp only
    rw [h.size, if_pos hlt, ih]
  | case3 n c hc hlt =>
    rw [Tree.shape, h.children, hc]
    dsimp only
    rw [h.size, if_neg hlt]
  | case4 n l r rest hc hlt ihl ihr =>
    rw [Tree.shape, h.children, hc]
    dsimp only
    rw [h.size, if_pos hlt, ihl, ihr]
  | case5 n l r rest hc hlt =>
    rw [Tree.shape, h.children, hc]
    dsimp only
    rw [h.size, if_neg hlt]

theorem path (h : SameFrame t u) (n : Nat) : u.path n = t.path n := by
  rw [Tree.path, Tree.path, ancestors_congr (fun m _ => h.parent? m)]

end SameFrame

namespace Rearranged

theorem symm (h : Rearranged t u i k) : Rearranged u t k i :=
  ⟨h.formula.symm, h.home.symm, h.checkmarked.symm, h.missing.symm, h.branches.symm,
    h.childViews.symm⟩

/-- Rearranged children say the same, in another order. -/
theorem childFormulas (h : Rearranged t u i k) (nodes : List Nat) :
    (t.childFormulas i nodes).Perm (u.childFormulas k nodes) := by
  rw [childFormulas_eq, childFormulas_eq]
  exact (h.childViews.filter _).map _

theorem ownsBranches (h : Rearranged t u i k) (left right : Nat) :
    u.ownsBranches k left right = t.ownsBranches i left right := by
  rw [ownsBranches_eq, ownsBranches_eq, h.childViews.all_eq]

/-- What adds up to a line does so in the other order. -/
theorem addsUp (h : Rearranged t u i k) (hperm : found.Perm found')
    (horder : Formula.Orderless (t.line i).formula found) (hadds : t.addsUp i found = true) :
    u.addsUp k found' = true := by
  unfold Tree.addsUp at hadds ⊢
  rw [h.formula]
  rw [List.any_eq_true] at hadds ⊢
  exact horder.conjunctions hperm hadds

/-- A sum that does not depend on the order is found again after rearranging. -/
theorem addsUpBelow (h : Rearranged t u i k) (hframe : SameFrame t u)
    (horder : ∀ nodes, Formula.Orderless (t.line i).formula (t.childFormulas i nodes))
    {above : List Nat} (habove : ∀ m ∈ above, m < n)
    (hfound : found.Perm (t.childFormulas i above)) (hperm : found.Perm found')
    (hadds : t.addsUpBelow i (t.shape n) found = true) :
    u.addsUpBelow k (t.shape n) found' = true := by
  -- The walk goes down from node to node, and what was found is what stands in the nodes above.
  have hclosed : ∀ m, (t.node m).closed = true → (u.node m).closed = true :=
    fun m hm => (hframe.closed m).trans hm
  have hnext : ∀ {m : Nat} {above : List Nat} {found : List Formula}, (∀ p ∈ above, p < m) →
      found.Perm (t.childFormulas i above) →
        (found ++ t.childFormulas i [m]).Perm (t.childFormulas i (m :: above)) :=
    fun hlt hfound => (hfound.append_right _).trans
      (childFormulas_cons_perm fun hm => Nat.lt_irrefl _ (hlt _ hm))
  have hbelow : ∀ {m c : Nat} {above : List Nat}, m < c → (∀ p ∈ above, p < m) →
      ∀ p ∈ m :: above, p < c := by
    intro m c above hmc hlt p hp
    rcases List.mem_cons.mp hp with rfl | hp
    · exact hmc
    · exact Nat.lt_trans (hlt p hp) hmc
  have hstep : ∀ {m : Nat} {above : List Nat} {found found' : List Formula},
      (∀ p ∈ above, p < m) → found.Perm (t.childFormulas i above) → found.Perm found' →
        t.addsUp i (found ++ t.childFormulas i [m]) = true →
          u.addsUp k (found' ++ u.childFormulas k [m]) = true := by
    intro m above found found' hlt hfound hperm
    exact h.addsUp (hperm.append (h.childFormulas [m]))
      ((horder (m :: above)).perm (hnext hlt hfound).symm)
  fun_induction Tree.shape t n generalizing above found found' with
  | case1 n _ | case3 n _ _ _ | case5 n _ _ _ _ _ =>
    rw [Tree.addsUpBelow, Bool.or_eq_true] at hadds ⊢
    exact hadds.imp (hclosed n) (hstep habove hfound hperm)
  | case2 n c _ hlt ih =>
    rw [Tree.addsUpBelow, Bool.or_eq_true, Bool.or_eq_true] at hadds ⊢
    refine hadds.imp (Or.imp (hclosed n) (hstep habove hfound hperm)) ?_
    exact ih (hbelow hlt.1 habove) (hnext habove hfound) (hperm.append (h.childFormulas [n]))
  | case4 n l r _ _ hlt ihl ihr =>
    rw [Tree.addsUpBelow, Bool.or_eq_true, Bool.or_eq_true, Bool.and_eq_true] at hadds ⊢
    refine hadds.imp (Or.imp (hclosed n) (hstep habove hfound hperm)) ?_
    exact And.imp
      (ihl (hbelow hlt.1.1 habove) (hnext habove hfound) (hperm.append (h.childFormulas [n])))
      (ihr (hbelow hlt.2.1 habove) (hnext habove hfound) (hperm.append (h.childFormulas [n])))

/-- A split is found again after rearranging, where the order does not matter to it. -/
theorem splitsUp (h : Rearranged t u i k)
    (hf : (t.line i).formula.Clear ∨ ∀ nodes, (t.childFormulas i nodes).length ≤ 2)
    {left right : Nat} (hsplits : t.splitsUp i left right = true) :
    u.splitsUp k left right = true := by
  have hl := h.childFormulas [left]
  have hr := h.childFormulas [right]
  have hf' := hf.imp_right (fun hlen => (⟨hlen [left], hlen [right]⟩ : _ ∧ _))
  unfold Tree.splitsUp at hsplits ⊢
  cases hS : Formula.conjunction? (t.childFormulas i [left]) with
  | none => simp [hS] at hsplits
  | some S =>
    cases hR : Formula.conjunction? (t.childFormulas i [right]) with
    | none => simp [hS, hR] at hsplits
    | some R =>
      obtain ⟨S', hS'⟩ := Formula.exists_conjunction?_of_perm hl hS
      obtain ⟨R', hR'⟩ := Formula.exists_conjunction?_of_perm hr hR
      simp only [hS, hR] at hsplits
      simp only [hS', hR', h.formula]
      exact Formula.equivalent_or_of_perm hl hr hS hS' hR hR' hf' hsplits

theorem splitsUpBelow (h : Rearranged t u i k) (hframe : SameFrame t u)
    (hf : (t.line i).formula.Clear ∨ ∀ nodes, (t.childFormulas i nodes).length ≤ 2)
    {shape : Shape} (hsplits : t.splitsUpBelow i shape = true) :
    u.splitsUpBelow k shape = true := by
  induction shape with
  | leaf n | single n _ =>
    rw [Tree.splitsUpBelow] at hsplits ⊢
    rw [hframe.closed, hsplits]
  | fork n l r ihl ihr =>
    rw [Tree.splitsUpBelow, Bool.or_eq_true, Bool.and_eq_true, Bool.or_eq_true,
      Bool.and_eq_true] at hsplits ⊢
    rw [hframe.closed, h.ownsBranches]
    exact hsplits.imp_right (And.imp_right (Or.imp (h.splitsUp hf) (And.imp ihl ihr)))

end Rearranged

/-- A line whose decomposition does not depend on the order of the lines that rest on it. It is
taken apart into nothing; or it is a plain conjunction; or it has cases, and only plain pieces; or
at most two lines rest on it, and none of them says the same. -/
inductive OrderFree (t : Tree) (i : Nat) : Prop
  | single (hj : (t.line i).formula.decompose.junction? = none)
  | joint (hop : (t.line i).formula.operator? = some .and) (hplain : (t.line i).formula.Plain)
  | cases (hj : (t.line i).formula.decompose.junction? = some .or)
    (hclear : (t.line i).formula.Clear)
  | few (hlen : (t.childViews i).length ≤ 2)
    (hnone : ∀ c ∈ t.childViews i, c.formula.equivalent (t.line i).formula = false)

theorem OrderFree.rearranged (horder : t.OrderFree i) (h : Rearranged t u i k) :
    u.OrderFree k := by
  cases horder with
  | single hj => exact .single (h.formula ▸ hj)
  | joint hop hplain => exact .joint (h.formula ▸ hop) (h.formula ▸ hplain)
  | cases hj hclear => exact .cases (h.formula ▸ hj) (h.formula ▸ hclear)
  | few hlen hnone =>
    refine .few (h.childViews.length_eq ▸ hlen) ?_
    intro c hc
    rw [h.formula]
    exact hnone c (h.childViews.mem_iff.mpr hc)

namespace Rearranged

/-- A line that is decomposed in one tree is decomposed in the other one. -/
theorem isDecomposed_of (h : Rearranged t u i k) (hframe : SameFrame t u)
    (horder : t.OrderFree i)
    (hall : ∀ c ∈ t.childViews i, (t.line i).formula.contains c.formula = true)
    (hdec : t.isDecomposed i = true) : u.isDecomposed k = true := by
  have hadds (hjoin : ∀ nodes, Formula.Orderless (t.line i).formula (t.childFormulas i nodes)) :
      t.addsUpBelow i (t.shape (t.line i).node) [] = true →
        u.addsUpBelow k (t.shape (t.line i).node) [] = true := by
    have habove : ∀ m ∈ ([] : List Nat), m < (t.line i).node := by simp
    exact h.addsUpBelow hframe hjoin habove (by simp [Tree.childFormulas]) (.refl [])
  have hsplits (hf : (t.line i).formula.Clear ∨ ∀ nodes, (t.childFormulas i nodes).length ≤ 2) :
      t.splitsUpBelow i (t.shape (t.line i).node) = true →
        u.splitsUpBelow k (t.shape (t.line i).node) = true := h.splitsUpBelow hframe hf
  unfold Tree.isDecomposed at hdec ⊢
  dsimp only at hdec ⊢
  rw [h.formula, h.home, hframe.shape]
  cases horder with
  | single hj => rw [hj]
  | joint hop hplain =>
    have hj : (t.line i).formula.decompose.junction? = some .and := by
      obtain ⟨l, r, hand⟩ := Formula.eq_and_of_operator? hop
      rw [hand]
      rfl
    rw [hj] at hdec ⊢
    refine hadds (fun nodes => Or.inl ⟨hop, hplain, ?_⟩) hdec
    intro x hx
    obtain ⟨c, hc, rfl⟩ := exists_of_mem_childFormulas hx
    exact hall c hc
  | cases hj hclear =>
    rw [hj] at hdec ⊢
    exact hsplits (Or.inl hclear) hdec
  | few hlen hnone =>
    have hshort : ∀ nodes, (t.childFormulas i nodes).length ≤ 2 :=
      fun nodes => (length_childFormulas_le t i nodes).trans hlen
    have hjoin : ∀ nodes, Formula.Orderless (t.line i).formula (t.childFormulas i nodes) := by
      refine fun nodes => Or.inr ⟨hshort nodes, ?_⟩
      intro x hx
      obtain ⟨c, hc, rfl⟩ := exists_of_mem_childFormulas hx
      exact hnone c hc
    cases hj : (t.line i).formula.decompose.junction? with
    | none => rfl
    | some j =>
      rw [hj] at hdec
      cases j with
      | and => exact hadds hjoin hdec
      | or => exact hsplits (Or.inr hshort) hdec
      | iff =>
        rw [Bool.or_eq_true] at hdec ⊢
        exact hdec.imp (hsplits (Or.inr hshort)) (hadds hjoin)

/-- A decomposed line stays decomposed when its children are rearranged. -/
theorem isDecomposed (h : Rearranged t u i k) (hframe : SameFrame t u) (horder : t.OrderFree i)
    (hall : ∀ c ∈ t.childViews i, (t.line i).formula.contains c.formula = true) :
    u.isDecomposed k = t.isDecomposed i := by
  have hall' : ∀ c ∈ u.childViews k, (u.line k).formula.contains c.formula = true := by
    intro c hc
    rw [h.formula]
    exact hall c (h.childViews.mem_iff.mpr hc)
  rw [Bool.eq_iff_iff]
  exact ⟨h.symm.isDecomposed_of hframe.symm (horder.rearranged h) hall',
    h.isDecomposed_of hframe horder hall⟩

theorem isOk_checkCheckmark (h : Rearranged t u i k) (hframe : SameFrame t u)
    (horder : t.OrderFree i)
    (hall : ∀ c ∈ t.childViews i, (t.line i).formula.contains c.formula = true) :
    (u.checkCheckmark k).isOk = (t.checkCheckmark i).isOk := by
  unfold Tree.checkCheckmark
  rw [h.checkmarked, h.isDecomposed hframe horder hall]
  split_ifs <;> rfl

end Rearranged

/-- A line of which it does not depend on the order of the lines that rest on it whether a path
answers it. It is taken apart into nothing; or it says two things at once and is plain; or it has
only plain pieces; or at most two lines on the path rest on it. -/
inductive OrderFreeOn (t : Tree) (path : List Nat) (i : Nat) : Prop
  | single (hj : (t.line i).formula.decompose.junction? = none)
  | joint (hj : (t.line i).formula.decompose.junction? = some .and)
    (hplain : (t.line i).formula.Plain)
  | clear (hclear : (t.line i).formula.Clear)
  | few (hlen : (t.childFormulas i path).length ≤ 2)

variable {path : List Nat}

theorem orderFreeOn_iff : t.OrderFreeOn path i ↔
    (t.line i).formula.decompose.junction? = none ∨
      ((t.line i).formula.decompose.junction? = some .and ∧ (t.line i).formula.Plain) ∨
      (t.line i).formula.Clear ∨ (t.childFormulas i path).length ≤ 2 := by
  constructor
  · intro h
    cases h with
    | single hj => exact Or.inl hj
    | joint hj hplain => exact Or.inr (Or.inl ⟨hj, hplain⟩)
    | clear hclear => exact Or.inr (Or.inr (Or.inl hclear))
    | few hlen => exact Or.inr (Or.inr (Or.inr hlen))
  · rintro (hj | ⟨hj, hplain⟩ | hclear | hlen)
    · exact .single hj
    · exact .joint hj hplain
    · exact .clear hclear
    · exact .few hlen

instance : Decidable (t.OrderFreeOn path i) := decidable_of_iff _ orderFreeOn_iff.symm

theorem OrderFreeOn.rearranged (horder : t.OrderFreeOn path i) (h : Rearranged t u i k) :
    u.OrderFreeOn path k := by
  cases horder with
  | single hj => exact .single (h.formula ▸ hj)
  | joint hj hplain => exact .joint (h.formula ▸ hj) (h.formula ▸ hplain)
  | clear hclear => exact .clear (h.formula ▸ hclear)
  | few hlen => exact .few ((h.childFormulas path).length_eq ▸ hlen)

/-- A line does not keep a path from being finished if it is checkmarked, or justified and taken
apart on the path as far as it can be. -/
theorem unfinishedOn?_eq_none_iff : t.unfinishedOn? path i = none ↔
    (t.line i).checkmarked = true ∨ (t.line i).justification ≠ .missing ∧
      ∀ j, (t.line i).formula.decompose.junction? = some j →
        ∃ S, Formula.conjunction? (t.childFormulas i path) = some S ∧
          answers j (t.line i).formula S = true ∧
          (j ≠ .and → (t.line i).branches.any path.contains = true) := by
  unfold unfinishedOn?
  dsimp only
  by_cases hmark : (t.line i).checkmarked = true
  · simp [hmark]
  by_cases hmissing : (t.line i).justification = .missing
  · simp [hmark, hmissing]
  cases hj : (t.line i).formula.decompose.junction? with
  | none => simp [hmark, hmissing]
  | some j =>
    by_cases hchildren : (t.line i).children = []
    · simp [hmark, hmissing, hchildren, childFormulas, Formula.conjunction?]
    cases hS : Formula.conjunction? (t.childFormulas i path) with
    | none => simp [hmark, hmissing, hchildren]
    | some S =>
      by_cases hanswers : answers j (t.line i).formula S = true
      · cases j <;> simp [hmark, hmissing, hchildren, hanswers]
      · simp [hmark, hmissing, hchildren, hanswers]

/-- What answers a line does so in the other order. -/
theorem answers_of_perm {xs ys : List Formula} {S S' f : Formula} {j : Junction}
    (hperm : xs.Perm ys) (hS : Formula.conjunction? xs = some S)
    (hS' : Formula.conjunction? ys = some S')
    (hf : (j = .and ∧ f.Plain) ∨ f.Clear ∨ xs.length ≤ 2) (h : answers j f S = true) :
    answers j f S' = true := by
  have hplain : f.Plain ∨ xs.length ≤ 2 := by
    rcases hf with ⟨-, hf⟩ | hf | hlen
    · exact Or.inl hf
    · exact Or.inl hf.plain
    · exact Or.inr hlen
  have hequiv := Formula.equivalent_of_perm hperm hS hS' hplain
  cases j with
  | and => exact hequiv h
  | or => exact Formula.contains_of_perm hperm hS hS' (hf.resolve_left (by simp)) h
  | iff =>
    rw [answers, Bool.or_eq_true] at h ⊢
    exact h.imp hequiv (Formula.contains_of_perm hperm hS hS' (hf.resolve_left (by simp)))

def linesAbove (t : Tree) (n : Nat) : List Nat := (t.path n).flatMap (fun p => (t.node p).lines)

/-- A branch may be marked open at an unmarked leaf above which no line is unfinished. -/
theorem isOk_checkOpen_iff : (t.checkOpen n).isOk = true ↔
    (t.node n).children = [] ∧ (t.node n).markedOpen = false ∧
      ∀ i ∈ t.linesAbove n, t.unfinishedOn? (t.path n) i = none := by
  unfold checkOpen linesAbove
  rw [← List.findSome?_eq_none_iff]
  by_cases hleaf : (t.node n).children = []
  · cases hopen : (t.node n).markedOpen with
    | true => simp [Node.isLeaf, hleaf, Except.isOk, Except.toBool]
    | false =>
      cases hfind : ((t.path n).flatMap (fun p => (t.node p).lines)).findSome?
          (t.unfinishedOn? (t.path n)) with
      | none => simp [Node.isLeaf, hleaf, hfind, Except.isOk, Except.toBool]
      | some v => simp [Node.isLeaf, hleaf, hfind, Except.isOk, Except.toBool]
  · simp [Node.isLeaf, hleaf, Except.isOk, Except.toBool]

/-- On the path to a node the lines of two trees correspond to each other, up to the order of the
lines that rest on them. -/
structure RearrangedAbove (t u : Tree) (n : Nat) : Prop where
  right : ∀ i ∈ t.linesAbove n, ∃ k ∈ u.linesAbove n, Rearranged t u i k
  left : ∀ k ∈ u.linesAbove n, ∃ i ∈ t.linesAbove n, Rearranged t u i k

instance : Decidable (RearrangedAbove t u n) :=
  decidable_of_iff ((∀ i ∈ t.linesAbove n, ∃ k ∈ u.linesAbove n, Rearranged t u i k) ∧
      ∀ k ∈ u.linesAbove n, ∃ i ∈ t.linesAbove n, Rearranged t u i k)
    ⟨fun ⟨h₁, h₂⟩ => ⟨h₁, h₂⟩, fun h => ⟨h.right, h.left⟩⟩

theorem RearrangedAbove.symm (h : RearrangedAbove t u n) : RearrangedAbove u t n := by
  constructor
  · intro k hk
    obtain ⟨i, hi, hr⟩ := h.left k hk
    exact ⟨i, hi, hr.symm⟩
  · intro i hi
    obtain ⟨k, hk, hr⟩ := h.right i hi
    exact ⟨k, hk, hr.symm⟩

/-- A line that does not keep a path from being finished in one tree does not do so in the other
one. -/
theorem Rearranged.unfinishedOn?_of (h : Rearranged t u i k) (horder : t.OrderFreeOn path i)
    (hnone : t.unfinishedOn? path i = none) : u.unfinishedOn? path k = none := by
  rw [unfinishedOn?_eq_none_iff] at hnone ⊢
  rw [h.checkmarked, h.formula, Ne, h.missing]
  refine hnone.imp_right (And.imp_right ?_)
  intro hanswered j hj
  obtain ⟨S, hS, hanswers, hbranch⟩ := hanswered j hj
  have hperm := h.childFormulas path
  obtain ⟨S', hS'⟩ := Formula.exists_conjunction?_of_perm hperm hS
  have hf : (j = .and ∧ (t.line i).formula.Plain) ∨ (t.line i).formula.Clear ∨
      (t.childFormulas i path).length ≤ 2 := by
    rw [orderFreeOn_iff, hj] at horder
    simpa using horder
  refine ⟨S', hS', answers_of_perm hperm hS hS' hf hanswers, ?_⟩
  rw [← h.branches.any_eq]
  exact hbranch

theorem RearrangedAbove.isOk_checkOpen_of (h : RearrangedAbove t u n) (hframe : SameFrame t u)
    (horder : ∀ i ∈ t.linesAbove n, t.OrderFreeOn (t.path n) i)
    (hok : (t.checkOpen n).isOk = true) : (u.checkOpen n).isOk = true := by
  rw [isOk_checkOpen_iff] at hok ⊢
  rw [hframe.children, hframe.markedOpen, hframe.path]
  obtain ⟨hleaf, hopen, hfinished⟩ := hok
  refine ⟨hleaf, hopen, ?_⟩
  intro k hk
  obtain ⟨i, hi, hr⟩ := h.left k hk
  exact hr.unfinishedOn?_of (horder i hi) (hfinished i hi)

/-- Rearranging the lines above a node does not change whether it may be marked open. -/
theorem RearrangedAbove.isOk_checkOpen (h : RearrangedAbove t u n) (hframe : SameFrame t u)
    (horder : ∀ i ∈ t.linesAbove n, t.OrderFreeOn (t.path n) i) :
    (u.checkOpen n).isOk = (t.checkOpen n).isOk := by
  have horder' : ∀ k ∈ u.linesAbove n, u.OrderFreeOn (u.path n) k := by
    intro k hk
    obtain ⟨i, hi, hr⟩ := h.left k hk
    rw [hframe.path]
    exact (horder i hi).rearranged hr
  rw [Bool.eq_iff_iff]
  exact ⟨h.symm.isOk_checkOpen_of hframe.symm horder', h.isOk_checkOpen_of hframe horder⟩

end Tree

end TruthTrees
