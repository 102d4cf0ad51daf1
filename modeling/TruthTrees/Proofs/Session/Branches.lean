import TruthTrees.Proofs.Session.Timeline
import TruthTrees.Proofs.Tree.Splits

/-! The branches of a session and the node at which work goes on. Commands change the tree by
operations on trees only, so what holds after every run of operations holds in every session. -/
namespace TruthTrees

namespace Session

variable {s : Session}

/-- A tree comes from another one by operations that add lines as they were read from texts. -/
def LeadsTo (t u : Tree) : Prop :=
  ∃ ops : List Tree.Operation, u = t.performAll ops ∧
    ∀ op ∈ ops, ∀ φ, op.formula? = some φ → ∃ text, Formula.ofText text = .ok φ

theorem LeadsTo.refl (t : Tree) : LeadsTo t t := ⟨[], rfl, by simp⟩

/-- An operation that brings no formula leads from one tree to the next. -/
theorem LeadsTo.of_perform {t u : Tree} (op : Tree.Operation) (h : u = t.perform op)
    (hop : op.formula? = none) : LeadsTo t u :=
  ⟨[op], h, by simp [hop]⟩

/-- An operation may bring a formula that was read from a text. -/
theorem LeadsTo.of_perform_read {t u : Tree} (op : Tree.Operation) (h : u = t.perform op)
    {text : String} {φ : Formula} (hop : op.formula? = some φ)
    (hφ : Formula.ofText text = .ok φ) : LeadsTo t u := by
  refine ⟨[op], h, ?_⟩
  rw [List.forall_mem_singleton, hop]
  intro ψ hψ
  exact ⟨text, hφ.trans (congrArg _ (Option.some.inj hψ))⟩

theorem LeadsTo.trans {t u v : Tree} (h : LeadsTo t u) (h' : LeadsTo u v) : LeadsTo t v := by
  obtain ⟨ops, rfl, hops⟩ := h
  obtain ⟨ops', rfl, hops'⟩ := h'
  refine ⟨ops ++ ops', by rw [Tree.performAll, Tree.performAll, Tree.performAll,
    List.foldl_append], ?_⟩
  exact fun op hop => (List.mem_append.mp hop).elim (hops op) (hops' op)

/-- A refused command leads nowhere, so only what is carried out matters. -/
theorem tree_settle {x : Except Refusal (Session × Reply)}
    (hx : ∀ s' reply, x = .ok (s', reply) → LeadsTo s.tree s'.tree) :
    LeadsTo s.tree (s.settle x).1.tree := by
  cases x with
  | ok pair => exact hx pair.1 pair.2 rfl
  | error e => exact .refl _

/-- A command does operations on the tree, unless it begins a new one. -/
theorem tree_run (s : Session) {c : Command} (hc : c ≠ .reset) :
    LeadsTo s.tree (s.run c).1.tree := by
  cases c with
  | reset => exact absurd rfl hc
  | addPremise text =>
    refine tree_settle fun s' reply hok => ?_
    obtain ⟨φ, i, t, hφ, -, ht, -, rfl⟩ := addPremise_ok_iff.mp hok
    exact .of_perform_read (.addPremise φ) (congrArg Prod.snd ht).symm rfl hφ
  | addLine text =>
    refine tree_settle fun s' reply hok => ?_
    obtain ⟨φ, i, t, hφ, -, hadd, -, rfl⟩ := addLine_ok_iff.mp hok
    exact .of_perform_read (.addLine s.current φ) (by simp [Tree.perform, hadd]; rfl) rfl hφ
  | deleteLine number =>
    refine tree_settle fun s' reply hok => ?_
    obtain ⟨i, t, -, hdelete, -, rfl⟩ := deleteLine_ok_iff.mp hok
    exact .of_perform (.deleteLine i) (by simp [Tree.perform, hdelete]; rfl) rfl
  | justify child parent =>
    rw [run, justify_eq_settle]
    refine tree_settle fun s' reply hok => ?_
    obtain ⟨c, p, t, -, -, -, hlink, -, rfl⟩ := justified_ok_iff.mp hok
    exact .of_perform (.link p c) (by simp [Tree.perform, Tree.fst_tryLink, hlink]; rfl) rfl
  | checkmark number =>
    refine tree_settle fun s' reply hok => ?_
    obtain ⟨i, t, -, hcheckmark, -, rfl⟩ := checkmark_ok_iff.mp hok
    exact .of_perform (.checkmark i) (by simp [Tree.perform, hcheckmark]; rfl) rfl
  | branch number =>
    refine tree_settle fun s' reply hok => ?_
    obtain ⟨i, l, r, t, -, -, -, hbranch, -, rfl⟩ := branch_ok_iff.mp hok
    exact .of_perform (.branch s.current i) (by simp [Tree.perform, hbranch]; rfl) rfl
  | deleteBranch =>
    refine .of_perform (.deleteBranch s.current) ?_ rfl
    simp only [run, deleteBranch, Tree.perform]
    split <;> simp_all [recordedTree, recorded, tree]
  | goTo number =>
    refine tree_settle fun s' reply hok => ?_
    obtain ⟨n, -, -, rfl⟩ := goTo_ok_iff.mp hok
    exact .refl _
  | close first second =>
    refine tree_settle fun s' reply hok => ?_
    obtain ⟨i, j, t, -, -, -, hclose, -, rfl⟩ := close_ok_iff.mp hok
    exact .of_perform (.close s.current i j) (by simp [Tree.perform, hclose]; rfl) rfl
  | reopen number =>
    refine tree_settle fun s' reply hok => ?_
    obtain ⟨n, -, -, -, rfl⟩ := reopen_ok_iff.mp hok
    exact .of_perform (.setClosed n false) rfl rfl
  | markOpen =>
    refine tree_settle fun s' reply hok => ?_
    obtain ⟨t, hmark, -, rfl⟩ := markOpen_ok_iff.mp hok
    exact .of_perform (.markOpen s.current) (by simp [Tree.perform, hmark]; rfl) rfl
  | checkAllClosed =>
    rw [run_checkAllClosed]
    exact .refl _
  | checkAnyOpen =>
    rw [run_checkAnyOpen]
    exact .refl _
  | undo =>
    simp only [run, undo]
    split
    · exact .refl _
    · rename_i step h _
      refine .of_perform (.edit s.current step.edit.inverse) ?_ rfl
      simp only [Tree.perform]
      split <;> simp_all [tree, current]
  | redo =>
    simp only [run, redo]
    split
    · exact .refl _
    · rename_i step h _
      refine .of_perform (.edit s.current step.edit) ?_ rfl
      simp only [Tree.perform]
      split <;> simp_all [tree, current]

/-- The tree of a session is one that operations on the empty tree give. -/
theorem Reachable.leadsTo_tree {config : Config} (h : Reachable config s) :
    LeadsTo Tree.empty s.tree := by
  induction h with
  | start => exact .refl _
  | run _ c ih =>
    by_cases hc : c = .reset
    · rw [hc]
      exact .refl _
    · exact ih.trans (tree_run _ hc)

end Session

/-- A node has two children that were branched on the same line, which is in the tree, splits up and
stands on the path to the node. -/
structure Tree.SplitBy (t : Tree) (n left right i : Nat) : Prop where
  ne : left ≠ right
  children : (t.node n).children = [left, right]
  left_branchedOn : (t.node left).branchedOn? = some i
  right_branchedOn : (t.node right).branchedOn? = some i
  live : t.lines.isLive i = true
  splits : (t.line i).formula.decompose.branches = true
  ancestry : t.inAncestry n i = true

structure Sheet.WellBranched (s : Sheet) : Prop where
  current : s.tree.nodes.isLive s.current = true
  leaf_or_split : ∀ n, s.tree.nodes.isLive n = true →
    (s.tree.node n).children = [] ∨ ∃ left right i, s.tree.SplitBy n left right i
  leaf_branches : ∀ n i, s.tree.nodes.isLive n = true → (s.tree.node n).children = [] →
    s.tree.lines.isLive i = true → (s.tree.line i).node = n → (s.tree.line i).branches = []
  reached : ∀ n, s.tree.nodes.isLive n = true →
    Relation.ReflTransGen (fun p c => c ∈ (s.tree.node p).children) Tree.root n

namespace Tree

variable {t : Tree}

/-- A fork of a coherent tree is split by the line it grows from. -/
theorem Coherent.splitBy_of_fork (h : Coherent t) (hsplits : Splits t) {n left right i : Nat}
    (hfork : Fork t.nodes n left right i) : t.SplitBy n left right i := by
  have hpair := h.store.rooted.pair hfork.children
  have hleft : (t.node left).stem = some ⟨n, i⟩ := hfork.left_stem
  have hright : (t.node right).stem = some ⟨n, i⟩ := hfork.right_stem
  obtain ⟨hlive, hmem⟩ := h.branched left _ hpair.left_live hleft
  refine ⟨hpair.ne, hfork.children, ?_, ?_, hlive, (hsplits left _ hleft).2, ?_⟩
  · rw [Node.branchedOn?, hleft]
    rfl
  · rw [Node.branchedOn?, hright]
    rfl
  · simpa [inAncestry, hlive] using hmem

theorem Coherent.branches_of_leaf (h : Coherent t) {i : Nat}
    (hleaf : (t.node (t.line i).node).children = []) : (t.line i).branches = [] := by
  rw [h.store.branching.branches, List.filter_eq_nil_iff]
  intro m hm hbranched
  have hlive := (h.store.rooted.ordered.mem_iff m).mp hm
  obtain ⟨s, hs, rfl⟩ := Option.map_eq_some_iff.mp (beq_iff_eq.mp hbranched)
  exact h.branched.stem_line_node_ne h.store.rooted hleaf hlive hs rfl

/-- A node grows from an older one, which lists it; so going down from the root one comes to every
live node. -/
theorem Rooted.reached (h : Rooted t.nodes) {n : Nat} (hn : t.nodes.isLive n = true) :
    Relation.ReflTransGen (fun p c => c ∈ (t.node p).children) root n := by
  induction n using Nat.strongRecOn with
  | ind n ih =>
    by_cases hroot : n = root
    · rw [hroot]
    · obtain ⟨s, hs, hlt⟩ := h.stem n (Register.lt_size_of_isLive hn) hroot
      exact (ih s.node hlt (h.parent_live n s hn hs)).tail (h.mem_children hn hs)

end Tree

/-- A coherent sheet whose nodes grow from lines that split up is well branched. -/
theorem Sheet.Coherent.wellBranched {s : Sheet} (h : s.Coherent) (hsplits : s.tree.Splits) :
    s.WellBranched := by
  refine ⟨h.current, ?_, ?_, fun n hn => h.tree.store.rooted.reached hn⟩
  · intro n hn
    rcases h.forked n hn with hleaf | ⟨left, right, i, hfork⟩
    · exact Or.inl hleaf
    · exact Or.inr ⟨left, right, i, h.tree.splitBy_of_fork hsplits hfork⟩
  · rintro n i - hleaf - rfl
    exact h.tree.branches_of_leaf hleaf

namespace Session

/-- However a session came about, its branches and its current node can be relied on. -/
theorem wellBranched_of_reachable {config : Config} {s : Session} (hs : Reachable config s) :
    s.sheet.WellBranched := by
  obtain ⟨-, past, future, htimeline⟩ := hs.timeline
  obtain ⟨ops, hops, -⟩ := hs.leadsTo_tree
  have hsplits : s.sheet.tree.Splits := by
    rw [show s.sheet.tree = _ from hops]
    exact Tree.splits_empty.performAll ops
  exact htimeline.coherent.wellBranched hsplits

/-- A branch below a branch is undone and made again. -/
theorem wellBranched_of_reachable_undo :
    let s := (start {}).runAll [.addPremise "or(a,b)", .addPremise "iff(a,b)", .branch 1, .goTo 3,
      .branch 2, .goTo 5, .undo, .undo, .redo, .addLine "b"]
    s.sheet.WellBranched ∧ s.current = 2 ∧ (s.tree.node 0).children = [1, 2] ∧
      (s.tree.node 2).children = [3, 4] ∧ (s.tree.node 4).branchedOn? = some 1 := by
  intro s
  have hs : Reachable {} s := reachable_iff_exists_runAll.mpr ⟨_, rfl⟩
  exact ⟨wellBranched_of_reachable hs, by decide +kernel⟩

end Session

end TruthTrees
