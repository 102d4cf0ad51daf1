import TruthTrees.Proofs.Tree.Store

/-! The nodes of a tree when two nodes grow from a leaf, when a leaf is cut off and when it grows
back. In each case they are a tree again, and apart from the lists of children and of live nodes
nothing about them changes. -/
namespace TruthTrees.Tree

def forked (r : Register Node) (n i : Nat) : Register Node :=
  let new : Node := { stem := some ⟨n, i⟩ }
  ((r.push new).push new).modify n (fun nd => { nd with children := [r.size, r.size + 1] })

section Forked

variable (r : Register Node) (n i : Nat)

theorem size_forked : (forked r n i).size = r.size + 2 := by
  unfold forked
  rw [Register.size_modify, Register.size_push, Register.size_push]

/-- The two new nodes come last in the display. -/
theorem order_forked : (forked r n i).order = r.order ++ [r.size, r.size + 1] := by
  simp only [forked, Register.order_modify, Register.order_push, Register.size_push,
    List.append_assoc, List.singleton_append]

theorem isLive_forked (m : Nat) : (forked r n i).isLive m = true ↔
    (m = r.size ∨ m = r.size + 1) ∨ r.isLive m = true := by
  unfold forked
  rw [Register.isLive_modify, Register.isLive_push, Register.size_push, Register.isLive_push]
  tauto

theorem ordered_forked {r : Register Node} (h : r.Ordered) (n i : Nat) :
    (forked r n i).Ordered := by
  unfold forked
  exact ((h.push _).push _).congr (Register.SameDisplay.modify _ _ _)

theorem leftFrom_forked {r : Register Node} (h : r.Ordered) (n i m : Nat) :
    (forked r n i).leftFrom m = r.leftFrom m := by
  unfold forked
  rw [Register.leftFrom_modify, (h.push _).leftFrom_push, h.leftFrom_push]

theorem counted_forked {r : Register Node} (h : r.Counted) (ho : r.Ordered) (n i : Nat) :
    (forked r n i).Counted :=
  h.of_leftFrom (ordered_forked ho n i) (fun m _ hm => (leftFrom_forked ho n i m).symm.trans hm)

/-- The new nodes hold no lines, have no children and no marks. -/
theorem get_forked (m : Nat) : (forked r n i).get m =
    { r.get m with
      stem := if m = r.size ∨ m = r.size + 1 then some ⟨n, i⟩ else (r.get m).stem
      children := if m = n ∧ m < r.size + 2 then [r.size, r.size + 1]
        else (r.get m).children } := by
  have hget (a : Node) : ((r.push a).push a).get m =
      if m = r.size ∨ m = r.size + 1 then a else r.get m := by
    rw [Register.get_push, Register.size_push, Register.get_push]
    by_cases h₁ : m = r.size + 1
    · simp [h₁]
    · by_cases h₀ : m = r.size <;> simp [h₀, h₁]
  have hsize₂ (a : Node) : ((r.push a).push a).size = r.size + 2 := by
    rw [Register.size_push, Register.size_push]
  have hnew : m = r.size ∨ m = r.size + 1 → r.get m = {} := fun h =>
    Register.get_of_size_le (by omega)
  unfold forked
  rw [Register.get_modify, hsize₂, hget]
  by_cases h : m = r.size ∨ m = r.size + 1
  · rw [if_pos h, if_pos h, hnew h]
    split <;> rfl
  · rw [if_neg h, if_neg h]
    split <;> rfl

end Forked

/-- A leaf that forks keeps the tree rooted. -/
theorem Rooted.forked {r : Register Node} (h : Rooted r) {n : Nat} (hn : r.isLive n = true)
    (hleaf : (r.get n).children = []) (i : Nat) : Rooted (forked r n i) := by
  have hlt := Register.lt_size_of_isLive hn
  have hroot := Register.lt_size_of_isLive h.root_live
  have hold : ∀ m < r.size, ((Tree.forked r n i).get m).stem = (r.get m).stem := by
    intro m hm
    rw [get_forked, if_neg (by omega)]
  have hnew : ∀ m, m = r.size ∨ m = r.size + 1 →
      ((Tree.forked r n i).get m).stem = some ⟨n, i⟩ := by
    intro m hm
    rw [get_forked, if_pos hm]
  have hchildren : ∀ m, (Tree.forked r n i).order.filter
      (fun k => ((Tree.forked r n i).get k).parent? == some m) =
        (r.get m).children ++ if m = n then [r.size, r.size + 1] else [] := by
    intro m
    rw [order_forked, List.filter_append, h.children]
    congr 1
    · apply List.filter_congr
      intro k hk
      unfold Node.parent?
      rw [hold k (Register.lt_size_of_isLive ((h.ordered.mem_iff k).mp hk))]
    · unfold Node.parent?
      by_cases hm : m = n
      · simp [hnew, hm]
      · simp [hnew, Ne.symm hm, hm]
  have hget : ∀ m, ((Tree.forked r n i).get m).children =
      if m = n then [r.size, r.size + 1] else (r.get m).children := by
    intro m
    rw [get_forked]
    dsimp only
    by_cases hm : m = n
    · rw [if_pos hm, if_pos ⟨hm, by omega⟩]
    · rw [if_neg hm, if_neg (fun hc => hm hc.1)]
  refine ⟨⟨?_, ?_, ?_⟩, ?_, ?_, ?_, ?_, counted_forked h.counted h.ordered n i⟩
  · exact ordered_forked h.ordered n i
  · intro m
    rw [hchildren, hget]
    by_cases hm : m = n
    · rw [if_pos hm, if_pos hm, hm, hleaf, List.nil_append]
    · rw [if_neg hm, if_neg hm, List.append_nil]
  · intro m
    rw [hget]
    split
    · exact Nat.le_refl 2
    · exact h.children_le m
  · exact (isLive_forked r n i root).mpr (Or.inr h.root_live)
  · rw [hold root hroot, h.root_stem]
  · intro m hm hmroot
    rw [size_forked] at hm
    by_cases hlt' : m < r.size
    · rw [hold m hlt']
      exact h.stem m hlt' hmroot
    · exact ⟨_, hnew m (by omega), by simp only; omega⟩
  · intro m s hm hs
    rw [isLive_forked] at hm ⊢
    rcases hm with hm | hm
    · rw [hnew m hm] at hs
      obtain rfl := Option.some.inj hs
      exact Or.inr hn
    · rw [hold m (Register.lt_size_of_isLive hm)] at hs
      exact Or.inr (h.parent_live m s hm hs)

def cut (r : Register Node) (n p : Nat) : Register Node :=
  (r.modify p (fun nd => { nd with children := nd.children.filter (· ≠ n) })).withdraw n

/-- Only the parent of a node that is cut off loses a child. -/
theorem get_cut (r : Register Node) (n p m : Nat) : (cut r n p).get m =
    { r.get m with children := if m = p ∧ m < r.size then (r.get m).children.filter (· ≠ n)
        else (r.get m).children } := by
  unfold cut
  rw [Register.get_withdraw, Register.get_modify]
  split <;> rfl

@[simp] theorem stem_cut (r : Register Node) (n p m : Nat) :
    ((cut r n p).get m).stem = (r.get m).stem := by
  rw [get_cut]

theorem isLive_cut (r : Register Node) (n p m : Nat) :
    (cut r n p).isLive m = true ↔ m ≠ n ∧ r.isLive m = true := by
  unfold cut
  rw [Register.isLive_withdraw, Register.isLive_modify]

section Cut

variable {r : Register Node} {n : Nat}

theorem ordered_cut (h : r.Ordered) (hn : r.isLive n = true) (p : Nat) : (cut r n p).Ordered :=
  (h.congr (Register.SameDisplay.modify _ _ _)).withdraw
    ((Register.isLive_modify _ _ _ _).trans hn)

theorem order_cut (h : r.Ordered) (hn : r.isLive n = true) (p : Nat) :
    (cut r n p).order = r.order.filter (· ≠ n) := by
  unfold cut
  rw [(h.congr (Register.SameDisplay.modify _ _ _)).order_withdraw
    ((Register.isLive_modify _ _ _ _).trans hn), Register.order_modify, h.erase_eq_filter]

theorem leftFrom_cut (h : r.Ordered) (hn : r.isLive n = true) (p m : Nat) :
    (cut r n p).leftFrom m = if m = n then some (r.order.idxOf n + 1) else r.leftFrom m := by
  unfold cut
  rw [(h.congr (Register.SameDisplay.modify _ _ _)).leftFrom_withdraw
    ((Register.isLive_modify _ _ _ _).trans hn), Register.order_modify, Register.leftFrom_modify]

theorem counted_cut (h : r.Counted) (ho : r.Ordered) (hn : r.isLive n = true) (p : Nat) :
    (cut r n p).Counted :=
  (h.congr (Register.SameDisplay.modify _ _ _)).withdraw
    (ho.congr (Register.SameDisplay.modify _ _ _)) ((Register.isLive_modify _ _ _ _).trans hn)

end Cut

theorem lt_size_of_mem_children {r : Register Node} {n m : Nat} (hm : m ∈ (r.get n).children) :
    n < r.size := by
  by_contra hn
  rw [Register.get_of_size_le (Nat.le_of_not_lt hn)] at hm
  exact absurd hm List.not_mem_nil

/-- A node that is cut off leaves the other children listed as they were. -/
theorem Growing.cut {r : Register Node} (h : Growing r) {n : Nat} {s : Stem}
    (hn : r.isLive n = true) (hs : (r.get n).stem = some s) : Growing (cut r n s.node) := by
  have horder := order_cut h.ordered hn s.node
  have hp : s.node < r.size := lt_size_of_mem_children (h.mem_children hn hs)
  have hparent : ∀ m, n ∈ (r.get m).children → m = s.node := by
    intro m hm
    rw [h.mem_children_iff, Node.parent?, hs] at hm
    exact (Option.some.inj hm.2).symm
  have hchildren : ∀ m, ((Tree.cut r n s.node).get m).children =
      (r.get m).children.filter (· ≠ n) := by
    intro m
    rw [get_cut]
    dsimp only
    split
    · rfl
    · rename_i hm
      symm
      rw [List.filter_eq_self]
      intro k hk
      have hkn : k ≠ n := by
        rintro rfl
        exact hm ⟨hparent m hk, hparent m hk ▸ hp⟩
      simpa using hkn
  refine ⟨?_, ?_, ?_⟩
  · exact ordered_cut h.ordered hn s.node
  · intro m
    rw [hchildren, horder, h.children, List.filter_filter, List.filter_filter]
    apply List.filter_congr
    intro k _
    unfold Node.parent?
    rw [stem_cut, Bool.and_comm]
  · intro m
    rw [hchildren]
    exact Nat.le_trans (List.length_filter_le _ _) (h.children_le m)

/-- A leaf that is cut off leaves the tree rooted. -/
theorem Rooted.cut {r : Register Node} (h : Rooted r) {n : Nat} {s : Stem}
    (hn : r.isLive n = true) (hs : (r.get n).stem = some s) (hleaf : (r.get n).children = []) :
    Rooted (cut r n s.node) := by
  have hstem := stem_cut r n s.node
  have hroot : root ≠ n := by
    intro hc
    rw [← hc, h.root_stem] at hs
    simp at hs
  refine ⟨h.toGrowing.cut hn hs, ?_, ?_, ?_, ?_, counted_cut h.counted h.ordered hn s.node⟩
  · exact (isLive_cut r n s.node root).mpr ⟨hroot, h.root_live⟩
  · rw [hstem, h.root_stem]
  · intro m hm hmroot
    rw [hstem]
    exact h.stem m (by simpa [Tree.cut] using hm) hmroot
  · intro m s' hm hs'
    rw [hstem] at hs'
    obtain ⟨-, hm⟩ := (isLive_cut _ _ _ _).mp hm
    refine (isLive_cut _ _ _ _).mpr ⟨?_, h.parent_live m s' hm hs'⟩
    intro hc
    have hmem := h.mem_children hm hs'
    rw [hc, hleaf] at hmem
    simp at hmem

def regrown (r : Register Node) (n p : Nat) : Register Node :=
  (r.reinstate n).modify p
    (fun nd => { nd with children := (r.reinstate n).place n nd.children })

theorem get_regrown (r : Register Node) (n p m : Nat) : (regrown r n p).get m =
    { r.get m with children := if m = p ∧ m < r.size then (r.reinstate n).place n (r.get m).children
        else (r.get m).children } := by
  unfold regrown
  rw [Register.get_modify, Register.get_reinstate, Register.size_reinstate]
  split <;> rfl

@[simp] theorem stem_regrown (r : Register Node) (n p m : Nat) :
    ((regrown r n p).get m).stem = (r.get m).stem := by
  rw [get_regrown]

theorem isLive_regrown (r : Register Node) (n p m : Nat) :
    (regrown r n p).isLive m = true ↔ (m = n ∧ n < r.size) ∨ r.isLive m = true := by
  unfold regrown
  rw [Register.isLive_modify, Register.isLive_reinstate]

theorem number_regrown (r : Register Node) (n p m : Nat) :
    (regrown r n p).number m = (r.reinstate n).number m :=
  Register.number_modify _ _ _ _

/-- A node that grows again returns to its old place in the display. -/
theorem order_regrown (r : Register Node) (n p : Nat) :
    (regrown r n p).order = (r.reinstate n).order := rfl

/-- A node that grows again from a parent with room for it keeps the tree rooted. -/
theorem Rooted.regrown {r : Register Node} (h : Rooted r) {n : Nat} {s : Stem} (hn : n < r.size)
    (hdead : r.isLive n ≠ true) (hs : (r.get n).stem = some s) (hp : r.isLive s.node = true)
    (htwo : (r.get s.node).children.length < 2) : Rooted (regrown r n s.node) := by
  have hstem := stem_regrown r n s.node
  refine ⟨⟨?_, ?_, ?_⟩, ?_, ?_, ?_, ?_, ?_⟩
  · exact (h.ordered.reinstate hn hdead).congr (Register.SameDisplay.modify _ _ _)
  · intro m
    simp only [Node.parent?, hstem, order_regrown]
    rw [get_regrown]
    dsimp only
    by_cases hm : m = s.node
    · subst hm
      rw [if_pos ⟨rfl, Register.lt_size_of_isLive hp⟩, h.children]
      exact h.ordered.place_reinstate hn hdead (by simp [hs, Node.parent?])
    · rw [if_neg (fun hc => hm hc.1), h.children, Register.filter_reinstate_of_false]
      · rfl
      · simpa [hs] using Ne.symm hm
  · intro m
    rw [get_regrown]
    dsimp only
    split
    · rename_i hm
      rw [Register.length_place, hm.1]
      omega
    · exact h.children_le m
  · exact (isLive_regrown r n s.node root).mpr (Or.inr h.root_live)
  · rw [hstem, h.root_stem]
  · intro m hm hmroot
    rw [hstem]
    exact h.stem m (by simpa [Tree.regrown] using hm) hmroot
  · intro m s' hm hs'
    rw [hstem] at hs'
    rw [isLive_regrown] at hm ⊢
    rcases hm with ⟨rfl, -⟩ | hm
    · obtain rfl := Option.some.inj (hs.symm.trans hs')
      exact Or.inr hp
    · exact Or.inr (h.parent_live m s' hm hs')
  · exact (h.counted.reinstate h.ordered hn hdead).congr (Register.SameDisplay.modify _ _ _)

end TruthTrees.Tree
