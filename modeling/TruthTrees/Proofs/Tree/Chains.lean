import Mathlib.Data.Finset.Card
import Mathlib.Logic.Relation
import TruthTrees.Proofs.Tree.Access

/-! Chains of lines that rest on each other. Chains do not go in a circle, so none is longer than
the display; the bounded searches for dependent lines and for a premise therefore find all there is
to find. -/
namespace TruthTrees.Tree

/-- Whether the chain that starts at a line ends in a premise, when it is told what each line rests
on. -/
inductive Grounded (f : Nat → Justification) : Nat → Prop
  | premise {i : Nat} (h : f i = .premise) : Grounded f i
  | line {i p : Nat} (h : f i = .line p) (hp : Grounded f p) : Grounded f i

def RestsOn (f : Nat → Justification) : Nat → Nat → Prop :=
  Relation.TransGen (fun p c => f c = .line p)

namespace Grounded

variable {f g : Nat → Justification} {i j p : Nat}

/-- A line is grounded exactly when the line it rests on is. -/
theorem iff_of_line (h : f i = .line p) : Grounded f i ↔ Grounded f p := by
  constructor
  · intro hi
    cases hi with
    | premise h' => simp [h] at h'
    | line h' hp =>
      rw [h] at h'
      cases h'
      exact hp
  · exact Grounded.line h

theorem not_of_missing (h : f i = .missing) : ¬ Grounded f i := by
  intro hi
  cases hi with
  | premise h' => simp [h] at h'
  | line h' hp => simp [h] at h'

/-- All lines of one chain are grounded, or none is. -/
theorem iff_of_restsOn (h : RestsOn f i j) : Grounded f j ↔ Grounded f i := by
  induction h with
  | single h => exact iff_of_line h
  | tail _ h ih => exact (iff_of_line h).trans ih

def Meets (f : Nat → Justification) (M : Nat → Prop) (j : Nat) : Prop :=
  ∃ m, M m ∧ Relation.ReflTransGen (fun p c => f c = .line p) m j

theorem not_of_not_meets {M : Nat → Prop} (h : ¬ Meets f M j) : ¬ M j := fun hj =>
  h ⟨j, hj, .refl⟩

theorem not_meets_of_line {M : Nat → Prop} (h : ¬ Meets f M j) (hp : f j = .line p) :
    ¬ Meets f M p := fun ⟨m, hm, hmp⟩ => h ⟨m, hm, hmp.tail hp⟩

/-- What certain lines rest on does not matter for a chain that does not meet them. -/
theorem congr_of_not_meets {M : Nat → Prop} (hfg : ∀ k, ¬ M k → g k = f k)
    (hj : ¬ Meets f M j) : Grounded g j ↔ Grounded f j := by
  constructor
  · intro h
    induction h with
    | premise h =>
      rw [hfg _ (not_of_not_meets hj)] at h
      exact .premise h
    | line h _ ih =>
      rw [hfg _ (not_of_not_meets hj)] at h
      exact .line h (ih (not_meets_of_line hj h))
  · intro h
    induction h with
    | premise h =>
      rw [← hfg _ (not_of_not_meets hj)] at h
      exact .premise h
    | line h _ ih =>
      have hp := not_meets_of_line hj h
      rw [← hfg _ (not_of_not_meets hj)] at h
      exact .line h (ih hp)

/-- A chain that meets a line without justification does not end in a premise. -/
theorem not_of_meets {M : Nat → Prop} (hfg : ∀ k, ¬ M k → g k = f k)
    (hM : ∀ k, M k → g k = .missing) (hj : Meets f M j) : ¬ Grounded g j := by
  obtain ⟨m, hm, hmj⟩ := hj
  induction hmj with
  | refl => exact not_of_missing (hM m hm)
  | @tail b k _ hk ih =>
    by_cases hMk : M k
    · exact not_of_missing (hM k hMk)
    · rw [iff_of_line ((hfg k hMk).trans hk)]
      exact ih

/-- When some lines lose their justification, the chains lose their premise that meet them. -/
theorem iff_of_missing {M : Nat → Prop} (hfg : ∀ k, ¬ M k → g k = f k)
    (hM : ∀ k, M k → g k = .missing) : Grounded g j ↔ Grounded f j ∧ ¬ Meets f M j := by
  by_cases hj : Meets f M j
  · simp [hj, not_of_meets hfg hM hj]
  · simp [hj, congr_of_not_meets hfg hj]

end Grounded

def support (t : Tree) (i : Nat) : Justification := (t.line i).justification

def Before (t : Tree) (i j : Nat) : Prop := [i, j].Sublist t.lines.order

section Before

variable {t : Tree} {i j : Nat}

theorem Before.left_live (h : t.Before i j) (ho : t.lines.Ordered) : t.lines.isLive i = true :=
  (ho.mem_iff i).mp (h.subset (by simp))

theorem Before.right_live (h : t.Before i j) (ho : t.lines.Ordered) : t.lines.isLive j = true :=
  (ho.mem_iff j).mp (h.subset (by simp))

/-- What comes before another has the earlier place in the display. -/
theorem Before.idxOf_lt (h : t.Before i j) (ho : t.lines.Ordered) :
    t.lines.order.idxOf i < t.lines.order.idxOf j :=
  (List.idxOf_lt_idxOf_iff ho.nodup (h.subset (by simp)) (h.subset (by simp))).mpr h

theorem Before.ne (h : t.Before i j) (ho : t.lines.Ordered) : i ≠ j := by
  rintro rfl
  exact Nat.lt_irrefl _ (h.idxOf_lt ho)

end Before

/-- Along links that do not go in a circle, the number of lines above one grows. -/
theorem exists_rank {l : List Nat} {E : Nat → Nat → Prop}
    (h : ∀ i ∈ l, ¬ Relation.TransGen E i i) :
    ∃ rank : Nat → Nat, (∀ p c, p ∈ l → E p c → rank p < rank c) ∧ ∀ i ∈ l, rank i < l.length := by
  classical
  set above : Nat → Finset Nat := fun i => l.toFinset.filter (fun p => Relation.TransGen E p i)
    with habove
  have hmem : ∀ p i, p ∈ above i ↔ p ∈ l ∧ Relation.TransGen E p i := by simp [habove]
  refine ⟨fun i => (above i).card, ?_, ?_⟩
  · intro p c hp hpc
    apply Finset.card_lt_card
    have hsub : above p ⊆ above c := by
      intro q hq
      rw [hmem] at hq ⊢
      exact ⟨hq.1, hq.2.tail hpc⟩
    rw [Finset.ssubset_iff_of_subset hsub]
    exact ⟨p, (hmem p c).mpr ⟨hp, .single hpc⟩, fun hc => h p hp ((hmem p p).mp hc).2⟩
  · intro i hi
    calc (above i).card < l.toFinset.card :=
          Finset.card_lt_card (Finset.filter_ssubset.mpr ⟨i, List.mem_toFinset.mpr hi, h i hi⟩)
      _ ≤ l.length := l.toFinset_card_le

def ListedBelow (t : Tree) : Nat → Nat → Prop :=
  Relation.TransGen (fun p c => c ∈ (t.line p).children)

theorem listedBelow_of_mem {t : Tree} {k i j : Nat} (h : j ∈ t.dependentsWithin k i) :
    t.ListedBelow i j := by
  induction k generalizing i with
  | zero => simp [dependentsWithin] at h
  | succ k ih =>
    rw [dependentsWithin, List.mem_flatMap] at h
    obtain ⟨c, hc, hj⟩ := h
    rcases List.mem_cons.mp hj with rfl | hj
    · exact .single hc
    · exact .head hc (ih hj)

/-- The search for dependents only looks at a line and at what is listed below it. -/
theorem dependents_congr {t u : Tree} {i : Nat} (hsize : u.lines.size = t.lines.size)
    (hchildren : ∀ k, k = i ∨ t.ListedBelow i k → (u.line k).children = (t.line k).children) :
    u.dependents i = t.dependents i := by
  have hwithin : ∀ m k, k = i ∨ t.ListedBelow i k →
      u.dependentsWithin m k = t.dependentsWithin m k := by
    intro m
    induction m with
    | zero => exact fun _ _ => rfl
    | succ m ih =>
      intro k hk
      rw [dependentsWithin, dependentsWithin, hchildren k hk, List.flatMap_def, List.flatMap_def]
      congr 1
      apply List.map_congr_left
      intro c hc
      have hbelow : t.ListedBelow i c := by
        rcases hk with rfl | hk
        · exact .single hc
        · exact hk.tail hc
      rw [ih c (Or.inr hbelow)]
  unfold dependents
  rw [hsize, hwithin _ i (Or.inl rfl)]

/-- The display lists the live lines, the lines below a live one are live, and no live line is
listed below itself. -/
structure Ascending (t : Tree) : Prop where
  ordered : t.lines.Ordered
  child_live : ∀ p c, t.lines.isLive p = true → c ∈ (t.line p).children →
    t.lines.isLive c = true
  irrefl : ∀ i, t.lines.isLive i = true → ¬ t.ListedBelow i i

namespace Ascending

variable {t : Tree} {i j : Nat}

/-- What is listed below a line in the tree is in the tree. -/
theorem isLive_of_listedBelow (h : t.Ascending) (hi : t.lines.isLive i = true)
    (hij : t.ListedBelow i j) : t.lines.isLive j = true := by
  induction hij with
  | single hj => exact h.child_live i _ hi hj
  | tail _ hj ih => exact h.child_live _ _ ih hj

/-- A rank that grows from a line to its children, and stays below the number of lines. -/
theorem exists_rank (h : t.Ascending) : ∃ rank : Nat → Nat,
    (∀ p c, t.lines.isLive p = true → c ∈ (t.line p).children → rank p < rank c) ∧
      ∀ i, t.lines.isLive i = true → rank i < t.lines.size := by
  obtain ⟨rank, hchild, hbound⟩ := Tree.exists_rank (l := t.lines.order)
    (fun i hi => h.irrefl i ((h.ordered.mem_iff i).mp hi))
  refine ⟨rank, fun p c hp => hchild p c ((h.ordered.mem_iff p).mpr hp), fun i hi => ?_⟩
  exact Nat.lt_of_lt_of_le (hbound i ((h.ordered.mem_iff i).mpr hi)) h.ordered.length_le_size

theorem rank_lt_of_listedBelow (h : t.Ascending) {rank : Nat → Nat}
    (hrank : ∀ p c, t.lines.isLive p = true → c ∈ (t.line p).children → rank p < rank c)
    (hi : t.lines.isLive i = true) (hij : t.ListedBelow i j) : rank i < rank j := by
  induction hij with
  | single hc => exact hrank i _ hi hc
  | tail hib hc ih => exact Nat.lt_trans ih (hrank _ _ (h.isLive_of_listedBelow hi hib) hc)

/-- A bound on the rank is enough to find all that is listed below a line. -/
theorem mem_dependentsWithin (h : t.Ascending) {rank : Nat → Nat}
    (hrank : ∀ p c, t.lines.isLive p = true → c ∈ (t.line p).children → rank p < rank c) {k : Nat}
    (hi : t.lines.isLive i = true) (hij : t.ListedBelow i j) (hk : rank j ≤ rank i + k) :
    j ∈ t.dependentsWithin k i := by
  -- Every link uses up at least one rank, so the bound on ranks carries over.
  induction hij using Relation.TransGen.head_induction_on generalizing k with
  | @single a hc =>
    have hac := hrank a j hi hc
    obtain ⟨k, rfl⟩ : ∃ m, k = m + 1 := ⟨k - 1, by omega⟩
    rw [dependentsWithin, List.mem_flatMap]
    exact ⟨j, hc, by simp⟩
  | @head a c hc hcj ih =>
    have hlive := h.child_live a c hi hc
    have hac := hrank a c hi hc
    have hcj' := h.rank_lt_of_listedBelow hrank hlive hcj
    obtain ⟨k, rfl⟩ : ∃ m, k = m + 1 := ⟨k - 1, by omega⟩
    rw [dependentsWithin, List.mem_flatMap]
    exact ⟨c, hc, List.mem_cons_of_mem _ (ih hlive (by omega))⟩

/-- The search for dependents finds all lines that are listed below a line. -/
theorem mem_dependents_iff (h : t.Ascending) (hi : t.lines.isLive i = true) :
    j ∈ t.dependents i ↔ t.ListedBelow i j := by
  constructor
  · exact listedBelow_of_mem
  · intro hij
    obtain ⟨rank, hrank, hbound⟩ := h.exists_rank
    apply h.mem_dependentsWithin hrank hi hij
    have hlt := hbound j (h.isLive_of_listedBelow hi hij)
    omega

theorem isLive_of_mem_dependents (h : t.Ascending) (hi : t.lines.isLive i = true)
    (hj : j ∈ t.dependents i) : t.lines.isLive j = true :=
  h.isLive_of_listedBelow hi (listedBelow_of_mem hj)

/-- The search for dependents has fuel to spare: below a line come its children and what is below
them. -/
theorem dependents_eq (h : t.Ascending) (hi : t.lines.isLive i = true) :
    t.dependents i = (t.line i).children.flatMap (fun c => c :: t.dependents c) := by
  obtain ⟨rank, hrank, hbound⟩ := h.exists_rank
  -- The ranks end before the fuel does, as every link goes further down.
  have hspare : ∀ m k, t.lines.isLive k = true → t.lines.size ≤ rank k + m →
      t.dependentsWithin (m + 1) k = t.dependentsWithin m k := by
    intro m
    induction m with
    | zero =>
      intro k hk hlen
      have hlt := hbound k hk
      omega
    | succ m ih =>
      intro k hk hlen
      rw [dependentsWithin, dependentsWithin, List.flatMap_def, List.flatMap_def]
      congr 1
      apply List.map_congr_left
      intro c hc
      have hlt := hrank k c hk hc
      rw [ih c (h.child_live k c hk hc) (by omega)]
  calc t.dependents i = t.dependentsWithin (t.lines.size + 1) i :=
        (hspare _ i hi (by omega)).symm
    _ = (t.line i).children.flatMap (fun c => c :: t.dependents c) := rfl

/-- A tree in which lines have lost children, but none was added. -/
theorem of_subset (h : t.Ascending) {u : Tree} (hr : Relinked t u)
    (hchildren : ∀ k, ∀ c ∈ (u.line k).children, c ∈ (t.line k).children) : u.Ascending := by
  refine ⟨h.ordered.congr hr.display, ?_, ?_⟩
  · intro p c hp hc
    rw [hr.isLive] at hp ⊢
    exact h.child_live p c hp (hchildren p c hc)
  · intro i hi hcycle
    rw [hr.isLive] at hi
    exact h.irrefl i hi (Relation.TransGen.mono hchildren i i hcycle)

end Ascending

structure Descending (t : Tree) : Prop where
  ordered : t.lines.Ordered
  parent : ∀ c p, t.lines.isLive c = true → t.support c = .line p → t.Before p c

structure Acyclic (t : Tree) : Prop where
  ordered : t.lines.Ordered
  parent_live : ∀ c p, t.lines.isLive c = true → t.support c = .line p →
    t.lines.isLive p = true
  irrefl : ∀ i, t.lines.isLive i = true → ¬ RestsOn t.support i i

/-- A line stands behind all lines that it rests on. -/
theorem Descending.idxOf_lt_of_restsOn {t : Tree} (h : t.Descending) {i j : Nat}
    (hj : t.lines.isLive j = true) (hij : RestsOn t.support i j) :
    t.lines.order.idxOf i < t.lines.order.idxOf j := by
  induction hij with
  | single hs => exact (h.parent _ _ hj hs).idxOf_lt h.ordered
  | tail _ hs ih =>
    have hbefore := h.parent _ _ hj hs
    exact Nat.lt_trans (ih (hbefore.left_live h.ordered)) (hbefore.idxOf_lt h.ordered)

/-- Where every line rests on an earlier one, no line rests on itself. -/
theorem Descending.acyclic {t : Tree} (h : t.Descending) : t.Acyclic where
  ordered := h.ordered
  parent_live c p hc hp := (h.parent c p hc hp).left_live h.ordered
  irrefl _ hi hcycle := Nat.lt_irrefl _ (h.idxOf_lt_of_restsOn hi hcycle)

/-- The walk up says that a line is grounded only where it is. -/
theorem restsOnPremiseWithin_sound {t : Tree} {k i : Nat}
    (h : t.restsOnPremiseWithin k i = true) : Grounded t.support i := by
  induction k generalizing i with
  | zero => simp [restsOnPremiseWithin] at h
  | succ k ih =>
    rw [restsOnPremiseWithin] at h
    split at h
    · rename_i hp
      exact .premise hp
    · rename_i p hp
      exact .line hp (ih h)
    · simp at h

namespace Acyclic

variable {t : Tree} {i j : Nat}

/-- No live line rests on a line that is not live. -/
theorem isLive_of_restsOn (h : t.Acyclic) (hj : t.lines.isLive j = true)
    (hij : RestsOn t.support i j) : t.lines.isLive i = true := by
  induction hij with
  | single hs => exact h.parent_live _ _ hj hs
  | tail _ hs ih => exact ih (h.parent_live _ _ hj hs)

/-- The search for a premise finds it if there is one. -/
theorem restsOnPremise_iff (h : t.Acyclic) (hi : t.lines.isLive i = true) :
    t.restsOnPremise i = true ↔ Grounded t.support i := by
  obtain ⟨rank, hrank, hbound⟩ := exists_rank (l := t.lines.order)
    (fun i hi => h.irrefl i ((h.ordered.mem_iff i).mp hi))
  -- A line has a greater rank than its parent, so its rank is fuel enough.
  have hcomplete : ∀ k j, t.lines.isLive j = true → rank j < k →
      Grounded t.support j → t.restsOnPremiseWithin k j = true := by
    intro k
    induction k with
    | zero => exact fun j _ hj => absurd hj (Nat.not_lt_zero _)
    | succ k ih =>
      intro j hj hk hg
      rw [restsOnPremiseWithin]
      cases hg with
      | premise hp => rw [show (t.line j).justification = _ from hp]
      | @line _ p hp hg =>
        have hplive := h.parent_live j p hj hp
        have hlt := hrank p j ((h.ordered.mem_iff p).mpr hplive) hp
        rw [show (t.line j).justification = _ from hp]
        exact ih p hplive (by omega) hg
  constructor
  · exact restsOnPremiseWithin_sound
  · apply hcomplete _ i hi
    have hlt := hbound i ((h.ordered.mem_iff i).mpr hi)
    have hle := h.ordered.length_le_size
    omega

end Acyclic

end TruthTrees.Tree
