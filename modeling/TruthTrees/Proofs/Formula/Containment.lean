import TruthTrees.Proofs.Formula.EquivalenceSound

/-! What is found in a formula, and how it bears on the formula. The search for a formula goes into
the parts that are built by the same operator. For conjunctions, disjunctions and conditionals these
are parts of one junction. Negations of all kinds share one operator, so there the search may cross
from parts that hold together into parts of which only one holds, or back. What is found without
crossing follows from a formula that stays on its branch, and implies one that branches. -/
namespace TruthTrees.Formula

/-- The formulas that are searched in the course of the search in a formula. -/
def searched (φ : Formula) : List Formula :=
  match _h : φ.decompose with
  | .alone _ => [φ]
  | .split _ l r =>
    φ :: ((if l.operator? = φ.operator? then l.searched else []) ++
      if r.operator? = φ.operator? then r.searched else [])
termination_by φ.weight
decreasing_by
  · exact (weight_lt_of_split _h).1
  · exact (weight_lt_of_split _h).2

/-- The formulas met when a formula is taken apart as far as possible, the formula among them. -/
def pieces (φ : Formula) : List Formula :=
  φ.expand.listing.map Prod.fst

/-- The parts of one formula hold together, and those of the other are alternatives. -/
def Crosses (φ χ : Formula) : Prop :=
  χ.decompose.junction? ≠ none ∧ χ.decompose.branches ≠ φ.decompose.branches

instance (φ χ : Formula) : Decidable (φ.Crosses χ) :=
  inferInstanceAs (Decidable (_ ∧ _))

/-- Neither a formula nor a piece of it is found behind a crossing. -/
def Uncrossed (φ ψ : Formula) : Prop :=
  ∀ χ ∈ φ.searched, φ.Crosses χ → ∀ piece ∈ ψ.pieces, χ.contains piece = false

instance (φ ψ : Formula) : Decidable (φ.Uncrossed ψ) :=
  inferInstanceAs (Decidable (∀ _ ∈ _, _ → _))

section Search

variable {φ ψ χ l r : Formula} {j : Junction}

/-- The search goes on into a part only where the part has the operator of the whole. -/
theorem searched_of_split (h : φ.decompose = .split j l r) :
    φ.searched = φ :: ((if l.operator? = φ.operator? then l.searched else []) ++
      if r.operator? = φ.operator? then r.searched else []) := by
  rw [searched]
  split <;> simp_all

theorem searched_subset_left (h : φ.decompose = .split j l r) (hop : l.operator? = φ.operator?) :
    ∀ χ ∈ l.searched, χ ∈ φ.searched := by
  intro χ hχ
  rw [searched_of_split h, if_pos hop]
  exact List.mem_cons_of_mem _ (List.mem_append_left _ hχ)

theorem searched_subset_right (h : φ.decompose = .split j l r) (hop : r.operator? = φ.operator?) :
    ∀ χ ∈ r.searched, χ ∈ φ.searched := by
  intro χ hχ
  rw [searched_of_split h, if_pos hop]
  exact List.mem_cons_of_mem _ (List.mem_append_right _ hχ)

theorem mem_searched_self (φ : Formula) : φ ∈ φ.searched := by
  rw [searched]
  split <;> simp

/-- Only formulas of the same operator are searched. -/
theorem operator?_of_mem_searched (hχ : χ ∈ φ.searched) : χ.operator? = φ.operator? := by
  fun_induction searched φ with
  | case1 φ a h => rw [List.mem_singleton.mp hχ]
  | case2 φ j l r h ihl ihr =>
    simp only [List.mem_cons, List.mem_append, List.mem_ite_nil_right] at hχ
    rcases hχ with rfl | ⟨hop, hχ⟩ | ⟨hop, hχ⟩
    · rfl
    · exact (ihl hχ).trans hop
    · exact (ihr hχ).trans hop

theorem mem_pieces_self (ψ : Formula) : ψ ∈ ψ.pieces := by
  unfold pieces
  rw [expand]
  split
  · split <;> simp [Expansion.listing]
  · simp [Expansion.listing]

/-- The pieces of a formula are itself and the pieces of its parts. -/
theorem pieces_of_split (h : ψ.decompose = .split j l r) :
    ψ.pieces = ψ :: (l.pieces ++ r.pieces) := by
  unfold pieces
  rw [expand]
  split <;> simp_all [Expansion.listing]

/-- The search in a part that does not cross is part of the search in the formula. -/
theorem Uncrossed.part (h : φ.Uncrossed ψ) (hpart : ∀ χ ∈ l.searched, χ ∈ φ.searched)
    (hl : l.decompose.branches = φ.decompose.branches) : l.Uncrossed ψ := by
  intro χ hχ hcross
  exact h χ (hpart χ hχ) ⟨hcross.1, hl ▸ hcross.2⟩

theorem Uncrossed.piece (h : φ.Uncrossed ψ) (hpiece : ∀ c ∈ l.pieces, c ∈ ψ.pieces) :
    φ.Uncrossed l :=
  fun χ hχ hcross c hc => h χ hχ hcross c (hpiece c hc)

/-- Apart from negations, the operator of a formula says whether it branches. -/
theorem branches_of_operator? (hop : χ.operator? = φ.operator?) (hnot : φ.operator? ≠ some .not) :
    χ.decompose.branches = φ.decompose.branches := by
  cases φ <;> cases χ <;> simp_all [operator?, decompose, Decomposition.branches]

/-- Nothing is crossed below a formula that is not a negation. -/
theorem uncrossed_of_operator? (hnot : φ.operator? ≠ some .not) (ψ : Formula) : φ.Uncrossed ψ := by
  intro χ hχ hcross
  exact absurd (branches_of_operator? (operator?_of_mem_searched hχ) hnot) hcross.2

end Search

/-- How a formula stands to another one that it is found in: it implies a formula that branches, and
is implied by a formula that does not. -/
def Bears : Bool → Formula → Formula → Prop
  | true, ψ, φ => ψ.Entails φ
  | false, ψ, φ => φ.Entails ψ

section Bears

variable {φ ψ χ l r : Formula} {j : Junction} {b : Bool}

theorem bears_of_sameTruth (h : ψ.SameTruth φ) : Bears b ψ φ := by
  cases b with
  | true => exact h.entails
  | false => exact h.symm.entails

theorem Bears.trans (h : Bears b χ ψ) (h' : Bears b ψ φ) : Bears b χ φ := by
  cases b with
  | true => exact Entails.trans h h'
  | false => exact Entails.trans h' h

/-- The parts of a branching formula entail it; those of any other follow from it. -/
theorem bears_part (h : φ.decompose = .split j l r) :
    Bears φ.decompose.branches l φ ∧ Bears φ.decompose.branches r φ := by
  have hv := eval_of_split h
  rw [h]
  cases j <;>
    simp only [Decomposition.branches, Bears, Entails, hv, Junction.join, Bool.and_eq_true,
      Bool.or_eq_true]
  case and => exact ⟨fun _ => And.left, fun _ => And.right⟩
  case or | iff => exact ⟨fun _ => Or.inl, fun _ => Or.inr⟩

/-- The parts of a formula decide about the formula, however they stand together. -/
theorem bears_of_parts (h : ψ.decompose = .split j l r) (hl : Bears b l φ) (hr : Bears b r φ) :
    Bears b ψ φ := by
  have hv := eval_of_split h
  cases b with
  | true =>
    intro v htrue
    have hlr : l.eval v = true ∨ r.eval v = true := by
      rw [hv] at htrue
      cases j <;> simp only [Junction.join, Bool.and_eq_true, Bool.or_eq_true] at htrue
      case and => exact Or.inl htrue.1
      case or | iff => exact htrue
    exact hlr.elim (hl v) (hr v)
  | false =>
    intro v htrue
    rw [hv, hl v htrue, hr v htrue]
    cases j <;> rfl

end Bears

/-- What is found in a formula that has a single part says the same. -/
theorem sameTruth_of_contains_of_alone {φ ψ a : Formula} (ha : φ.decompose = .alone a)
    (hc : φ.contains ψ = true) : ψ.SameTruth φ := by
  rw [contains, Bool.or_eq_true, containsBelow, ha] at hc
  intro v
  rcases hc with h | h
  · exact comparisons_sound.1 ψ φ h v
  · rw [eval_of_alone ha]
    exact comparisons_sound.1 ψ a h v

/-- The ways in which a formula is found in another one that splits and is no biconditional. -/
theorem contains_cases {φ ψ l r : Formula} {j : Junction} (h : φ.decompose = .split j l r)
    (hiff : φ.operator? ≠ some .iff) (hc : φ.contains ψ = true) :
    ψ.SameTruth φ ∨ ψ.SameTruth l ∨ ψ.SameTruth r ∨
      (l.operator? = φ.operator? ∧ l.contains ψ = true) ∨
      (r.operator? = φ.operator? ∧ r.contains ψ = true) ∨
      ∃ k l' r', ψ.decompose = .split k l' r' ∧ φ.contains l' = true ∧ φ.contains r' = true := by
  have hsound := comparisons_sound.1 ψ
  rw [contains, Bool.or_eq_true, containsBelow, h] at hc
  simp only [Bool.or_eq_true, Bool.and_eq_true, decide_eq_true_eq] at hc
  rcases hc with hc | ((((hc | hc) | hc) | hc) | hc)
  · exact Or.inl (hsound φ hc)
  · exact Or.inr (Or.inl (hsound l hc))
  · exact Or.inr (Or.inr (Or.inl (hsound r hc)))
  · exact Or.inr (Or.inr (Or.inr (Or.inl hc)))
  · exact Or.inr (Or.inr (Or.inr (Or.inr (Or.inl hc))))
  · refine Or.inr (Or.inr (Or.inr (Or.inr (Or.inr ?_))))
    rw [if_neg hiff] at hc
    split at hc
    · split at hc
      · rename_i hψ
        exact ⟨_, _, _, hψ, Bool.and_eq_true_iff.mp hc⟩
      · simp at hc
    · split at hc
      · split at hc
        · rename_i hψ
          exact ⟨_, _, _, hψ, Bool.and_eq_true_iff.mp hc⟩
        · simp at hc
      · simp at hc

/-- One step of the search: what is found in a part bears on the formula, unless the part crosses. -/
theorem bears_of_contains_part {φ ψ l : Formula} (hl : Bears φ.decompose.branches l φ)
    (hc : l.contains ψ = true) (huncrossed : φ.Uncrossed ψ)
    (hpart : ∀ χ ∈ l.searched, χ ∈ φ.searched)
    (ih : l.Uncrossed ψ → Bears l.decompose.branches ψ l) : Bears φ.decompose.branches ψ φ := by
  by_cases hside : l.decompose.branches = φ.decompose.branches
  · exact (hside ▸ ih (huncrossed.part hpart hside)).trans hl
  · cases hd : l.decompose with
    | alone a => exact (bears_of_sameTruth (sameTruth_of_contains_of_alone hd hc)).trans hl
    | split k l' r' =>
      have hcross : φ.Crosses l := ⟨by simp [hd, Decomposition.junction?], hside⟩
      have hmissed := huncrossed l (hpart l (mem_searched_self l)) hcross ψ (mem_pieces_self ψ)
      simp [hmissed] at hc

/-- What is found without a crossing bears on the formula it is found in. -/
theorem bears_of_contains {φ ψ : Formula} (hiff : φ.operator? ≠ some .iff)
    (hc : φ.contains ψ = true) (huncrossed : φ.Uncrossed ψ) : Bears φ.decompose.branches ψ φ := by
  induction hn : φ.weight + ψ.weight using Nat.strong_induction_on generalizing φ ψ with
  | _ n ih =>
    cases hd : φ.decompose with
    | alone a => exact bears_of_sameTruth (sameTruth_of_contains_of_alone hd hc)
    | split j l r =>
      have hw := weight_lt_of_split hd
      have hparts := bears_part hd
      rw [← hd]
      rcases contains_cases hd hiff hc with h | h | h | ⟨hop, h⟩ | ⟨hop, h⟩ | ⟨k, l', r', hψ, h, h'⟩
      · exact bears_of_sameTruth h
      · exact (bears_of_sameTruth h).trans hparts.1
      · exact (bears_of_sameTruth h).trans hparts.2
      · refine bears_of_contains_part hparts.1 h huncrossed (searched_subset_left hd hop) ?_
        exact fun hl => ih _ (by omega) (hop ▸ hiff) h hl rfl
      · refine bears_of_contains_part hparts.2 h huncrossed (searched_subset_right hd hop) ?_
        exact fun hr => ih _ (by omega) (hop ▸ hiff) h hr rfl
      · have hw' := weight_lt_of_split hψ
        have hpieces : ∀ c, c ∈ l'.pieces ∨ c ∈ r'.pieces → c ∈ ψ.pieces := by
          intro c hc
          rw [pieces_of_split hψ]
          exact List.mem_cons_of_mem _ (List.mem_append.mpr hc)
        have hl' := huncrossed.piece (fun c hc => hpieces c (Or.inl hc))
        have hr' := huncrossed.piece (fun c hc => hpieces c (Or.inr hc))
        exact bears_of_parts hψ (ih _ (by omega) hiff h hl' rfl) (ih _ (by omega) hiff h' hr' rfl)

theorem branches_of_junction? {φ : Formula} {j : Junction} (h : φ.decompose.junction? = some j) :
    φ.decompose.branches = (j != .and) := by
  cases hd : φ.decompose with
  | alone a => simp [hd, Decomposition.junction?] at h
  | split k l r =>
    obtain rfl : k = j := by simpa [hd, Decomposition.junction?] using h
    cases k <;> rfl

/-- A formula that is found in another one follows from it, if the other one does not branch, and
implies it, if the other one is a disjunction of its parts. The exception are negations in which it
is found behind a crossing. -/
theorem contains_sound_of_uncrossed (φ ψ : Formula) (h : φ.contains ψ = true) :
    (φ.decompose.junction? = none → φ.Entails ψ) ∧
    (φ.Uncrossed ψ →
      (φ.decompose.junction? = some .and → φ.Entails ψ) ∧
      (φ.decompose.junction? = some .or → ψ.Entails φ)) ∧
    (φ.operator? ≠ some .not → φ.Uncrossed ψ) := by
  refine ⟨?_, ?_, fun hnot => uncrossed_of_operator? hnot ψ⟩
  · intro hj
    cases hd : φ.decompose with
    | alone a => exact (sameTruth_of_contains_of_alone hd h).symm.entails
    | split j l r => simp [hd, Decomposition.junction?] at hj
  · intro huncrossed
    have hbears {j : Junction} (hj : φ.decompose.junction? = some j) (hiff : j ≠ .iff) :
        Bears (j != .and) ψ φ := by
      have hop : φ.operator? ≠ some .iff := by
        cases φ <;> simp_all [operator?, decompose, Decomposition.junction?]
      exact branches_of_junction? hj ▸ bears_of_contains hop h huncrossed
    exact ⟨fun hj => hbears hj (by decide), fun hj => hbears hj (by decide)⟩

/-- A disjunct that does not cross beside one that does, and an alternative in an alternative. -/
theorem contains_sound_of_uncrossed_negations :
    let φ := not (or (and (literal "c") (literal "d")) (literal "b"))
    let χ := not (and (and (literal "c") (literal "d")) (literal "b"))
    (φ.contains (not (literal "b")) = true ∧ φ.Uncrossed (not (literal "b")) ∧
      φ.Entails (not (literal "b"))) ∧
    χ.contains (not (literal "d")) = true ∧ χ.Uncrossed (not (literal "d")) ∧
      (not (literal "d")).Entails χ := by
  intro φ χ
  have hφ : φ.contains (not (literal "b")) = true := by decide +kernel
  have hφu : φ.Uncrossed (not (literal "b")) := by decide +kernel
  have hχ : χ.contains (not (literal "d")) = true := by decide +kernel
  have hχu : χ.Uncrossed (not (literal "d")) := by decide +kernel
  exact ⟨⟨hφ, hφu, ((contains_sound_of_uncrossed _ _ hφ).2.1 hφu).1 rfl⟩,
    hχ, hχu, ((contains_sound_of_uncrossed _ _ hχ).2.1 hχu).2 rfl⟩

/-- Behind a crossing a formula is found that does not follow from one whose parts hold together, and
a formula that does not imply one whose parts are alternatives. -/
theorem contains_unsound_across :
    let φ := not (or (and (literal "c") (literal "d")) (literal "b"))
    let χ := not (and (or (literal "c") (literal "d")) (literal "b"))
    (φ.contains (not (literal "c")) = true ∧ φ.decompose.junction? = some .and ∧
      ¬ φ.Entails (not (literal "c"))) ∧
    χ.contains (not (literal "c")) = true ∧ χ.decompose.junction? = some .or ∧
      ¬ (not (literal "c")).Entails χ := by
  intro φ χ
  refine ⟨⟨by decide +kernel, rfl, fun h => ?_⟩, by decide +kernel, rfl, fun h => ?_⟩
  · have hc := h (fun name => name = "c") (by decide)
    simp [eval] at hc
  · have hχ := h (fun name => name ≠ "c") (by decide)
    simp [χ, eval] at hχ

end TruthTrees.Formula
