import TruthTrees.Proofs.Checked.Links

/-! Comparing formulas with a limit on the calls made one inside the other. The three comparisons
call each other, in part on the very formulas they are given, and taking a biconditional apart gives
larger formulas. Still every call lowers a rank, which is four times the weight of both formulas and
a little more that depends on the comparison. So no chain of calls is longer than the rank allows,
and with that many calls, or more, the comparisons come to the answers they give without a limit. -/
namespace TruthTrees.Checked

inductive Comparison where
  | equivalent (φ ψ : Formula)
  | contains (φ ψ : Formula)
  | containsBelow (φ ψ : Formula)
deriving DecidableEq

namespace Comparison

def answer : Comparison → Bool
  | equivalent φ ψ => φ.equivalent ψ
  | contains φ ψ => φ.contains ψ
  | containsBelow φ ψ => φ.containsBelow ψ

/-- One call, with the calls that it makes itself handed to another function. They are made one
after the other, as long as the answer is open, and the whole call breaks off where one does. -/
def step (ask : Comparison → Option Bool) : Comparison → Option Bool
  | equivalent φ ψ =>
    if φ = ψ then some true
    else match φ.align ψ with
      | .single a b => some (a = b)
      | .pairs l₁ r₁ l₂ r₂ =>
        (ask (equivalent l₁ l₂) <&&> ask (equivalent r₁ r₂)) <||>
        (ask (equivalent l₁ r₂) <&&> ask (equivalent r₁ l₂)) <||>
        if φ.sameChain ψ = true then ask (containsBelow ψ φ) <&&> ask (containsBelow φ ψ)
        else some false
      | .apart => some false
  | contains φ ψ => ask (equivalent ψ φ) <||> ask (containsBelow φ ψ)
  | containsBelow φ ψ =>
    match φ.decompose with
    | .alone a => ask (equivalent ψ a)
    | .split _ l r =>
      ask (equivalent ψ l) <||>
      ask (equivalent ψ r) <||>
      (some (l.operator? = φ.operator?) <&&> ask (contains l ψ)) <||>
      (some (r.operator? = φ.operator?) <&&> ask (contains r ψ)) <||>
      if ψ.operator? = φ.operator? then
        match ψ.decompose with
        | .split _ l' r' => ask (contains φ l') <&&> ask (contains φ r')
        | .alone _ => some false
      else if φ.operator? = some .iff then
        match φ.conditionals? with
        | some (a, b) => ask (contains a ψ) <||> ask (contains b ψ)
        | none => some false
      else if ψ.operator? = some .iff then
        match ψ.decompose with
        | .split _ l' r' => ask (contains φ l') <&&> ask (contains φ r')
        | .alone _ => some false
      else some false

def without (r : Comparison) : Comparison → Option Bool :=
  fun s => if s = r then none else some s.answer

/-- A call makes another one: it breaks off if nothing but the other call does. -/
def Asks (q r : Comparison) : Prop :=
  step (without r) q = none

instance (q r : Comparison) : Decidable (Asks q r) :=
  inferInstanceAs (Decidable (_ = none))

/-- What every call makes smaller. Looking below a formula that does not split compares that formula
itself, and below one that splits only its parts. -/
def rank : Comparison → Nat
  | equivalent φ ψ => 4 * (φ.weight + ψ.weight) + 1
  | contains φ ψ => 4 * (φ.weight + ψ.weight) + 3
  | containsBelow φ ψ =>
    4 * (φ.weight + ψ.weight) + if φ.decompose.junction?.isSome then 0 else 2

/-- Some calls break off, and the others get their answers. -/
def Truthful (ask : Comparison → Option Bool) : Prop :=
  ∀ r, ask r = none ∨ ask r = some r.answer

theorem truthful_without (r : Comparison) : Truthful (without r) := by
  intro s
  unfold without
  split
  · exact Or.inl rfl
  · exact Or.inr rfl

/-- A computation makes calls of rank below `n` only, breaks off exactly if one of the calls that it
makes does, and comes to `b` otherwise. -/
structure Evaluates (n : Nat) (run : (Comparison → Option Bool) → Option Bool) (b : Bool) :
    Prop where
  value : ∀ ask, Truthful ask → run ask = none ∨ run ask = some b
  breaks : ∀ ask, Truthful ask →
    (run ask = none ↔ ∃ r, run (without r) = none ∧ ask r = none)
  lower : ∀ r, run (without r) = none → r.rank < n

namespace Evaluates

variable {n : Nat} {a b : Bool} {e f g : (Comparison → Option Bool) → Option Bool}

theorem const (n : Nat) (b : Bool) : Evaluates n (fun _ => some b) b where
  value := fun _ _ => Or.inr rfl
  breaks := fun _ _ => by simp
  lower := fun _ h => by simp at h

theorem call {r : Comparison} (hr : r.rank < n) : Evaluates n (fun ask => ask r) r.answer := by
  have hself : ∀ s, without s r = none ↔ r = s := by
    intro s
    simp [without]
  refine ⟨fun ask h => h r, fun ask _ => ?_, fun s hs => ?_⟩
  · constructor
    · exact fun h => ⟨r, (hself r).mpr rfl, h⟩
    · rintro ⟨s, hs, h⟩
      rwa [(hself s).mp hs]
  · rwa [← (hself s).mp hs]

/-- One computation after another, where the first one decides that the second one is needed. -/
theorem andThen (he : Evaluates n e a) (hf : Evaluates n f b)
    (hnone : ∀ ask, e ask = none → g ask = none) (hsome : ∀ ask, e ask = some a → g ask = f ask) :
    Evaluates n g b := by
  have hbreaks : ∀ ask, Truthful ask → (g ask = none ↔ e ask = none ∨ f ask = none) := by
    intro ask h
    rcases he.value ask h with hask | hask
    · simp [hask, hnone ask hask]
    · simp [hask, hsome ask hask]
  refine ⟨fun ask h => ?_, fun ask h => ?_, fun r hr => ?_⟩
  · rcases he.value ask h with hask | hask
    · exact Or.inl (hnone ask hask)
    · rw [hsome ask hask]
      exact hf.value ask h
  · rw [hbreaks ask h, he.breaks ask h, hf.breaks ask h, ← exists_or]
    simp only [hbreaks _ (truthful_without _), or_and_right]
  · rcases (hbreaks _ (truthful_without r)).mp hr with hr | hr
    · exact he.lower r hr
    · exact hf.lower r hr

theorem or (he : Evaluates n e a) (hf : Evaluates n f b) :
    Evaluates n (fun ask => e ask <||> f ask) (a || b) := by
  cases a with
  | true => exact he.andThen (.const n true) (fun _ h => by rw [h]; rfl) (fun _ h => by rw [h]; rfl)
  | false => exact he.andThen hf (fun _ h => by rw [h]; rfl) (fun _ h => by rw [h]; rfl)

theorem and (he : Evaluates n e a) (hf : Evaluates n f b) :
    Evaluates n (fun ask => e ask <&&> f ask) (a && b) := by
  cases a with
  | true => exact he.andThen hf (fun _ h => by rw [h]; rfl) (fun _ h => by rw [h]; rfl)
  | false =>
    exact he.andThen (.const n false) (fun _ h => by rw [h]; rfl) (fun _ h => by rw [h]; rfl)

end Evaluates

section

variable {φ ψ : Formula}

theorem rank_containsBelow_of_split (h : φ.decompose.junction?.isSome) (ψ : Formula) :
    (containsBelow φ ψ).rank = 4 * (φ.weight + ψ.weight) := by
  rw [rank, if_pos h, Nat.add_zero]

theorem rank_containsBelow_of_alone {a : Formula} (h : φ.decompose = .alone a) (ψ : Formula) :
    (containsBelow φ ψ).rank = 4 * (φ.weight + ψ.weight) + 2 := by
  simp [rank, h, Decomposition.junction?]

theorem rank_containsBelow_le (φ ψ : Formula) :
    (containsBelow φ ψ).rank ≤ 4 * (φ.weight + ψ.weight) + 2 := by
  rw [rank]
  split <;> omega

/-- The comparison of two formulas calls itself and the search only at smaller rank. -/
theorem evaluates_equivalent (φ ψ : Formula) :
    Evaluates (equivalent φ ψ).rank (fun ask => step ask (equivalent φ ψ)) (φ.equivalent ψ) := by
  simp only [step]
  rw [Formula.equivalent]
  by_cases heq : φ = ψ
  · simp only [if_pos heq]
    exact .const _ true
  · simp only [if_neg heq]
    cases halign : φ.align ψ with
    | single a b => exact .const _ _
    | apart => exact .const _ false
    | pairs l₁ r₁ l₂ r₂ =>
      obtain ⟨⟨hl₁, hr₁⟩, hl₂, hr₂⟩ := Formula.weight_lt_of_align halign
      have hparts : ∀ a b, a.weight < φ.weight → b.weight < ψ.weight →
          (equivalent a b).rank < (equivalent φ ψ).rank := by
        intro a b ha hb
        simp only [rank]
        omega
      simp only [Bool.or_assoc]
      refine .or (.and (.call (hparts l₁ l₂ hl₁ hl₂)) (.call (hparts r₁ r₂ hr₁ hr₂)))
        (.or (.and (.call (hparts l₁ r₂ hl₁ hr₂)) (.call (hparts r₁ l₂ hr₁ hl₂))) ?_)
      by_cases hsame : φ.sameChain ψ = true
      · obtain ⟨hφ, hψ⟩ := Formula.splits_of_sameChain hsame
        simp only [if_pos hsame, dif_pos hsame]
        refine .and (.call (r := containsBelow ψ φ) ?_) (.call (r := containsBelow φ ψ) ?_)
        · rw [rank_containsBelow_of_split hψ, rank]
          omega
        · rw [rank_containsBelow_of_split hφ, rank]
          omega
      · simp only [if_neg hsame, dif_neg hsame]
        exact .const _ false

theorem evaluates_contains (φ ψ : Formula) :
    Evaluates (contains φ ψ).rank (fun ask => step ask (contains φ ψ)) (φ.contains ψ) := by
  simp only [step]
  rw [Formula.contains]
  have hbelow := rank_containsBelow_le φ ψ
  refine .or (.call (r := equivalent ψ φ) ?_) (.call (r := containsBelow φ ψ) ?_)
  · simp only [rank]
    omega
  · rw [rank.eq_2]
    omega

theorem evaluates_containsBelow (φ ψ : Formula) :
    Evaluates (containsBelow φ ψ).rank (fun ask => step ask (containsBelow φ ψ))
      (φ.containsBelow ψ) := by
  simp only [step]
  rw [Formula.containsBelow]
  cases hφ : φ.decompose with
  | alone a =>
    have hle : a.weight ≤ φ.weight := by
      rcases Formula.eq_or_weight_lt_of_alone hφ with rfl | hlt
      · exact Nat.le_refl _
      · exact Nat.le_of_lt hlt
    refine .call (r := equivalent ψ a) ?_
    rw [rank_containsBelow_of_alone hφ, rank]
    omega
  | split j l r =>
    obtain ⟨hl, hr⟩ := Formula.weight_lt_of_split hφ
    have hrank : (containsBelow φ ψ).rank = 4 * (φ.weight + ψ.weight) :=
      rank_containsBelow_of_split (by simp [hφ, Decomposition.junction?]) ψ
    have heq : ∀ a, a.weight < φ.weight → (equivalent ψ a).rank < (containsBelow φ ψ).rank := by
      intro a ha
      rw [hrank, rank]
      omega
    have hin : ∀ a b, a.weight + b.weight < φ.weight + ψ.weight →
        (contains a b).rank < (containsBelow φ ψ).rank := by
      intro a b hab
      rw [hrank, rank]
      omega
    simp only [Bool.or_assoc]
    refine .or (.call (heq l hl)) (.or (.call (heq r hr)) (.or (.and (.const _ _)
      (.call (hin l ψ (by omega)))) (.or (.and (.const _ _) (.call (hin r ψ (by omega)))) ?_)))
    by_cases hop : ψ.operator? = φ.operator?
    · simp only [if_pos hop]
      cases hψ : ψ.decompose with
      | alone b => exact .const _ false
      | split k l' r' =>
        obtain ⟨hl', hr'⟩ := Formula.weight_lt_of_split hψ
        exact .and (.call (hin φ l' (by omega))) (.call (hin φ r' (by omega)))
    · simp only [if_neg hop]
      by_cases hiff : φ.operator? = some .iff
      · simp only [if_pos hiff]
        cases hcond : φ.conditionals? with
        | none => exact .const _ false
        | some p =>
          obtain ⟨ha, hb⟩ := Formula.weight_lt_of_conditionals hcond
          exact .or (.call (hin p.1 ψ (by omega))) (.call (hin p.2 ψ (by omega)))
      · simp only [if_neg hiff]
        by_cases hiff' : ψ.operator? = some .iff
        · simp only [if_pos hiff']
          cases hψ : ψ.decompose with
          | alone b => exact .const _ false
          | split k l' r' =>
            obtain ⟨hl', hr'⟩ := Formula.weight_lt_of_split hψ
            exact .and (.call (hin φ l' (by omega))) (.call (hin φ r' (by omega)))
        · simp only [if_neg hiff']
          exact .const _ false

/-- One call comes to its answer through calls of smaller rank. -/
theorem evaluates_step (q : Comparison) :
    Evaluates q.rank (fun ask => step ask q) q.answer := by
  cases q with
  | equivalent φ ψ => exact evaluates_equivalent φ ψ
  | contains φ ψ => exact evaluates_contains φ ψ
  | containsBelow φ ψ => exact evaluates_containsBelow φ ψ

/-- Two literals are the lightest formulas, and there is nothing below a literal but itself. -/
theorem eight_lt_rank (q : Comparison) : 8 < q.rank := by
  have pos := Formula.weight_pos
  cases q with
  | equivalent φ ψ | contains φ ψ =>
    have hφ := pos φ
    have hψ := pos ψ
    rw [rank]
    omega
  | containsBelow φ ψ =>
    have hφ := pos φ
    have hψ := pos ψ
    cases hd : φ.decompose with
    | alone a =>
      rw [rank_containsBelow_of_alone hd]
      omega
    | split j l r =>
      have hl := pos l
      have hlt := (Formula.weight_lt_of_split hd).1
      rw [rank_containsBelow_of_split (by simp [hd, Decomposition.junction?])]
      omega

end

section

variable {q : Comparison} {inner : List Comparison} {limit : Nat}

theorem truthful_nested (limit : Nat) : Truthful (nested step limit) := by
  intro q
  induction limit generalizing q with
  | zero => exact Or.inl rfl
  | succ limit ih => exact (evaluates_step q).value _ ih

/-- A limit is too low exactly if there is a longer chain of calls, each made by the one before. -/
theorem nested_eq_none_iff :
    nested step limit q = none ↔
      ∃ inner, inner.length = limit ∧ List.IsChain Asks (q :: inner) := by
  induction limit generalizing q with
  | zero =>
    constructor
    · exact fun _ => ⟨[], rfl, .singleton q⟩
    · exact fun _ => rfl
  | succ limit ih =>
    have hbreaks : nested step (limit + 1) q = none ↔
        ∃ r, Asks q r ∧ nested step limit r = none :=
      (evaluates_step q).breaks _ (truthful_nested limit)
    rw [hbreaks]
    constructor
    · rintro ⟨r, hask, hnone⟩
      obtain ⟨inner, hlength, hchain⟩ := ih.mp hnone
      exact ⟨r :: inner, by rw [List.length_cons, hlength], .cons_cons hask hchain⟩
    · rintro ⟨_ | ⟨r, inner⟩, hlength, hchain⟩
      · simp at hlength
      · obtain ⟨hask, hrest⟩ := List.isChain_cons_cons.mp hchain
        exact ⟨r, hask, ih.mpr ⟨inner, by simpa using hlength, hrest⟩⟩

/-- A chain of nested calls is shorter than the rank of its first call. -/
theorem length_le_of_isChain (h : List.IsChain Asks (q :: inner)) :
    (q :: inner).length + 8 ≤ q.rank := by
  induction inner generalizing q with
  | nil => exact eight_lt_rank q
  | cons r inner ih =>
    obtain ⟨hask, hrest⟩ := List.isChain_cons_cons.mp h
    have hlt : r.rank < q.rank := (evaluates_step q).lower r hask
    have hlength := ih hrest
    rw [List.length_cons]
    omega

/-- A budget of the size of the rank is enough. -/
theorem nested_step_eq (h : q.rank ≤ limit + 8) : nested step limit q = some q.answer := by
  rcases truthful_nested limit q with hnone | hsome
  · obtain ⟨inner, hlength, hchain⟩ := nested_eq_none_iff.mp hnone
    have hbound := length_le_of_isChain hchain
    rw [List.length_cons] at hbound
    omega
  · exact hsome

end

/-- Comparing two formulas nests calls no deeper than four times the weight of both: no chain of
calls, each made by the one before, is longer. So any limit from there on leads to the one answer
that is found without a limit. -/
theorem nests_within_weight (φ ψ : Formula) :
    (∀ q inner, q = equivalent φ ψ ∨ q = contains φ ψ → List.IsChain Asks (q :: inner) →
      (q :: inner).length ≤ 4 * (φ.weight + ψ.weight)) ∧
    ∀ limit, 4 * (φ.weight + ψ.weight) ≤ limit →
      nested step limit (equivalent φ ψ) = some (φ.equivalent ψ) ∧
        nested step limit (contains φ ψ) = some (φ.contains ψ) := by
  constructor
  · intro q inner hq hchain
    have hrank : q.rank ≤ 4 * (φ.weight + ψ.weight) + 3 := by
      rcases hq with rfl | rfl
      · rw [rank]
        omega
      · exact Nat.le_refl _
    have hlength := length_le_of_isChain hchain
    omega
  · intro limit hlimit
    constructor
    · exact nested_step_eq (by rw [rank]; omega)
    · exact nested_step_eq (by rw [rank]; omega)

/-- To find a literal in a biconditional, calls go down to a conditional, which is larger than the
biconditional itself. They are nested five deep, and four calls are too few. -/
theorem nests_within_weight_biconditional :
    let φ := Formula.iff (.literal "a") (.literal "b")
    let ψ := Formula.literal "c"
    let χ := Formula.or (.not (.literal "a")) (.literal "b")
    let inner := [containsBelow φ ψ, contains χ ψ, containsBelow χ ψ,
      equivalent ψ (.not (.literal "a"))]
    φ.size < χ.size ∧ List.IsChain Asks (contains φ ψ :: inner) ∧ inner.length < 28 ∧
      nested step 4 (contains φ ψ) = none ∧ nested step 28 (contains φ ψ) = some false := by
  intro φ ψ χ inner
  obtain ⟨hsize, hchain, hfew, hanswer⟩ : φ.size < χ.size ∧
      List.IsChain Asks (contains φ ψ :: inner) ∧ nested step 4 (contains φ ψ) = none ∧
      φ.contains ψ = false := by
    decide +kernel
  obtain ⟨hdepth, hlimit⟩ := nests_within_weight φ ψ
  refine ⟨hsize, hchain, hdepth (contains φ ψ) inner (Or.inr rfl) hchain, hfew, ?_⟩
  rw [(hlimit 28 (by decide)).2, hanswer]

end Comparison

end TruthTrees.Checked
