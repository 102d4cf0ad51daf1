import TruthTrees.Proofs.Formula.RoundTrip

/-! Symbolic text tells formulas apart. A binary operation ends with its own bracket, and a negation
ends where its body does. Only a literal has no end of its own: it goes on as long as name
characters do, and what is written behind a formula is never one of them. So the front of a text
determines which formula stands there and where it ends. -/
namespace TruthTrees

def Operator.sign : Operator → Char
  | not => '¬'
  | and => '∧'
  | or => '∨'
  | imp => '→'
  | iff => '↔'

/-- No two operators share a sign. -/
theorem Operator.sign_injective : Function.Injective Operator.sign := by
  intro op op' h
  cases op <;> cases op' <;> first | rfl | exact absurd h (by decide)

namespace Formula

section Characters

variable {φ ψ l r : Formula} {op : Operator}

theorem toList_symbolic_not (φ : Formula) :
    (not φ).symbolic.toList = '¬' :: φ.symbolic.toList := by
  simp [symbolic]

theorem toList_symbolic_binary (hop : φ.operator? = some op) (h : φ.operands? = some (l, r)) :
    φ.symbolic.toList =
      '(' :: (l.symbolic.toList ++ ' ' :: op.sign :: ' ' :: (r.symbolic.toList ++ [')'])) := by
  cases φ <;> simp only [operands?, reduceCtorEq, Option.some.injEq, Prod.mk.injEq] at h <;>
    obtain ⟨rfl, rfl⟩ := h <;> obtain rfl := Option.some.inj hop <;>
    simp [symbolic, Operator.sign]

/-- A formula is a literal, a negation or a binary operation. -/
theorem literal_or_not_or_binary (φ : Formula) : (∃ name, φ = literal name) ∨ (∃ χ, φ = not χ) ∨
    ∃ op l r, φ.operator? = some op ∧ φ.operands? = some (l, r) := by
  cases φ with
  | literal name => exact Or.inl ⟨name, rfl⟩
  | not χ => exact Or.inr (Or.inl ⟨χ, rfl⟩)
  | and l r | or l r | imp l r | iff l r => exact Or.inr (Or.inr ⟨_, l, r, rfl, rfl⟩)

/-- A formula is given by its operator and its two operands. -/
theorem eq_of_operands (hop : φ.operator? = ψ.operator?) (hφ : φ.operands? = some (l, r))
    (hψ : ψ.operands? = some (l, r)) : φ = ψ := by
  cases φ <;> cases ψ <;> simp_all [operator?, operands?]

theorem WellNamed.operands (h : φ.WellNamed) (hops : φ.operands? = some (l, r)) :
    l.WellNamed ∧ r.WellNamed := by
  cases φ <;> simp only [operands?, reduceCtorEq, Option.some.injEq, Prod.mk.injEq] at hops <;>
    obtain ⟨rfl, rfl⟩ := hops <;> exact List.forall_mem_append.mp h

end Characters

def EndsName (text : List Char) : Prop :=
  ∀ c ∈ text.head?, ¬ NameChar c

theorem endsName_nil : EndsName [] := by
  simp [EndsName]

theorem endsName_cons {c : Char} (hc : ¬ NameChar c) (text : List Char) : EndsName (c :: text) := by
  simpa [EndsName] using hc

/-- A name is the same and ends at the same place, however its text is continued. -/
theorem name_append_inj {a b s t : List Char} (ha : ∀ c ∈ a, NameChar c) (hb : ∀ c ∈ b, NameChar c)
    (hs : EndsName s) (ht : EndsName t) (h : a ++ s = b ++ t) : a = b ∧ s = t := by
  -- If one name went on where the other ends, a text behind a name would start with its character.
  induction a generalizing b with
  | nil =>
    cases b with
    | nil => exact ⟨rfl, h⟩
    | cons d b =>
      obtain rfl : s = d :: (b ++ t) := h
      exact absurd (hb d (by simp)) (hs d (by simp))
  | cons c a ih =>
    cases b with
    | nil =>
      obtain rfl : c :: (a ++ s) = t := h
      exact absurd (ha c (by simp)) (ht c (by simp))
    | cons d b =>
      obtain ⟨rfl, hrest⟩ := List.cons.inj h
      obtain ⟨rfl, rfl⟩ := ih (List.forall_mem_cons.mp ha).2 (List.forall_mem_cons.mp hb).2 hrest
      exact ⟨rfl, rfl⟩

theorem nameChar_of_literal {name : String} {c : Char} {s t : List Char}
    (hname : (literal name).WellNamed) (h : (literal name).symbolic.toList ++ s = c :: t) :
    NameChar c := by
  obtain ⟨hne, hchars⟩ := hname name (List.mem_singleton_self name)
  cases hlist : name.toList with
  | nil => exact absurd (String.toList_eq_nil_iff.mp hlist) hne
  | cons d rest =>
    rw [symbolic, hlist] at h
    obtain ⟨rfl, -⟩ := List.cons.inj h
    exact hchars d (by simp [hlist])

/-- A formula that any text with its symbolic text in front determines, together with what follows
it there. -/
def StandsOut (φ : Formula) : Prop :=
  ∀ (ψ : Formula) (s t : List Char), ψ.WellNamed → EndsName s → EndsName t →
    φ.symbolic.toList ++ s = ψ.symbolic.toList ++ t → φ = ψ ∧ s = t

/-- A name ends where the first character stands that belongs to no name. -/
theorem standsOut_literal {name : String} (hname : (literal name).WellNamed) :
    (literal name).StandsOut := by
  intro ψ s t hψ hs ht h
  rcases literal_or_not_or_binary ψ with ⟨name', rfl⟩ | ⟨χ, rfl⟩ | ⟨op, l, r, hop, hops⟩
  · have hchars := (hname name (List.mem_singleton_self name)).2
    have hchars' := (hψ name' (List.mem_singleton_self name')).2
    obtain ⟨hlist, hrest⟩ := name_append_inj hchars hchars' hs ht h
    exact ⟨congrArg literal (String.toList_inj.mp hlist), hrest⟩
  · rw [toList_symbolic_not] at h
    exact absurd (nameChar_of_literal hname h) (by decide)
  · rw [toList_symbolic_binary hop hops] at h
    exact absurd (nameChar_of_literal hname h) (by decide)

theorem StandsOut.not {φ : Formula} (hφ : φ.StandsOut) : (not φ).StandsOut := by
  intro ψ s t hψ hs ht h
  rcases literal_or_not_or_binary ψ with ⟨name, rfl⟩ | ⟨χ, rfl⟩ | ⟨op, l, r, hop, hops⟩
  · rw [toList_symbolic_not] at h
    exact absurd (nameChar_of_literal hψ h.symm) (by decide)
  · rw [toList_symbolic_not, toList_symbolic_not] at h
    obtain ⟨rfl, hrest⟩ := hφ χ s t hψ hs ht (List.cons.inj h).2
    exact ⟨rfl, hrest⟩
  · rw [toList_symbolic_not, toList_symbolic_binary hop hops] at h
    exact absurd (List.cons.inj h).1 (by decide)

/-- The bracket, the sign and the two operands tell where each of them ends. -/
theorem StandsOut.binary {φ l r : Formula} {op : Operator} (hop : φ.operator? = some op)
    (hops : φ.operands? = some (l, r)) (hl : l.StandsOut) (hr : r.StandsOut) : φ.StandsOut := by
  intro ψ s t hψ hs ht h
  rw [toList_symbolic_binary hop hops] at h
  rcases literal_or_not_or_binary ψ with ⟨name, rfl⟩ | ⟨χ, rfl⟩ | ⟨op', l', r', hop', hops'⟩
  · exact absurd (nameChar_of_literal hψ h.symm) (by decide)
  · rw [toList_symbolic_not] at h
    exact absurd (List.cons.inj h).1 (by decide)
  · rw [toList_symbolic_binary hop' hops'] at h
    obtain ⟨hl', hr'⟩ := hψ.operands hops'
    simp only [List.cons_append, List.append_assoc, List.nil_append] at h
    obtain ⟨rfl, hmiddle⟩ := hl l' _ _ hl' (endsName_cons (by decide) _)
      (endsName_cons (by decide) _) (List.cons.inj h).2
    simp only [List.cons.injEq, true_and] at hmiddle
    obtain ⟨hsign, hright⟩ := hmiddle
    obtain ⟨rfl, hclose⟩ := hr r' _ _ hr' (endsName_cons (by decide) _)
      (endsName_cons (by decide) _) hright
    obtain rfl := Operator.sign_injective hsign
    exact ⟨eq_of_operands (hop.trans hop'.symm) hops hops', (List.cons.inj hclose).2⟩

/-- A well-named formula can be told from the text at whose front it stands. -/
theorem standsOut_of_wellNamed {φ : Formula} (h : φ.WellNamed) : φ.StandsOut := by
  induction φ with
  | literal name => exact standsOut_literal h
  | not φ ih => exact (ih h).not
  | and l r ihl ihr | or l r ihl ihr | imp l r ihl ihr | iff l r ihl ihr =>
    obtain ⟨hl, hr⟩ := List.forall_mem_append.mp h
    exact .binary rfl rfl (ihl hl) (ihr hr)

/-- Symbolic text is unambiguous: formulas whose names can be written and that are written alike are
the same. -/
theorem eq_of_symbolic_eq {φ ψ : Formula} (hφ : φ.WellNamed) (hψ : ψ.WellNamed)
    (h : φ.symbolic = ψ.symbolic) : φ = ψ := by
  have hlist : φ.symbolic.toList ++ [] = ψ.symbolic.toList ++ [] := by rw [h]
  exact (standsOut_of_wellNamed hφ ψ [] [] hψ endsName_nil endsName_nil hlist).1

/-- A formula that is read from a text and then written in signs is known from them. -/
theorem eq_of_symbolic_eq_parsed :
    let φ := iff (not (and (literal "a") (not (not (literal "b_1")))))
      (imp (literal "not") (literal "A"))
    ∃ ψ, parse " IFF(not(And(a, not(not(b_1)))), (if(not, A)))" = .ok ψ ∧
      φ.WellNamed ∧ ψ.WellNamed ∧ ψ.symbolic = "(¬(a ∧ ¬¬b_1) ↔ (not → A))" ∧
      φ.symbolic = ψ.symbolic ∧ φ = ψ := by
  intro φ
  have hφ : φ.WellNamed := by decide
  have hwritten : φ.symbolic = "(¬(a ∧ ¬¬b_1) ↔ (not → A))" := by decide
  exact ⟨φ, by decide +kernel, hφ, hφ, hwritten, rfl, eq_of_symbolic_eq hφ hφ rfl⟩

end Formula

end TruthTrees
