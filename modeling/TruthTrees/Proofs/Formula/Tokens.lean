import Mathlib.Data.List.TakeWhile
import TruthTrees.Formula.Grammar

/-! Cutting a text into tokens, said as a relation. A text that holds a character of no token is not
cut at all. The lexemes of a text are its tokens in this sense, with stray characters beside them, so
a text is cut into tokens exactly when none of its lexemes is stray. -/
namespace TruthTrees

def NameChar (c : Char) : Prop :=
  ('A' ≤ c ∧ c ≤ 'Z') ∨ ('a' ≤ c ∧ c ≤ 'z') ∨ ('0' ≤ c ∧ c ≤ '9') ∨ c = '_'

/-- The tokens of a text: the maximal runs of name characters, the brackets and the commas. Blanks
stand between tokens, and nothing else does. -/
inductive Tokenizes : List Char → List Token → Prop
  | nil : Tokenizes [] []
  | blank {c : Char} {cs : List Char} {ts : List Token} (hc : Text.isBlank c = true)
      (h : Tokenizes cs ts) : Tokenizes (c :: cs) ts
  | word {first : Char} {rest cs : List Char} {ts : List Token}
      (hname : ∀ c ∈ first :: rest, NameChar c) (hmax : ∀ c ∈ cs.head?, ¬ NameChar c)
      (h : Tokenizes cs ts) : Tokenizes (first :: (rest ++ cs)) (.word first rest :: ts)
  | opening {cs : List Char} {ts : List Token} (h : Tokenizes cs ts) :
      Tokenizes ('(' :: cs) (.opening :: ts)
  | closing {cs : List Char} {ts : List Token} (h : Tokenizes cs ts) :
      Tokenizes (')' :: cs) (.closing :: ts)
  | comma {cs : List Char} {ts : List Token} (h : Tokenizes cs ts) :
      Tokenizes (',' :: cs) (.comma :: ts)

theorem isNameChar_iff (c : Char) : isNameChar c = true ↔ NameChar c := by
  have hclasses : isNameChar c = (((decide ('A' ≤ c ∧ c ≤ 'Z') ||
      decide ('a' ≤ c) && decide (c ≤ 'z')) || decide ('0' ≤ c) && decide (c ≤ '9')) ||
      c == '_') := rfl
  rw [hclasses]
  simp [NameChar, or_assoc]

/-- No character of a name is a blank. -/
theorem not_isBlank_of_isNameChar {c : Char} (h : isNameChar c = true) :
    Text.isBlank c = false := by
  rw [isNameChar_iff] at h
  have hcode : (65 ≤ c.toNat ∧ c.toNat ≤ 90) ∨ (97 ≤ c.toNat ∧ c.toNat ≤ 122) ∨
      (48 ≤ c.toNat ∧ c.toNat ≤ 57) ∨ c.toNat = 95 := by
    rcases h with h | h | h | rfl
    · exact Or.inl h
    · exact Or.inr (Or.inl h)
    · exact Or.inr (Or.inr (Or.inl h))
    · exact Or.inr (Or.inr (Or.inr rfl))
  have hnot : c.toNat ∉ Text.blankCodes := by
    simp only [Text.blankCodes, List.mem_cons, List.not_mem_nil, or_false]
    omega
  simpa [Text.isBlank] using hnot

/-- A mark that is not stray is a bracket or a comma. -/
theorem ofMark_of_ne_stray {c : Char} (h : ∀ d, Token.ofMark c ≠ .stray d) :
    c = '(' ∨ c = ')' ∨ c = ',' := by
  unfold Token.ofMark at h
  split at h
  · exact Or.inl rfl
  · exact Or.inr (Or.inl rfl)
  · exact Or.inr (Or.inr rfl)
  · exact absurd rfl (h c)

section Lexemes

variable {c : Char} {cs : List Char}

theorem lexemes_blank (hc : Text.isBlank c = true) (k : Nat) :
    lexemes k (c :: cs) = lexemes (k + c.utf8Size) cs := by
  rw [lexemes, if_pos hc]

/-- A run of name characters that is not followed by another one is one token. -/
theorem lexemes_word {rest : List Char} (hname : ∀ d ∈ c :: rest, isNameChar d = true)
    (hmax : ∀ d ∈ cs.head?, isNameChar d = false) (k : Nat) :
    lexemes k (c :: (rest ++ cs)) =
      ⟨.word c rest, k⟩ :: lexemes (k + byteLength (c :: rest)) cs := by
  have hc : isNameChar c = true := hname c (by simp)
  have hrest : ∀ d ∈ rest, isNameChar d = true := fun d hd => hname d (by simp [hd])
  have hstop : cs.takeWhile isNameChar = [] ∧ cs.dropWhile isNameChar = cs := by
    cases cs with
    | nil => exact ⟨rfl, rfl⟩
    | cons d cs =>
      have hd := hmax d (by simp)
      simp [hd]
  rw [lexemes, if_neg (by simp [not_isBlank_of_isNameChar hc]), if_pos hc]
  dsimp only
  rw [List.takeWhile_append_of_pos hrest, List.dropWhile_append_of_pos hrest, hstop.1, hstop.2,
    List.append_nil]

theorem lexemes_mark (hc : Text.isBlank c = false) (hname : isNameChar c = false) (k : Nat) :
    lexemes k (c :: cs) = ⟨.ofMark c, k⟩ :: lexemes (k + c.utf8Size) cs := by
  rw [lexemes, if_neg (by simp [hc]), if_neg (by simp [hname])]

end Lexemes

/-- The lexer finds the tokens a text is cut into, wherever the text begins. -/
theorem Tokenizes.map_token_lexemes {cs : List Char} {ts : List Token} (h : Tokenizes cs ts)
    (k : Nat) : (lexemes k cs).map Lexeme.token = ts := by
  induction h generalizing k with
  | nil => rw [lexemes]; rfl
  | blank hc _ ih => rw [lexemes_blank hc, ih]
  | word hname hmax _ ih =>
    rw [lexemes_word, List.map_cons, ih]
    · exact fun d hd => (isNameChar_iff d).mpr (hname d hd)
    · exact fun d hd => Bool.eq_false_iff.mpr (fun hc => hmax d hd ((isNameChar_iff d).mp hc))
  | opening _ ih => rw [lexemes_mark (by decide) (by decide), List.map_cons, ih]; rfl
  | closing _ ih => rw [lexemes_mark (by decide) (by decide), List.map_cons, ih]; rfl
  | comma _ ih => rw [lexemes_mark (by decide) (by decide), List.map_cons, ih]; rfl

/-- A text without stray characters is cut into the tokens of its lexemes. -/
theorem tokenizes_of_lexemes {k : Nat} {cs : List Char}
    (h : ∀ d, .stray d ∉ (lexemes k cs).map Lexeme.token) :
    Tokenizes cs ((lexemes k cs).map Lexeme.token) := by
  fun_induction lexemes k cs with
  | case1 => exact .nil
  | case2 k c cs hblank ih => exact .blank hblank (ih h)
  | case3 k c cs hblank hname rest ih =>
    have hcs : cs = rest ++ cs.dropWhile isNameChar := List.takeWhile_append_dropWhile.symm
    have hrest : ∀ d ∈ c :: rest, NameChar d := by
      intro d hd
      rw [← isNameChar_iff]
      rcases List.mem_cons.mp hd with rfl | hd
      · exact hname
      · exact List.mem_takeWhile_imp hd
    have hmax : ∀ d ∈ (cs.dropWhile isNameChar).head?, ¬ NameChar d := by
      intro d hd
      rw [← isNameChar_iff]
      have hstop := List.head?_dropWhile_not isNameChar cs
      rw [hd] at hstop
      simpa using hstop
    conv => enter [1, 2]; rw [hcs]
    exact .word hrest hmax (ih (fun d hd => h d (by simp [hd])))
  | case4 k c cs hblank hname ih =>
    have hrest := ih (fun d hd => h d (List.mem_cons_of_mem _ hd))
    have hmark : ∀ d, Token.ofMark c ≠ .stray d := fun d hd => h d (by simp [hd])
    rcases ofMark_of_ne_stray hmark with rfl | rfl | rfl
    · exact .opening hrest
    · exact .closing hrest
    · exact .comma hrest

end TruthTrees
