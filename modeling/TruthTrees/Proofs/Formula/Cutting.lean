import TruthTrees.Proofs.Formula.Tokens

/-! Where the tokens of a text stand. Each lexeme names the byte at which its token starts. Cut in
front of a lexeme, a text falls into a front that has the lexemes before it and a back that starts
with the characters of the token, so the place that a lexeme names is always one between two
characters, and behind it stands what the token says. -/
namespace TruthTrees

def Token.chars : Token → List Char
  | word first rest => first :: rest
  | opening => ['(']
  | closing => [')']
  | comma => [',']
  | stray c => [c]

/-- A token that is cut off from the text behind it: a word is made of name characters and as long as
it can be, and every other token is a character that is not blank and belongs to no name. -/
inductive Token.CutFrom (after : List Char) : Token → Prop
  | word {first : Char} {rest : List Char} (hname : ∀ c ∈ first :: rest, isNameChar c = true)
      (hmax : ∀ c ∈ after.head?, isNameChar c = false) : CutFrom after (.word first rest)
  | mark {c : Char} (hblank : Text.isBlank c = false) (hname : isNameChar c = false) :
    CutFrom after (.ofMark c)

/-- A text is cut in front of a lexeme: what stands before it, what stands behind it, and the lexemes
of both. -/
structure CutAt (k : Nat) (text : List Char) (used : List Lexeme) (l : Lexeme) (rest : List Lexeme)
    (before after : List Char) : Prop where
  text_eq : text = before ++ (l.token.chars ++ after)
  offset_eq : l.offset = k + byteLength before
  lexemes_before : lexemes k before = used
  lexemes_after : lexemes (l.offset + byteLength l.token.chars) after = rest
  cutFrom : l.token.CutFrom after

variable {k : Nat} {cs before after : List Char} {used rest : List Lexeme} {l : Lexeme}
  {token : Token}

theorem byteLength_append (a b : List Char) :
    byteLength (a ++ b) = byteLength a + byteLength b := by
  induction a with
  | nil => simp [byteLength]
  | cons c a ih => simp [byteLength, ih, Nat.add_assoc]

/-- Bytes are counted as they are in the UTF-8 encoding of a text. -/
theorem byteLength_eq_utf8ByteSize (cs : List Char) :
    byteLength cs = (String.ofList cs).utf8ByteSize := by
  induction cs with
  | nil => rfl
  | cons c cs ih =>
    have hcons : String.ofList (c :: cs) = String.singleton c ++ String.ofList cs := by
      rw [String.singleton_eq_ofList, ← String.ofList_append]
      rfl
    rw [byteLength, ih, hcons, String.utf8ByteSize_append, String.utf8ByteSize_singleton]

theorem Token.chars_ofMark (c : Char) : (Token.ofMark c).chars = [c] := by
  unfold Token.ofMark
  split <;> rfl

/-- A token has at least one character. -/
theorem Token.chars_eq_cons (token : Token) : ∃ more, token.chars = token.firstChar :: more := by
  cases token <;> exact ⟨_, rfl⟩

theorem Token.firstChar_ofMark (c : Char) : (Token.ofMark c).firstChar = c := by
  unfold Token.ofMark
  split <;> rfl

theorem Token.ofMark_ne_word (c first : Char) (more : List Char) :
    Token.ofMark c ≠ .word first more := by
  unfold Token.ofMark
  split <;> simp

/-- No token starts with a blank. -/
theorem Token.CutFrom.not_isBlank (h : token.CutFrom after) :
    Text.isBlank token.firstChar = false := by
  cases h with
  | word hname => exact not_isBlank_of_isNameChar (hname _ List.mem_cons_self)
  | mark hblank => rwa [Token.firstChar_ofMark]

/-- A token starts with a mark only if it is that mark. -/
theorem Token.CutFrom.firstChar_eq_iff (h : token.CutFrom after) {c : Char}
    (hc : isNameChar c = false) : token.firstChar = c ↔ token = .ofMark c := by
  cases h with
  | @word first rest hname =>
    have hne : first ≠ c := by
      rintro rfl
      rw [hname first List.mem_cons_self] at hc
      simp at hc
    exact iff_of_false hne (Token.ofMark_ne_word c first rest).symm
  | @mark d =>
    rw [Token.firstChar_ofMark]
    refine ⟨congrArg Token.ofMark, fun heq => ?_⟩
    rw [← Token.firstChar_ofMark d, heq, Token.firstChar_ofMark]

/-- A word is made of name characters, and none of them follows it. -/
theorem Token.CutFrom.of_word {first : Char} {more : List Char}
    (h : (Token.word first more).CutFrom after) :
    (∀ c ∈ first :: more, isNameChar c = true) ∧ ∀ c ∈ after.head?, isNameChar c = false := by
  generalize htoken : Token.word first more = token at h
  cases h with
  | word hname hmax =>
    obtain ⟨rfl, rfl⟩ := Token.word.inj htoken
    exact ⟨hname, hmax⟩
  | mark => exact absurd htoken.symm (Token.ofMark_ne_word _ _ _)

/-- A token that starts with a name character is a word. -/
theorem Token.CutFrom.isNameChar_firstChar_iff (h : token.CutFrom after) :
    isNameChar token.firstChar = true ↔ ∃ first more, token = .word first more := by
  cases h with
  | @word first more hname => exact iff_of_true (hname first List.mem_cons_self) ⟨_, _, rfl⟩
  | @mark c _ hname =>
    rw [Token.firstChar_ofMark]
    exact iff_of_false (by simp [hname]) fun ⟨_, _, heq⟩ => Token.ofMark_ne_word _ _ _ heq

/-- Only a text of blanks has no lexemes. -/
theorem lexemes_eq_nil_iff : lexemes k cs = [] ↔ ∀ c ∈ cs, Text.isBlank c = true := by
  fun_induction lexemes k cs with
  | case1 => simp
  | case2 k c cs hblank ih => simp [ih, hblank]
  | case3 k c cs hblank => simp [hblank]
  | case4 k c cs hblank => simp [hblank]

/-- Leading blanks only move the offsets. -/
theorem lexemes_blanks_append {blanks : List Char} (h : ∀ c ∈ blanks, Text.isBlank c = true)
    (k : Nat) (cs : List Char) :
    lexemes k (blanks ++ cs) = lexemes (k + byteLength blanks) cs := by
  induction blanks generalizing k with
  | nil => rfl
  | cons c blanks ih =>
    rw [List.forall_mem_cons] at h
    rw [List.cons_append, lexemes_blank h.1, ih h.2, byteLength, Nat.add_assoc]

/-- Which tokens a text has does not depend on where it starts. -/
theorem map_token_lexemes (k m : Nat) (cs : List Char) :
    (lexemes k cs).map Lexeme.token = (lexemes m cs).map Lexeme.token := by
  fun_induction lexemes k cs generalizing m with
  | case1 => rw [lexemes]
  | case2 k c cs hblank ih => rw [lexemes_blank hblank, ih]
  | case3 k c cs hblank hname rest ih =>
    rw [lexemes, if_neg hblank, if_pos hname, List.map_cons, List.map_cons, ih]
  | case4 k c cs hblank hname ih =>
    rw [lexemes, if_neg hblank, if_neg hname, List.map_cons, List.map_cons, ih]

/-- A token that is cut off from the text behind it is the first lexeme. -/
theorem Token.CutFrom.lexemes_eq (h : token.CutFrom after) (k : Nat) :
    lexemes k (token.chars ++ after) =
      ⟨token, k⟩ :: lexemes (k + byteLength token.chars) after := by
  cases h with
  | word hname hmax => exact lexemes_word hname hmax k
  | @mark c hblank hname =>
    rw [Token.chars_ofMark, List.singleton_append, lexemes_mark hblank hname]
    rfl

/-- A token stays cut off when only a front of the text behind it is left. -/
theorem Token.CutFrom.front {a b : List Char} (h : token.CutFrom (a ++ b)) : token.CutFrom a := by
  cases h with
  | word hname hmax =>
    refine .word hname fun c hc => hmax c ?_
    obtain ⟨as, rfl⟩ := List.head?_eq_some_iff.mp hc
    rfl
  | mark hblank hname => exact .mark hblank hname

/-- A first lexeme is cut off from the text behind it, with blanks before it. -/
theorem exists_cutFrom (h : lexemes k cs = l :: rest) :
    ∃ before after, CutAt k cs [] l rest before after := by
  fun_induction lexemes k cs with
  | case1 => simp at h
  | case2 k c cs hblank ih =>
    obtain ⟨before, after, hcut⟩ := ih h
    refine ⟨c :: before, after, by rw [hcut.text_eq]; rfl, ?_, ?_, hcut.lexemes_after, hcut.cutFrom⟩
    · rw [hcut.offset_eq, byteLength, Nat.add_assoc]
    · rw [lexemes_blank hblank, hcut.lexemes_before]
  | case3 k c cs hblank hname more ih =>
    obtain ⟨rfl, rfl⟩ := List.cons.inj h
    have hmax : ∀ d ∈ (cs.dropWhile isNameChar).head?, isNameChar d = false := by
      intro d hd
      have hstop := List.head?_dropWhile_not isNameChar cs
      rw [hd] at hstop
      simpa using hstop
    have hchars : ∀ d ∈ c :: more, isNameChar d = true := by
      intro d hd
      rcases List.mem_cons.mp hd with rfl | hd
      · exact hname
      · exact List.mem_takeWhile_imp hd
    refine ⟨[], cs.dropWhile isNameChar, ?_, rfl, by rw [lexemes], rfl, .word hchars hmax⟩
    exact congrArg (c :: ·) List.takeWhile_append_dropWhile.symm
  | case4 k c cs hblank hname ih =>
    obtain ⟨rfl, rfl⟩ := List.cons.inj h
    refine ⟨[], cs, ?_, rfl, by rw [lexemes], ?_,
      .mark (by simpa using hblank) (by simpa using hname)⟩
    · rw [Token.chars_ofMark]
      rfl
    · rw [Token.chars_ofMark]
      rfl

/-- In front of each of its lexemes a text can be cut. -/
theorem exists_cutAt (h : lexemes k cs = used ++ l :: rest) :
    ∃ before after, CutAt k cs used l rest before after := by
  induction used generalizing k cs with
  | nil => exact exists_cutFrom h
  | cons u used ih =>
    obtain ⟨blanks, behind, hfirst⟩ := exists_cutFrom h
    obtain ⟨before, after, hcut⟩ := ih hfirst.lexemes_after
    have hu : u.token.CutFrom before := by
      have hfront := hfirst.cutFrom
      rw [hcut.text_eq] at hfront
      exact hfront.front
    refine ⟨blanks ++ (u.token.chars ++ before), after, ?_, ?_, ?_, hcut.lexemes_after,
      hcut.cutFrom⟩
    · rw [hfirst.text_eq, hcut.text_eq]
      simp only [List.append_assoc]
    · rw [hcut.offset_eq, hfirst.offset_eq, byteLength_append, byteLength_append]
      omega
    · rw [lexemes_blanks_append (lexemes_eq_nil_iff.mp hfirst.lexemes_before), hu.lexemes_eq,
        ← hfirst.offset_eq, hcut.lexemes_before]

end TruthTrees
