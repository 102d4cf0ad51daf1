import TruthTrees.Proofs.Formula.Reading

/-! Canonical text is read back. A literal may be named like an operator: it is told from a call by
what stands behind it, and canonical text writes an opening bracket behind operators only. -/
namespace TruthTrees

instance (c : Char) : Decidable (NameChar c) :=
  decidable_of_iff _ (isNameChar_iff c)

def Operator.token : Operator → Token
  | not => .word 'n' ['o', 't']
  | and => .word 'a' ['n', 'd']
  | or => .word 'o' ['r']
  | imp => .word 'i' ['f']
  | iff => .word 'i' ['f', 'f']

theorem Operator.names_token (op : Operator) : op.token.Names op := by
  cases op <;> exact ⟨_, _, rfl, by decide⟩

namespace Formula

def names : Formula → List String
  | literal name => [name]
  | not φ => φ.names
  | and l r | or l r | imp l r | iff l r => l.names ++ r.names

def WellNamed (φ : Formula) : Prop :=
  ∀ name ∈ φ.names, name ≠ "" ∧ ∀ c ∈ name.toList, NameChar c

instance (φ : Formula) : Decidable φ.WellNamed :=
  -- `Char` is a finite type, and its own instance for quantifiers would try every character.
  decidable_of_iff (φ.names.all (fun name => name != "" && name.toList.all isNameChar) = true)
    (by simp [WellNamed, isNameChar_iff])

def tokens : Formula → List Token
  | literal name =>
    match name.toList with
    | [] => []
    | first :: rest => [.word first rest]
  | not φ => Operator.not.token :: .opening :: (φ.tokens ++ [.closing])
  | and l r => Operator.and.token :: .opening :: (l.tokens ++ .comma :: (r.tokens ++ [.closing]))
  | or l r => Operator.or.token :: .opening :: (l.tokens ++ .comma :: (r.tokens ++ [.closing]))
  | imp l r => Operator.imp.token :: .opening :: (l.tokens ++ .comma :: (r.tokens ++ [.closing]))
  | iff l r => Operator.iff.token :: .opening :: (l.tokens ++ .comma :: (r.tokens ++ [.closing]))

/-- A text is cut into the tokens in front of anything that does not go on with a name. -/
def CutsInto (text : List Char) (ts : List Token) : Prop :=
  ∀ cs us, (∀ c ∈ cs.head?, ¬ NameChar c) → Tokenizes cs us → Tokenizes (text ++ cs) (ts ++ us)

section Cutting

variable {a b : List Char} {ts us : List Token}

theorem cutsInto_word {first : Char} {rest : List Char} (h : ∀ c ∈ first :: rest, NameChar c) :
    CutsInto (first :: rest) [.word first rest] :=
  fun _ _ hstop hcut => .word h hstop hcut

/-- A name ends in front of a bracket or a comma. -/
theorem not_nameChar_of_mark {c : Char} (hc : c = '(' ∨ c = ')' ∨ c = ',') (cs : List Char) :
    ∀ d ∈ (c :: cs).head?, ¬ NameChar d := by
  intro d hd
  obtain rfl : c = d := by simpa using hd
  rcases hc with rfl | rfl | rfl <;> decide

theorem CutsInto.closing (h : CutsInto a ts) : CutsInto (a ++ [')']) (ts ++ [.closing]) := by
  intro cs vs _ hcut
  have hfront := h (')' :: cs) _ (not_nameChar_of_mark (by decide) _) hcut.closing
  simpa using hfront

theorem CutsInto.comma (h : CutsInto a ts) (h' : CutsInto b us) :
    CutsInto (a ++ ',' :: b) (ts ++ .comma :: us) := by
  intro cs vs hstop hcut
  have hback := h' cs vs hstop hcut
  have hfront := h (',' :: (b ++ cs)) _ (not_nameChar_of_mark (by decide) _) hback.comma
  simpa using hfront

theorem CutsInto.call (op : Operator) (h : CutsInto a ts) :
    CutsInto (op.name.toList ++ '(' :: a) (op.token :: .opening :: ts) := by
  intro cs vs hstop hcut
  have hall : op.name.toList.all isNameChar = true := by
    cases op <;> decide
  have hchars : ∀ c ∈ op.name.toList, NameChar c := fun c hc =>
    (isNameChar_iff c).mp (List.all_eq_true.mp hall c hc)
  have hname : CutsInto op.name.toList [op.token] := by
    cases op <;> exact cutsInto_word hchars
  have hargs := h cs vs hstop hcut
  have hfront := hname ('(' :: (a ++ cs)) _ (not_nameChar_of_mark (by decide) _) hargs.opening
  simpa using hfront

theorem CutsInto.binary (op : Operator) (hl : CutsInto a ts) (hr : CutsInto b us) :
    CutsInto (op.name.toList ++ '(' :: (a ++ ',' :: (b ++ [')'])))
      (op.token :: .opening :: (ts ++ .comma :: (us ++ [.closing]))) :=
  (hl.comma hr.closing).call op

end Cutting

/-- The text of a well-named formula is cut into the tokens of the formula. -/
theorem cutsInto_tokens {φ : Formula} (h : φ.WellNamed) : CutsInto φ.text.toList φ.tokens := by
  induction φ with
  | literal name =>
    obtain ⟨hne, hchars⟩ := h name (List.mem_singleton_self name)
    simp only [text, tokens]
    split
    · rename_i hnil
      exact absurd (String.toList_eq_nil_iff.mp hnil) hne
    · rename_i first rest hname
      rw [hname] at hchars ⊢
      exact cutsInto_word hchars
  | not φ ih => simpa [text, tokens, Operator.name] using (ih h).closing.call .not
  | and l r ihl ihr =>
    obtain ⟨hl, hr⟩ := List.forall_mem_append.mp h
    simpa [text, tokens, Operator.name] using (ihl hl).binary .and (ihr hr)
  | or l r ihl ihr =>
    obtain ⟨hl, hr⟩ := List.forall_mem_append.mp h
    simpa [text, tokens, Operator.name] using (ihl hl).binary .or (ihr hr)
  | imp l r ihl ihr =>
    obtain ⟨hl, hr⟩ := List.forall_mem_append.mp h
    simpa [text, tokens, Operator.name] using (ihl hl).binary .imp (ihr hr)
  | iff l r ihl ihr =>
    obtain ⟨hl, hr⟩ := List.forall_mem_append.mp h
    simpa [text, tokens, Operator.name] using (ihl hl).binary .iff (ihr hr)

/-- The grammar derives a formula from its own tokens. -/
theorem derives_tokens {φ : Formula} (h : φ.WellNamed) : Derives φ.tokens φ := by
  induction φ with
  | literal name =>
    have hne := (h name (List.mem_singleton_self name)).1
    simp only [tokens]
    split
    · rename_i hnil
      exact absurd (String.toList_eq_nil_iff.mp hnil) hne
    · rename_i first rest hname
      rw [← String.ofList_toList (s := name), hname]
      exact .literal first rest
  | not φ ih => exact .not (Operator.names_token _) (ih h)
  | and l r ihl ihr =>
    obtain ⟨hl, hr⟩ := List.forall_mem_append.mp h
    exact .and (Operator.names_token _) (ihl hl) (ihr hr)
  | or l r ihl ihr =>
    obtain ⟨hl, hr⟩ := List.forall_mem_append.mp h
    exact .or (Operator.names_token _) (ihl hl) (ihr hr)
  | imp l r ihl ihr =>
    obtain ⟨hl, hr⟩ := List.forall_mem_append.mp h
    exact .imp (Operator.names_token _) (ihl hl) (ihr hr)
  | iff l r ihl ihr =>
    obtain ⟨hl, hr⟩ := List.forall_mem_append.mp h
    exact .iff (Operator.names_token _) (ihl hl) (ihr hr)

theorem parse_text_of_wellNamed {φ : Formula} (h : φ.WellNamed) : parse φ.text = .ok φ := by
  have hcut := cutsInto_tokens h [] [] (by simp) .nil
  simp only [List.append_nil] at hcut
  exact parse_of_tokenizes hcut (derives_tokens h)

/-- Canonical text tells formulas apart, as long as their names can be written. -/
theorem eq_of_text_eq {φ ψ : Formula} (hφ : φ.WellNamed) (hψ : ψ.WellNamed)
    (h : φ.text = ψ.text) : φ = ψ := by
  have hread := parse_text_of_wellNamed hφ
  rw [h, parse_text_of_wellNamed hψ] at hread
  exact (Except.ok.inj hread).symm

theorem nameChar_of_tokenizes {cs : List Char} {ts : List Token} (h : Tokenizes cs ts)
    {first : Char} {rest : List Char} (hmem : .word first rest ∈ ts) :
    ∀ c ∈ first :: rest, NameChar c := by
  induction h with
  | nil => simp at hmem
  | blank _ _ ih => exact ih hmem
  | word hname _ _ ih =>
    rcases List.mem_cons.mp hmem with heq | hmem
    · obtain ⟨rfl, rfl⟩ := Token.word.inj heq
      exact hname
    · exact ih hmem
  | opening _ ih | closing _ ih | comma _ ih => exact ih (by simpa using hmem)

/-- The name of a literal stands among the tokens that spell the formula. -/
theorem exists_word_of_derives {ts : List Token} {φ : Formula} (h : Derives ts φ) {name : String}
    (hname : name ∈ φ.names) :
    ∃ first rest, .word first rest ∈ ts ∧ name = String.ofList (first :: rest) := by
  induction h with
  | literal first rest => exact ⟨first, rest, by simp, List.mem_singleton.mp hname⟩
  | bracket _ ih | not _ _ ih =>
    obtain ⟨first, rest, hmem, rfl⟩ := ih hname
    exact ⟨first, rest, by simp [hmem], rfl⟩
  | and _ _ _ ihl ihr | or _ _ _ ihl ihr | imp _ _ _ ihl ihr | iff _ _ _ ihl ihr =>
    rcases List.mem_append.mp hname with hname | hname
    · obtain ⟨first, rest, hmem, rfl⟩ := ihl hname
      exact ⟨first, rest, by simp [hmem], rfl⟩
    · obtain ⟨first, rest, hmem, rfl⟩ := ihr hname
      exact ⟨first, rest, by simp [hmem], rfl⟩

/-- A formula that has been read is well named. -/
theorem wellNamed_of_parse {text : String} {φ : Formula} (h : parse text = .ok φ) :
    φ.WellNamed := by
  intro name hname
  obtain ⟨ts, hcut, hspell⟩ := exists_tokenizes_of_parse h
  obtain ⟨first, rest, hmem, rfl⟩ := exists_word_of_derives hspell hname
  refine ⟨by simp, ?_⟩
  rw [String.toList_ofList]
  exact nameChar_of_tokenizes hcut hmem

/-- Every formula whose names can be written is read back from its canonical text. What is read from
any text is such a formula, so it is read back too, and canonical text tells what is read apart. -/
theorem parse_text_exact :
    (∀ φ : Formula, φ.WellNamed → parse φ.text = .ok φ) ∧
    (∀ (text : String) (φ : Formula), parse text = .ok φ →
      φ.WellNamed ∧ parse φ.text = .ok φ) ∧
    ∀ (s t : String) (φ ψ : Formula), parse s = .ok φ → parse t = .ok ψ →
      φ.text = ψ.text → φ = ψ := by
  refine ⟨fun φ h => parse_text_of_wellNamed h, ?_, ?_⟩
  · intro text φ h
    have hnamed := wellNamed_of_parse h
    exact ⟨hnamed, parse_text_of_wellNamed hnamed⟩
  · intro s t φ ψ hφ hψ
    exact eq_of_text_eq (wellNamed_of_parse hφ) (wellNamed_of_parse hψ)

/-- Literals that are named like operators are read back as literals, however the text was blanked,
bracketed and capitalized. -/
theorem parse_text_exact_operator_names :
    let φ := iff (literal "not") (not (literal "IFF"))
    φ.WellNamed ∧ parse "Iff ( not, (NOT(IFF)) )" = .ok φ ∧ parse "iff(not,not(IFF))" = .ok φ := by
  intro φ
  have hread : parse "Iff ( not, (NOT(IFF)) )" = .ok φ := by decide +kernel
  obtain ⟨hnamed, hback⟩ := parse_text_exact.2.1 _ φ hread
  exact ⟨hnamed, hread, hback⟩

end Formula

end TruthTrees
