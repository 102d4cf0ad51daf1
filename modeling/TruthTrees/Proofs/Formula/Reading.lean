import TruthTrees.Formula.Parser
import TruthTrees.Proofs.Formula.Tokens

/-! The reader accepts exactly the grammar. What it reads from the front of some lexemes spells the
formula that it gives, and what spells a formula is read, unless a bracket behind it would turn a
name into a call. -/
namespace TruthTrees

namespace Formula

def Reads (ls : List Lexeme) (φ : Formula) (rest : List Lexeme) : Prop :=
  ∃ h, readFormula ls = .ok (φ, ⟨rest, h⟩)

def ReadsArguments (ls : List Lexeme) (φs : List Formula) (rest : List Lexeme) : Prop :=
  ∃ h, readArguments ls = .ok (φs, ⟨rest, h⟩)

section Steps

variable {k m : Nat} {first : Char} {more : List Char} {inner ls rest : List Lexeme} {φ : Formula}
  {φs : List Formula}

theorem reads_of_eq {after : Rest ls} (h : readFormula ls = .ok (φ, after)) :
    Reads ls φ after.val := ⟨after.property, h⟩

/-- A formula in brackets is read like the formula, and then the bracket. -/
theorem reads_opening_iff : Reads (⟨.opening, k⟩ :: inner) φ rest ↔
    ∃ m, Reads inner φ (⟨.closing, m⟩ :: rest) := by
  constructor
  · rintro ⟨hlt, h⟩
    rw [readFormula] at h
    split at h
    · simp at h
    · rename_i ψ after hread
      split at h
      · rename_i hafter
        obtain ⟨rfl, hrest⟩ := Prod.mk.inj (Except.ok.inj h)
        obtain rfl := congrArg Subtype.val hrest
        exact ⟨_, hafter ▸ reads_of_eq hread⟩
      · simp at h
  · rintro ⟨m, hlt, h⟩
    refine ⟨?_, ?_⟩
    · simp only [List.length_cons] at hlt ⊢
      omega
    · rw [readFormula]
      simp only [h]

/-- A call is read through its arguments. -/
theorem reads_call_iff :
    Reads (⟨.word first more, k⟩ :: ⟨.opening, m⟩ :: inner) φ rest ↔
      ∃ φs, ReadsArguments inner φs rest ∧ ofCall (String.ofList (first :: more)) k φs = .ok φ := by
  constructor
  · rintro ⟨hlt, h⟩
    rw [readFormula] at h
    split at h
    · simp at h
    · rename_i φs after hread
      split at h
      · simp at h
      · rename_i ψ hcall
        obtain ⟨rfl, hrest⟩ := Prod.mk.inj (Except.ok.inj h)
        obtain rfl := congrArg Subtype.val hrest
        exact ⟨φs, ⟨after.property, hread⟩, hcall⟩
  · rintro ⟨φs, ⟨hlt, hread⟩, hcall⟩
    refine ⟨?_, ?_⟩
    · simp only [List.length_cons]
      omega
    · rw [readFormula]
      simp only [hread, hcall]

/-- A name that is not followed by an opening bracket is a literal. -/
theorem reads_name_iff (hls : ∀ l ∈ ls.head?, l.token ≠ .opening) :
    Reads (⟨.word first more, k⟩ :: ls) φ rest ↔
      φ = .literal (String.ofList (first :: more)) ∧ rest = ls := by
  have hread : readFormula (⟨.word first more, k⟩ :: ls) =
      .ok (.literal (String.ofList (first :: more)), ⟨ls, by simp⟩) := by
    rw [readFormula]
    rintro m inner rfl
    exact hls _ rfl rfl
  constructor
  · rintro ⟨hlt, h⟩
    rw [hread] at h
    obtain ⟨rfl, hrest⟩ := Prod.mk.inj (Except.ok.inj h)
    exact ⟨rfl, (congrArg Subtype.val hrest).symm⟩
  · rintro ⟨rfl, rfl⟩
    exact ⟨by simp, hread⟩

/-- A formula starts with an opening bracket or a name. -/
theorem Reads.head (h : Reads ls φ rest) : (∃ k inner, ls = ⟨.opening, k⟩ :: inner) ∨
    ∃ first more k inner, ls = ⟨.word first more, k⟩ :: inner := by
  obtain ⟨hlt, h⟩ := h
  cases ls with
  | nil => simp at hlt
  | cons l inner =>
    obtain ⟨token, k⟩ := l
    cases token with
    | opening => exact Or.inl ⟨k, inner, rfl⟩
    | word first more => exact Or.inr ⟨first, more, k, inner, rfl⟩
    | closing | comma | stray => simp [readFormula] at h

theorem readsArguments_iff : ReadsArguments ls φs rest ↔
    (∃ φ m, Reads ls φ (⟨.closing, m⟩ :: rest) ∧ φs = [φ]) ∨
    ∃ φ m inner ψs, Reads ls φ (⟨.comma, m⟩ :: inner) ∧ ReadsArguments inner ψs rest ∧
      φs = φ :: ψs := by
  constructor
  · rintro ⟨hlt, h⟩
    rw [readArguments] at h
    split at h
    · simp at h
    · rename_i φ after hread
      split at h
      · rename_i m inner hafter
        split at h
        · simp at h
        · rename_i ψs after' hmore
          obtain ⟨rfl, hrest⟩ := Prod.mk.inj (Except.ok.inj h)
          obtain rfl := congrArg Subtype.val hrest
          exact Or.inr ⟨φ, m, inner, ψs, hafter ▸ reads_of_eq hread, ⟨after'.property, hmore⟩, rfl⟩
      · rename_i m _ hafter
        obtain ⟨rfl, hrest⟩ := Prod.mk.inj (Except.ok.inj h)
        obtain rfl := congrArg Subtype.val hrest
        exact Or.inl ⟨φ, m, hafter ▸ reads_of_eq hread, rfl⟩
      · simp at h
  · rintro (⟨φ, m, ⟨hlt, hread⟩, rfl⟩ | ⟨φ, m, inner, ψs, ⟨hlt, hread⟩, ⟨hlt', hmore⟩, rfl⟩)
    · refine ⟨?_, ?_⟩
      · simp only [List.length_cons] at hlt
        omega
      · rw [readArguments]
        simp only [hread]
    · refine ⟨?_, ?_⟩
      · simp only [List.length_cons] at hlt
        omega
      · rw [readArguments]
        simp only [hread, hmore]

end Steps

/-- The token sequences that spell the arguments of a call, the closing bracket included. -/
inductive DerivesArguments : List Token → List Formula → Prop
  | last {ts : List Token} {φ : Formula} (h : Derives ts φ) :
    DerivesArguments (ts ++ [.closing]) [φ]
  | more {ts us : List Token} {φ : Formula} {φs : List Formula} (h : Derives ts φ)
      (hs : DerivesArguments us φs) : DerivesArguments (ts ++ .comma :: us) (φ :: φs)

theorem names_iff {first : Char} {more : List Char} {op : Operator} :
    (Token.word first more).Names op ↔
      Operator.ofName? (String.ofList (first :: more)) = some op := by
  unfold Token.Names Operator.ofName?
  rw [String.toList_ofList]
  generalize hname : (first :: more).map Char.toLower = name
  constructor
  · rintro ⟨_, _, heq, hop⟩
    obtain ⟨rfl, rfl⟩ := Token.word.inj heq
    rw [hname] at hop
    subst hop
    cases op <;> rfl
  · intro h
    refine ⟨first, more, rfl, ?_⟩
    rw [hname]
    split at h <;> cases h <;> rfl

theorem derivesArguments_single {ts : List Token} {φ : Formula} (h : DerivesArguments ts [φ]) :
    ∃ us, ts = us ++ [.closing] ∧ Derives us φ := by
  cases h with
  | last h => exact ⟨_, rfl, h⟩
  | more _ hs => cases hs

theorem derivesArguments_pair {ts : List Token} {φ ψ : Formula}
    (h : DerivesArguments ts [φ, ψ]) : ∃ us vs, ts = us ++ .comma :: (vs ++ [.closing]) ∧
      Derives us φ ∧ Derives vs ψ := by
  cases h with
  | more h hs =>
    obtain ⟨vs, rfl, h'⟩ := derivesArguments_single hs
    exact ⟨_, vs, rfl, h, h'⟩

/-- A call by the name of an operator spells the formula that the operator makes of the arguments.
-/
theorem derives_of_ofCall {first : Char} {more : List Char} {k : Nat} {φ : Formula}
    {φs : List Formula} {ts : List Token} (hargs : DerivesArguments ts φs)
    (hcall : ofCall (String.ofList (first :: more)) k φs = .ok φ) :
    Derives (.word first more :: .opening :: ts) φ := by
  unfold ofCall at hcall
  split at hcall
  · simp at hcall
  · rename_i op hop
    have hw := names_iff.mpr hop
    split at hcall
    · obtain rfl := Except.ok.inj hcall
      obtain ⟨us, rfl, h⟩ := derivesArguments_single hargs
      exact .not hw h
    · obtain rfl := Except.ok.inj hcall
      obtain ⟨us, vs, rfl, hl, hr⟩ := derivesArguments_pair hargs
      exact .and hw hl hr
    · obtain rfl := Except.ok.inj hcall
      obtain ⟨us, vs, rfl, hl, hr⟩ := derivesArguments_pair hargs
      exact .or hw hl hr
    · obtain rfl := Except.ok.inj hcall
      obtain ⟨us, vs, rfl, hl, hr⟩ := derivesArguments_pair hargs
      exact .imp hw hl hr
    · obtain rfl := Except.ok.inj hcall
      obtain ⟨us, vs, rfl, hl, hr⟩ := derivesArguments_pair hargs
      exact .iff hw hl hr
    · simp at hcall

/-- What the reader takes from the front spells the formula, or the arguments, that it gives. -/
theorem derives_of_reads_all (n : Nat) :
    (∀ ls φ rest, ls.length ≤ n → Reads ls φ rest →
      ∃ used, ls = used ++ rest ∧ Derives (used.map Lexeme.token) φ) ∧
    ∀ ls φs rest, ls.length ≤ n → ReadsArguments ls φs rest →
      ∃ used, ls = used ++ rest ∧ DerivesArguments (used.map Lexeme.token) φs := by
  -- The arguments of a call are read from a shorter list, and the first of them from the same one.
  induction n with
  | zero =>
    constructor
    · rintro ls φ rest hlen ⟨hlt, -⟩
      omega
    · rintro ls φs rest hlen ⟨hlt, -⟩
      omega
  | succ n ih =>
    have hformula : ∀ ls φ rest, ls.length ≤ n + 1 → Reads ls φ rest →
        ∃ used, ls = used ++ rest ∧ Derives (used.map Lexeme.token) φ := by
      intro ls φ rest hlen h
      rcases h.head with ⟨k, inner, rfl⟩ | ⟨first, more, k, inner, rfl⟩
      · obtain ⟨m, h⟩ := reads_opening_iff.mp h
        obtain ⟨used, rfl, hused⟩ := ih.1 inner φ _ (by simpa using hlen) h
        refine ⟨⟨.opening, k⟩ :: (used ++ [⟨.closing, m⟩]), by simp, ?_⟩
        simpa using Derives.bracket hused
      · by_cases hcall : ∃ m tail, inner = ⟨.opening, m⟩ :: tail
        · obtain ⟨m, tail, rfl⟩ := hcall
          obtain ⟨φs, hargs, hφ⟩ := reads_call_iff.mp h
          simp only [List.length_cons] at hlen
          obtain ⟨used, rfl, hused⟩ := ih.2 tail φs rest (by omega) hargs
          exact ⟨⟨.word first more, k⟩ :: ⟨.opening, m⟩ :: used, rfl, derives_of_ofCall hused hφ⟩
        · have hinner : ∀ l ∈ inner.head?, l.token ≠ .opening := by
            rintro ⟨token, m⟩ hl rfl
            obtain ⟨tail, rfl⟩ := List.head?_eq_some_iff.mp hl
            exact hcall ⟨m, tail, rfl⟩
          obtain ⟨rfl, rfl⟩ := (reads_name_iff hinner).mp h
          exact ⟨[⟨.word first more, k⟩], rfl, .literal first more⟩
    refine ⟨hformula, ?_⟩
    intro ls φs rest hlen h
    rcases readsArguments_iff.mp h with ⟨φ, m, hφ, rfl⟩ | ⟨φ, m, inner, ψs, hφ, hmore, rfl⟩
    · obtain ⟨used, rfl, hused⟩ := hformula ls φ _ hlen hφ
      refine ⟨used ++ [⟨.closing, m⟩], by simp, ?_⟩
      simpa using DerivesArguments.last hused
    · obtain ⟨used, rfl, hused⟩ := hformula ls φ _ hlen hφ
      simp only [List.length_append, List.length_cons] at hlen
      obtain ⟨used', rfl, hused'⟩ := ih.2 inner ψs rest (by omega) hmore
      refine ⟨used ++ ⟨.comma, m⟩ :: used', by simp, ?_⟩
      simpa using DerivesArguments.more hused hused'

/-- Lexemes of these tokens are read as the formula, unless an opening bracket stands behind them.
-/
def Readable (ts : List Token) (φ : Formula) : Prop :=
  ∀ used rest, used.map Lexeme.token = ts → (∀ l ∈ rest.head?, l.token ≠ .opening) →
    Reads (used ++ rest) φ rest

def ReadableArguments (ts : List Token) (φs : List Formula) : Prop :=
  ∀ used rest, used.map Lexeme.token = ts → ReadsArguments (used ++ rest) φs rest

section Readable

variable {ts us : List Token} {φ : Formula} {φs : List Formula}

/-- Lexemes whose first token is known. -/
theorem exists_of_map_cons {used : List Lexeme} {token : Token}
    (h : used.map Lexeme.token = token :: ts) :
    ∃ k inner, used = ⟨token, k⟩ :: inner ∧ inner.map Lexeme.token = ts := by
  obtain ⟨⟨token, k⟩, inner, rfl, rfl, hinner⟩ := List.map_eq_cons_iff.mp h
  exact ⟨k, inner, rfl, hinner⟩

/-- A formula is read up to a token behind it that is no opening bracket. -/
theorem Readable.stop (h : Readable ts φ) {token : Token} (htoken : token ≠ .opening)
    {used : List Lexeme} (hused : used.map Lexeme.token = ts ++ token :: us) (rest : List Lexeme) :
    ∃ m inner, inner.map Lexeme.token = us ∧
      Reads (used ++ rest) φ (⟨token, m⟩ :: (inner ++ rest)) := by
  obtain ⟨front, back, rfl, hfront, hback⟩ := List.map_eq_append_iff.mp hused
  obtain ⟨m, inner, rfl, hinner⟩ := exists_of_map_cons hback
  refine ⟨m, inner, hinner, ?_⟩
  have hread := h front (⟨token, m⟩ :: (inner ++ rest)) hfront (by simpa using htoken)
  simpa using hread

theorem Readable.last (h : Readable ts φ) : ReadableArguments (ts ++ [.closing]) [φ] := by
  intro used rest hused
  obtain ⟨m, inner, hinner, hread⟩ := h.stop (by simp) hused rest
  obtain rfl := List.map_eq_nil_iff.mp hinner
  exact readsArguments_iff.mpr (Or.inl ⟨φ, m, hread, rfl⟩)

theorem Readable.more (h : Readable ts φ) (hs : ReadableArguments us φs) :
    ReadableArguments (ts ++ .comma :: us) (φ :: φs) := by
  intro used rest hused
  obtain ⟨m, inner, hinner, hread⟩ := h.stop (by simp) hused rest
  exact readsArguments_iff.mpr (Or.inr ⟨φ, m, _, φs, hread, hs inner rest hinner, rfl⟩)

theorem Readable.bracket (h : Readable ts φ) : Readable (.opening :: (ts ++ [.closing])) φ := by
  intro used rest hused _
  obtain ⟨k, inner, rfl, hinner⟩ := exists_of_map_cons hused
  obtain ⟨m, inner', hinner', hread⟩ := h.stop (by simp) hinner rest
  obtain rfl := List.map_eq_nil_iff.mp hinner'
  exact reads_opening_iff.mpr ⟨m, hread⟩

/-- A call of an operator by its name is read as what the operator makes of the arguments. -/
theorem readable_call {w : Token} {op : Operator} (hw : w.Names op)
    (hs : ReadableArguments ts φs)
    (hcall : ∀ name k, Operator.ofName? name = some op → ofCall name k φs = .ok φ) :
    Readable (w :: .opening :: ts) φ := by
  intro used rest hused _
  obtain ⟨first, more, rfl, hname⟩ := hw
  obtain ⟨k, tail, rfl, htail⟩ := exists_of_map_cons hused
  obtain ⟨m, inner, rfl, hinner⟩ := exists_of_map_cons htail
  have hop := names_iff.mp ⟨first, more, rfl, hname⟩
  exact reads_call_iff.mpr ⟨φs, hs inner rest hinner, hcall _ k hop⟩

end Readable

/-- Whatever the grammar derives can be read, in front of any rest. -/
theorem readable_of_derives {ts : List Token} {φ : Formula} (h : Derives ts φ) :
    Readable ts φ := by
  induction h with
  | literal first more =>
    intro used rest hused hrest
    obtain ⟨k, inner, rfl, hinner⟩ := exists_of_map_cons hused
    obtain rfl := List.map_eq_nil_iff.mp hinner
    exact (reads_name_iff hrest).mpr ⟨rfl, rfl⟩
  | bracket _ ih => exact ih.bracket
  | not hw _ ih => exact readable_call hw ih.last (fun _ _ h => by simp only [ofCall, h])
  | and hw _ _ ihl ihr =>
    exact readable_call hw (ihl.more ihr.last) (fun _ _ h => by simp only [ofCall, h])
  | or hw _ _ ihl ihr =>
    exact readable_call hw (ihl.more ihr.last) (fun _ _ h => by simp only [ofCall, h])
  | imp hw _ _ ihl ihr =>
    exact readable_call hw (ihl.more ihr.last) (fun _ _ h => by simp only [ofCall, h])
  | iff hw _ _ ihl ihr =>
    exact readable_call hw (ihl.more ihr.last) (fun _ _ h => by simp only [ofCall, h])

/-- What is read to the end is derived by the grammar. -/
theorem Reads.derives {ls : List Lexeme} {φ : Formula} (h : Reads ls φ []) :
    Derives (ls.map Lexeme.token) φ := by
  obtain ⟨used, rfl, hused⟩ := (derives_of_reads_all ls.length).1 ls φ [] (le_refl _) h
  simpa using hused

/-- A list of lexemes is accepted when it is read to its end. -/
theorem ofLexemes_ok_iff {ls : List Lexeme} {φ : Formula} :
    ofLexemes ls = .ok φ ↔ Reads ls φ [] := by
  constructor
  · intro h
    unfold ofLexemes at h
    split at h
    · simp at h
    · split at h
      · simp at h
      · rename_i hread
        obtain rfl := Except.ok.inj h
        exact ⟨_, hread⟩
      · simp at h
  · rintro ⟨hlt, hread⟩
    cases ls with
    | nil => simp at hlt
    | cons l ls => simp only [ofLexemes, hread]

/-- A text is accepted exactly when the grammar derives its tokens. -/
theorem parse_ok_iff_derives {text : String} {φ : Formula} :
    parse text = .ok φ ↔ Derives ((lexemes 0 text.toList).map Lexeme.token) φ := by
  unfold parse
  rw [ofLexemes_ok_iff]
  refine ⟨Reads.derives, fun h => ?_⟩
  simpa using readable_of_derives h _ [] rfl (by simp)

/-- No stray character stands among the tokens of a formula. -/
theorem stray_notMem_of_derives {ts : List Token} {φ : Formula} (h : Derives ts φ) (c : Char) :
    .stray c ∉ ts := by
  have hword {w : Token} {op : Operator} (hw : w.Names op) : .stray c ≠ w := by
    rintro rfl
    obtain ⟨_, _, heq, _⟩ := hw
    simp at heq
  induction h with
  | literal first more => simp
  | bracket _ ih => simpa using ih
  | not hw _ ih => simpa [hword hw] using ih
  | and hw _ _ ihl ihr => simpa [hword hw] using ⟨ihl, ihr⟩
  | or hw _ _ ihl ihr => simpa [hword hw] using ⟨ihl, ihr⟩
  | imp hw _ _ ihl ihr => simpa [hword hw] using ⟨ihl, ihr⟩
  | iff hw _ _ ihl ihr => simpa [hword hw] using ⟨ihl, ihr⟩

theorem exists_tokenizes_of_parse {text : String} {φ : Formula} (h : parse text = .ok φ) :
    ∃ ts, Tokenizes text.toList ts ∧ Derives ts φ := by
  have hts := parse_ok_iff_derives.mp h
  exact ⟨_, tokenizes_of_lexemes (stray_notMem_of_derives hts), hts⟩

theorem parse_of_tokenizes {text : String} {ts : List Token} {φ : Formula}
    (hcut : Tokenizes text.toList ts) (h : Derives ts φ) : parse text = .ok φ := by
  rw [parse_ok_iff_derives, hcut.map_token_lexemes]
  exact h

/-- A text is read as a formula exactly if it is cut into tokens that spell the formula. -/
theorem parse_ok_iff_grammar (text : String) (φ : Formula) :
    parse text = .ok φ ↔ ∃ ts, Tokenizes text.toList ts ∧ Derives ts φ :=
  ⟨exists_tokenizes_of_parse, fun ⟨_, hcut, h⟩ => parse_of_tokenizes hcut h⟩

end Formula

end TruthTrees
