import TruthTrees.Proofs.Formula.Cutting
import TruthTrees.Proofs.Formula.Reading

/-! Why a text is no formula, and where. The reader is first opened one step at a time. Whatever it
reports is then a fault of the lexemes that it was given: one that is not what was expected, or a
name that is called and is no operator of so many arguments. A lexeme names the byte at which it
stands, so the fault is found at that byte of the text. -/
namespace TruthTrees.Formula

variable {ls inner rest used : List Lexeme} {φ : Formula} {φs : List Formula} {k m : Nat}
  {first : Char} {more : List Char} {e : SyntaxError} {expected : Expectation}

def scan (ls : List Lexeme) : Except SyntaxError (Formula × List Lexeme) :=
  (readFormula ls).map (fun p => (p.1, p.2.val))

def scanArguments (ls : List Lexeme) : Except SyntaxError (List Formula × List Lexeme) :=
  (readArguments ls).map (fun p => (p.1, p.2.val))

def scanClosing (φ : Formula) : List Lexeme → Except SyntaxError (Formula × List Lexeme)
  | ⟨.closing, _⟩ :: rest => .ok (φ, rest)
  | rest => .error (unexpected .closing rest)

def scanFurther : List Lexeme → Except SyntaxError (List Formula × List Lexeme)
  | ⟨.comma, _⟩ :: more => scanArguments more
  | ⟨.closing, _⟩ :: rest => .ok ([], rest)
  | rest => .error (unexpected .separator rest)

theorem scan_opening : scan (⟨.opening, k⟩ :: inner) =
    (scan inner).bind (fun p => scanClosing p.1 p.2) := by
  unfold scan
  rw [readFormula]
  cases readFormula inner with
  | error e => rfl
  | ok p =>
    obtain ⟨φ, ⟨_ | ⟨⟨token, m⟩, rest⟩, hlt⟩⟩ := p
    · rfl
    · cases token <;> rfl

/-- A word before an opening bracket is a call, judged once its arguments are read. -/
theorem scan_call : scan (⟨.word first more, k⟩ :: ⟨.opening, m⟩ :: inner) =
    (scanArguments inner).bind (fun p =>
      (ofCall (String.ofList (first :: more)) k p.1).map (fun φ => (φ, p.2))) := by
  unfold scan scanArguments
  rw [readFormula]
  cases readArguments inner with
  | error e => rfl
  | ok p =>
    obtain ⟨φs, after⟩ := p
    simp only [Except.map, Except.bind]
    cases ofCall (String.ofList (first :: more)) k φs <;> rfl

/-- A word that no opening bracket follows is a name. -/
theorem scan_name (hls : ∀ l ∈ ls.head?, l.token ≠ .opening) :
    scan (⟨.word first more, k⟩ :: ls) = .ok (.literal (String.ofList (first :: more)), ls) := by
  obtain ⟨hlt, hread⟩ := (reads_name_iff hls).mpr ⟨rfl, rfl⟩
  rw [scan, hread]
  rfl

/-- Where neither a word nor an opening bracket stands, no formula begins. -/
theorem scan_other
    (hls : ∀ l ∈ ls.head?, l.token ≠ .opening ∧ ∀ first more, l.token ≠ .word first more) :
    scan ls = .error (unexpected .formula ls) := by
  unfold scan
  rw [readFormula]
  · rfl
  all_goals
    intros
    simp_all

theorem scanClosing_other (hls : ∀ l ∈ ls.head?, l.token ≠ .closing) :
    scanClosing φ ls = .error (unexpected .closing ls) := by
  unfold scanClosing
  split
  · simp at hls
  · rfl

theorem scanFurther_other (hls : ∀ l ∈ ls.head?, l.token ≠ .comma ∧ l.token ≠ .closing) :
    scanFurther ls = .error (unexpected .separator ls) := by
  unfold scanFurther
  split
  · simp at hls
  · simp at hls
  · rfl

theorem scanArguments_eq : scanArguments ls = (scan ls).bind (fun p =>
    (scanFurther p.2).map (fun q => (p.1 :: q.1, q.2))) := by
  unfold scan
  rw [scanArguments, readArguments]
  cases readFormula ls with
  | error e => rfl
  | ok p =>
    obtain ⟨φ, ⟨_ | ⟨⟨token, m⟩, rest⟩, hlt⟩⟩ := p
    · rfl
    · cases token with
      | comma =>
        simp only [Except.map, Except.bind, scanFurther, scanArguments]
        cases readArguments rest <;> rfl
      | _ => rfl

theorem scan_call_arguments : scan (⟨.word first more, k⟩ :: ⟨.opening, m⟩ :: inner) =
    (scan inner).bind (fun p =>
      ((scanFurther p.2).map (fun q => ([p.1] ++ q.1, q.2))).bind (fun q =>
        (ofCall (String.ofList (first :: more)) k q.1).map (fun φ => (φ, q.2)))) := by
  rw [scan_call, scanArguments_eq]
  cases scan inner <;> rfl

/-- Arguments are read one after another. -/
theorem scanFurther_comma (args : List Formula) :
    (scanFurther (⟨.comma, k⟩ :: ls)).map (fun q => (args ++ q.1, q.2)) =
      (scan ls).bind (fun p =>
        (scanFurther p.2).map (fun q => ((args ++ [p.1]) ++ q.1, q.2))) := by
  rw [scanFurther, scanArguments_eq]
  cases scan ls with
  | error e => rfl
  | ok p =>
    simp only [Except.map, Except.bind]
    cases scanFurther p.2 <;> simp

theorem scanFurther_closing (args : List Formula) :
    (scanFurther (⟨.closing, k⟩ :: ls)).map (fun q => (args ++ q.1, q.2)) = .ok (args, ls) := by
  simp [scanFurther, Except.map]

/-- What the scan accepts, the grammar reads. -/
theorem reads_of_scan (h : scan ls = .ok (φ, rest)) : Reads ls φ rest := by
  unfold scan at h
  cases hread : readFormula ls with
  | error e => simp [hread, Except.map] at h
  | ok p =>
    rw [hread] at h
    obtain ⟨rfl, rfl⟩ := Prod.mk.inj (Except.ok.inj h)
    exact reads_of_eq hread

theorem readsArguments_of_scan (h : scanArguments ls = .ok (φs, rest)) :
    ReadsArguments ls φs rest := by
  unfold scanArguments at h
  cases hread : readArguments ls with
  | error e => simp [hread, Except.map] at h
  | ok p =>
    rw [hread] at h
    obtain ⟨rfl, rfl⟩ := Prod.mk.inj (Except.ok.inj h)
    exact ⟨p.2.property, hread⟩

def scanEnd (φ : Formula) : List Lexeme → Except SyntaxError Formula
  | [] => .ok φ
  | l :: _ => .error (.trailingInput l.offset)

theorem ofLexemes_eq (hls : ls ≠ []) :
    ofLexemes ls = (scan ls).bind (fun p => scanEnd p.1 p.2) := by
  cases ls with
  | nil => exact absurd rfl hls
  | cons l ls =>
    rw [ofLexemes, scan]
    · cases readFormula (l :: ls) with
      | error e => rfl
      | ok p =>
        obtain ⟨φ, ⟨_ | ⟨l', rest⟩, hlt⟩⟩ := p <;> rfl
    · simp

/-- What can be found wrong in some lexemes: that they end too early; that one of them is not what
was expected; or that a name with arguments is no operator, or one of another number of arguments. -/
inductive Fault (ls : List Lexeme) : SyntaxError → Prop
  | atEnd (expected : Expectation) : Fault ls (.unexpectedEnd expected)
  | atLexeme {used rest : List Lexeme} {l : Lexeme} (h : ls = used ++ l :: rest)
      (expected : Expectation) : Fault ls (.unexpectedChar l.token.firstChar l.offset expected)
  | unknown {used inner : List Lexeme} {first : Char} {more : List Char} {k m : Nat}
      (h : ls = used ++ ⟨.word first more, k⟩ :: ⟨.opening, m⟩ :: inner)
      (hop : Operator.ofName? (String.ofList (first :: more)) = none) :
    Fault ls (.unknownConnective (String.ofList (first :: more)) k)
  | arity {used inner rest : List Lexeme} {first : Char} {more : List Char} {k m : Nat}
      {φs : List Formula} {op : Operator}
      (h : ls = used ++ ⟨.word first more, k⟩ :: ⟨.opening, m⟩ :: inner)
      (hargs : ReadsArguments inner φs rest)
      (hop : Operator.ofName? (String.ofList (first :: more)) = some op)
      (hne : op.arity ≠ φs.length) :
    Fault ls (.wrongArity (String.ofList (first :: more)) k op.arity φs.length)

/-- What is wrong in some lexemes is wrong wherever they are the rest of others. -/
theorem Fault.append (h : Fault ls e) (front : List Lexeme) : Fault (front ++ ls) e := by
  cases h with
  | atEnd => exact .atEnd _
  | atLexeme h => exact .atLexeme (by rw [h, List.append_assoc]) _
  | unknown h hop => exact .unknown (by rw [h, List.append_assoc]) hop
  | arity h hargs hop hne => exact .arity (by rw [h, List.append_assoc]) hargs hop hne

theorem Fault.cons (h : Fault ls e) (l : Lexeme) : Fault (l :: ls) e := h.append [l]

theorem fault_unexpected (expected : Expectation) (ls : List Lexeme) :
    Fault ls (unexpected expected ls) := by
  cases ls with
  | nil => exact .atEnd expected
  | cons l rest => exact .atLexeme (List.nil_append _).symm expected

/-- An operator that is known is refused only because of the number of its arguments. -/
theorem ofCall_eq_error {name : String} {op : Operator} (hop : Operator.ofName? name = some op)
    (he : ofCall name k φs = .error e) :
    op.arity ≠ φs.length ∧ e = .wrongArity name k op.arity φs.length := by
  unfold ofCall at he
  rw [hop] at he
  rcases φs with _ | ⟨φ, _ | ⟨ψ, _ | ⟨χ, φs⟩⟩⟩ <;> cases op <;> cases he <;>
    simp [Operator.arity]

/-- A call is at fault through its name or the number of its arguments. -/
theorem fault_of_ofCall (hargs : ReadsArguments inner φs rest)
    (he : ofCall (String.ofList (first :: more)) k φs = .error e) :
    Fault (⟨.word first more, k⟩ :: ⟨.opening, m⟩ :: inner) e := by
  cases hop : Operator.ofName? (String.ofList (first :: more)) with
  | none =>
    rw [ofCall, hop] at he
    cases he
    exact .unknown (List.nil_append _).symm hop
  | some op =>
    obtain ⟨hne, rfl⟩ := ofCall_eq_error hop he
    exact .arity (List.nil_append _).symm hargs hop hne

theorem Reads.exists_used (h : Reads ls φ rest) :
    ∃ used, ls = used ++ rest ∧ Derives (used.map Lexeme.token) φ :=
  (derives_of_reads_all ls.length).1 ls φ rest (Nat.le_refl _) h

theorem bind_eq_error {α β : Type} {x : Except SyntaxError α} {f : α → Except SyntaxError β}
    (h : x.bind f = .error e) : x = .error e ∨ ∃ a, x = .ok a ∧ f a = .error e := by
  cases x with
  | error e' =>
    obtain rfl := Except.error.inj h
    exact Or.inl rfl
  | ok a => exact Or.inr ⟨a, rfl, h⟩

theorem map_eq_error {α β : Type} {x : Except SyntaxError α} {f : α → β}
    (h : x.map f = .error e) : x = .error e := by
  cases x with
  | error e' =>
    obtain rfl := Except.error.inj h
    rfl
  | ok a => simp [Except.map] at h

/-- When a closing bracket is missing, the fault lies where it was expected. -/
theorem fault_of_scanClosing (he : scanClosing φ ls = .error e) : Fault ls e := by
  unfold scanClosing at he
  split at he
  · simp at he
  · cases he
    exact fault_unexpected _ ls

def ReportsFaults (ls : List Lexeme) : Prop :=
  (∀ e, scan ls = .error e → Fault ls e) ∧ ∀ e, scanArguments ls = .error e → Fault ls e

section Reports

variable (shorter : ∀ tail : List Lexeme, tail.length < ls.length → ReportsFaults tail)

include shorter

/-- When the scan refuses, the fault it names is there. -/
theorem fault_of_scan (he : scan ls = .error e) : Fault ls e := by
  rcases ls with _ | ⟨⟨token, k⟩, inner⟩
  · rw [scan_other (by simp)] at he
    cases he
    exact fault_unexpected _ _
  · cases token with
    | opening =>
      rw [scan_opening] at he
      rcases bind_eq_error he with hinner | ⟨⟨φ, after⟩, hread, hafter⟩
      · exact ((shorter inner (by simp)).1 e hinner).cons _
      · obtain ⟨used, rfl, -⟩ := (reads_of_scan hread).exists_used
        exact ((fault_of_scanClosing hafter).append used).cons _
    | word first more =>
      by_cases hcall : ∃ m tail, inner = ⟨.opening, m⟩ :: tail
      · obtain ⟨m, tail, rfl⟩ := hcall
        rw [scan_call] at he
        rcases bind_eq_error he with htail | ⟨⟨φs, after⟩, hread, hop⟩
        · have hlt : tail.length < tail.length + 1 + 1 := by omega
          exact (((shorter tail hlt).2 e htail).cons _).cons _
        · exact fault_of_ofCall (readsArguments_of_scan hread) (map_eq_error hop)
      · rw [scan_name] at he
        · simp at he
        · rintro ⟨token, m⟩ hl rfl
          obtain ⟨tail, rfl⟩ := List.head?_eq_some_iff.mp hl
          exact hcall ⟨m, tail, rfl⟩
    | closing | comma | stray c =>
      rw [scan_other (by simp)] at he
      cases he
      exact fault_unexpected _ _

theorem fault_of_scanArguments (he : scanArguments ls = .error e) : Fault ls e := by
  rw [scanArguments_eq] at he
  rcases bind_eq_error he with hfirst | ⟨⟨φ, after⟩, hread, hfurther⟩
  · exact fault_of_scan shorter hfirst
  · obtain ⟨hlt, -⟩ := reads_of_scan hread
    obtain ⟨used, rfl, -⟩ := (reads_of_scan hread).exists_used
    have hafter : scanFurther after = .error e := map_eq_error hfurther
    unfold scanFurther at hafter
    split at hafter
    · rename_i m tail
      have hshorter := shorter tail (Nat.lt_trans (Nat.lt_succ_self _) hlt)
      exact ((hshorter.2 e hafter).cons _).append used
    · simp at hafter
    · cases hafter
      exact (fault_unexpected _ _).append used

end Reports

/-- The reader reports what is wrong in the lexemes that it is given. -/
theorem reportsFaults (ls : List Lexeme) : ReportsFaults ls := by
  -- What is read behind a bracket or a comma is a shorter list.
  induction hn : ls.length using Nat.strongRecOn generalizing ls with
  | ind n ih =>
    have hshorter : ∀ tail : List Lexeme, tail.length < ls.length → ReportsFaults tail :=
      fun tail hlt => ih tail.length (hn ▸ hlt) tail rfl
    exact ⟨fun _ => fault_of_scan hshorter, fun _ => fault_of_scanArguments hshorter⟩

/-- A text falls into two parts at a byte offset. -/
def SplitsAt (text : String) (offset : Nat) (before rest : List Char) : Prop :=
  text.toList = before ++ rest ∧ (String.ofList before).utf8ByteSize = offset

/-- At a byte offset of a text something is called by a name: the longest name that starts there is
followed by an opening bracket, with nothing but blanks between them. -/
def CallsAt (text : String) (offset : Nat) (name : String) (inner : List Char) : Prop :=
  ∃ before blanks, SplitsAt text offset before (name.toList ++ (blanks ++ '(' :: inner)) ∧
    name ≠ "" ∧ (∀ c ∈ name.toList, NameChar c) ∧
    (∀ c ∈ (blanks ++ '(' :: inner).head?, ¬ NameChar c) ∧ ∀ c ∈ blanks, Text.isBlank c = true

/-- Behind the opening bracket of a call stand so many formulas, separated by commas, and then a
closing bracket. -/
inductive ArgumentTexts : List Char → Nat → Prop
  | last {piece after : List Char} {φ : Formula} (h : parse (String.ofList piece) = .ok φ) :
    ArgumentTexts (piece ++ ')' :: after) 1
  | more {piece inner : List Char} {φ : Formula} {n : Nat}
      (h : parse (String.ofList piece) = .ok φ) (hs : ArgumentTexts inner n) :
    ArgumentTexts (piece ++ ',' :: inner) (n + 1)

section Places

variable {text : String} {cs before after : List Char} {l : Lexeme}

/-- The offset of a lexeme is the place in the text where it stands. -/
theorem splitsAt_of_cutAt (h : CutAt 0 text.toList used l rest before after) :
    SplitsAt text l.offset before (l.token.chars ++ after) := by
  refine ⟨h.text_eq, ?_⟩
  rw [h.offset_eq, Nat.zero_add, byteLength_eq_utf8ByteSize]

theorem splitsAt_firstChar (h : CutAt 0 text.toList used l rest before after) :
    ∃ behind, SplitsAt text l.offset before (l.token.firstChar :: behind) := by
  obtain ⟨more, hchars⟩ := l.token.chars_eq_cons
  have hsplits := splitsAt_of_cutAt h
  rw [hchars] at hsplits
  exact ⟨more ++ after, hsplits⟩

/-- A part of a text is read by itself as it is in its place. -/
theorem parse_of_lexemes (h : lexemes k cs = used) (hφ : Derives (used.map Lexeme.token) φ) :
    parse (String.ofList cs) = .ok φ := by
  rwa [parse_ok_iff_derives, String.toList_ofList, map_token_lexemes 0 k, h]

theorem argumentTexts_of_reads (h : ReadsArguments (lexemes k cs) φs rest) :
    ArgumentTexts cs φs.length := by
  induction φs generalizing k cs with
  | nil =>
    rcases readsArguments_iff.mp h with ⟨_, _, _, hnil⟩ | ⟨_, _, _, _, _, _, hnil⟩
    · simp at hnil
    · simp at hnil
  | cons φ φs ih =>
    rcases readsArguments_iff.mp h with ⟨ψ, m, hψ, heq⟩ | ⟨ψ, m, more, ψs, hψ, hmore, heq⟩
    · obtain ⟨rfl, rfl⟩ := List.cons.inj heq
      obtain ⟨used, hused, hspells⟩ := hψ.exists_used
      obtain ⟨piece, after, hcut⟩ := exists_cutAt hused
      rw [hcut.text_eq]
      exact .last (parse_of_lexemes hcut.lexemes_before hspells)
    · obtain ⟨rfl, rfl⟩ := List.cons.inj heq
      obtain ⟨used, hused, hspells⟩ := hψ.exists_used
      obtain ⟨piece, after, hcut⟩ := exists_cutAt hused
      rw [← hcut.lexemes_after] at hmore
      rw [hcut.text_eq]
      exact .more (parse_of_lexemes hcut.lexemes_before hspells) (ih hmore)

/-- A name in front of an opening bracket is called where it stands. -/
theorem exists_callsAt
    (h : lexemes 0 text.toList = used ++ ⟨.word first more, k⟩ :: ⟨.opening, m⟩ :: rest) :
    ∃ inner, CallsAt text k (String.ofList (first :: more)) inner ∧
      ∃ j, lexemes j inner = rest := by
  obtain ⟨before, after, hname⟩ := exists_cutAt h
  obtain ⟨blanks, inner, hopening⟩ := exists_cutFrom hname.lexemes_after
  have hsplits := splitsAt_of_cutAt hname
  obtain ⟨hchars, hmax⟩ := hname.cutFrom.of_word
  rw [hopening.text_eq] at hsplits hmax
  refine ⟨inner, ⟨before, blanks, ?_, by simp, ?_, ?_, ?_⟩, _, hopening.lexemes_after⟩
  · rw [String.toList_ofList]
    exact hsplits
  · rw [String.toList_ofList]
    exact fun c hc => (isNameChar_iff c).mp (hchars c hc)
  · intro c hc
    rw [← isNameChar_iff, hmax c hc]
    simp
  · exact lexemes_eq_nil_iff.mp hopening.lexemes_before

/-- What can be wrong with a text: that nothing stands in it, that something is wrong inside of it, or
that a formula is followed by something else. -/
inductive TextFault (text : String) : SyntaxError → Prop
  | empty (h : lexemes 0 text.toList = []) : TextFault text .empty
  | inside {e : SyntaxError} (h : Fault (lexemes 0 text.toList) e) : TextFault text e
  | behind {φ : Formula} {l : Lexeme} {rest : List Lexeme}
      (h : Reads (lexemes 0 text.toList) φ (l :: rest)) : TextFault text (.trailingInput l.offset)

/-- When the text is refused, the fault it is refused for is in it. -/
theorem textFault_of_parse (h : parse text = .error e) : TextFault text e := by
  unfold parse at h
  by_cases hls : lexemes 0 text.toList = []
  · rw [hls] at h
    cases h
    exact .empty hls
  · rw [ofLexemes_eq hls] at h
    rcases bind_eq_error h with hscan | ⟨⟨φ, after⟩, hscan, hend⟩
    · exact .inside ((reportsFaults _).1 e hscan)
    · cases after with
      | nil => simp [scanEnd] at hend
      | cons l rest =>
        cases hend
        exact .behind (reads_of_scan hscan)

/-- Only a blank text is empty. -/
theorem parse_eq_empty_iff :
    parse text = .error .empty ↔ ∀ c ∈ text.toList, Text.isBlank c = true := by
  rw [← lexemes_eq_nil_iff (k := 0)]
  constructor
  · intro h
    cases textFault_of_parse h with
    | empty hls => exact hls
    | inside hfault => cases hfault
  · intro hls
    rw [parse, hls]
    rfl

/-- An unexpected character stands where the error says, and is not blank. -/
theorem splitsAt_of_unexpectedChar {found : Char} {offset : Nat}
    (h : parse text = .error (.unexpectedChar found offset expected)) :
    ∃ before after, SplitsAt text offset before (found :: after) ∧ Text.isBlank found = false := by
  cases textFault_of_parse h with
  | inside hfault =>
    cases hfault with
    | atLexeme hls =>
      obtain ⟨before, after, hcut⟩ := exists_cutAt hls
      obtain ⟨behind, hsplits⟩ := splitsAt_firstChar hcut
      exact ⟨before, behind, hsplits, hcut.cutFrom.not_isBlank⟩

/-- What stands before trailing input is a formula. -/
theorem splitsAt_of_trailingInput {offset : Nat}
    (h : parse text = .error (.trailingInput offset)) :
    ∃ before c after, SplitsAt text offset before (c :: after) ∧ Text.isBlank c = false ∧
      ∃ φ, parse (String.ofList before) = .ok φ := by
  cases textFault_of_parse h with
  | inside hfault => cases hfault
  | behind hread =>
    obtain ⟨used, hls, hspells⟩ := hread.exists_used
    obtain ⟨before, after, hcut⟩ := exists_cutAt hls
    obtain ⟨behind, hsplits⟩ := splitsAt_firstChar hcut
    exact ⟨before, _, behind, hsplits, hcut.cutFrom.not_isBlank, _,
      parse_of_lexemes hcut.lexemes_before hspells⟩

/-- No operator has the name by which an unknown one is called. -/
theorem callsAt_of_unknownConnective {name : String} {offset : Nat}
    (h : parse text = .error (.unknownConnective name offset)) :
    ∃ inner, CallsAt text offset name inner ∧
      ∀ op : Operator, name.toList.map Char.toLower ≠ op.name.toList := by
  cases textFault_of_parse h with
  | inside hfault =>
    cases hfault with
    | unknown hls hop =>
      obtain ⟨inner, hcalls, -⟩ := exists_callsAt hls
      refine ⟨inner, hcalls, fun op hname => ?_⟩
      rw [String.toList_ofList] at hname
      have hnamed := names_iff.mp ⟨_, _, rfl, hname⟩
      rw [hop] at hnamed
      simp at hnamed

/-- An operator that is called with a wrong number of arguments is one of another number, and the
error counts the formulas between the brackets of the call. -/
theorem callsAt_of_wrongArity {name : String} {offset expected found : Nat}
    (h : parse text = .error (.wrongArity name offset expected found)) :
    ∃ inner, ∃ op : Operator, CallsAt text offset name inner ∧
      name.toList.map Char.toLower = op.name.toList ∧
      op.arity = expected ∧ ArgumentTexts inner found ∧ expected ≠ found := by
  cases textFault_of_parse h with
  | inside hfault =>
    cases hfault with
    | @arity _ _ _ first more _ _ φs op hls hargs hop hne =>
      obtain ⟨inner, hcalls, j, hinner⟩ := exists_callsAt hls
      obtain ⟨_, _, hword, hname⟩ := names_iff.mpr hop
      obtain ⟨rfl, rfl⟩ := Token.word.inj hword
      rw [← hinner] at hargs
      refine ⟨inner, op, hcalls, ?_, rfl, argumentTexts_of_reads hargs, hne⟩
      rw [String.toList_ofList]
      exact hname

end Places

end TruthTrees.Formula
