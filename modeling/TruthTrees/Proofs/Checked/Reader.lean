import TruthTrees.Proofs.Checked.Links
import TruthTrees.Proofs.Formula.Faults

/-! Reading formulas with a cursor. The cursor counts bytes, and every look at the text cuts it where
the cursor stands, which goes wrong inside a character. The reader is also held to a number of calls
one inside the other, and each of its loops to as many rounds. A budget of more than the bytes of the
text is enough, and then nothing goes wrong: the cursor only ever stands between two characters, and
the reader finds the formula or the fault that is found by cutting the text into lexemes first. -/
namespace TruthTrees.Checked

/-- Cuts a text at a byte. That goes wrong inside a character and behind the end. -/
def cut : List Char → Nat → Option (List Char × List Char)
  | cs, 0 => some ([], cs)
  | [], _ + 1 => none
  | c :: cs, n + 1 =>
    if c.utf8Size ≤ n + 1 then (cut cs (n + 1 - c.utf8Size)).map (fun p => (c :: p.1, p.2))
    else none

def slice (src : List Char) (start stop : Nat) : Option (List Char) := do
  guard (start ≤ stop)
  let (_, rest) ← cut src start
  let (piece, _) ← cut rest (stop - start)
  return piece

/-- The character at a byte, if the text does not end there. -/
def peek (src : List Char) (pos : Nat) : Option (Option Char) := do
  let (_, rest) ← cut src pos
  return rest.head?

/-- A cursor stands in front of the given part of a text. -/
def Stands (src : List Char) (pos : Nat) (rest : List Char) : Prop :=
  ∃ before, cut src pos = some (before, rest)

section

variable {src before a rest cs : List Char} {c : Char} {pos n : Nat}

/-- A text is cut without harm at a place between two characters. -/
theorem cut_append (before rest : List Char) :
    cut (before ++ rest) (byteLength before) = some (before, rest) := by
  induction before with
  | nil => rw [byteLength, List.nil_append, cut]
  | cons c before ih =>
    have hc := c.utf8Size_pos
    obtain ⟨n, hn⟩ : ∃ n, byteLength (c :: before) = n + 1 :=
      Nat.exists_eq_add_one.mpr (by rw [byteLength]; omega)
    have hbefore : n + 1 - c.utf8Size = byteLength before := by
      rw [← hn, byteLength]
      omega
    rw [hn, List.cons_append, cut, if_pos (by rw [← hn, byteLength]; omega), hbefore, ih]
    rfl

/-- A text can be cut where a character starts and where it ends, and nowhere else. -/
theorem cut_eq_some_iff :
    cut cs n = some (before, rest) ↔ cs = before ++ rest ∧ byteLength before = n := by
  constructor
  · intro h
    fun_induction cut cs n generalizing before with
    | case1 cs =>
      obtain ⟨rfl, rfl⟩ := Prod.mk.inj (Option.some.inj h)
      exact ⟨rfl, rfl⟩
    | case2 => simp at h
    | case3 c cs n hle ih =>
      obtain ⟨⟨front, back⟩, hcut, heq⟩ := Option.map_eq_some_iff.mp h
      obtain ⟨rfl, rfl⟩ := Prod.mk.inj heq
      obtain ⟨rfl, hlength⟩ := ih hcut
      refine ⟨rfl, ?_⟩
      simp only [byteLength]
      omega
    | case4 => simp at h
  · rintro ⟨rfl, rfl⟩
    exact cut_append before rest

/-- A position stands before a rest when the text up to it has that many bytes. -/
theorem stands_iff :
    Stands src pos rest ↔ ∃ before, src = before ++ rest ∧ byteLength before = pos := by
  simp only [Stands, cut_eq_some_iff]

theorem Stands.append (h : Stands src pos (a ++ rest)) : Stands src (pos + byteLength a) rest := by
  obtain ⟨before, rfl, rfl⟩ := stands_iff.mp h
  exact stands_iff.mpr ⟨before ++ a, by simp, byteLength_append _ _⟩

theorem Stands.peek_eq (h : Stands src pos rest) : peek src pos = some rest.head? := by
  obtain ⟨before, hcut⟩ := h
  rw [peek, hcut]
  rfl

theorem Stands.slice_eq (h : Stands src pos (a ++ rest)) :
    slice src pos (pos + byteLength a) = some a := by
  obtain ⟨before, hcut⟩ := h
  have hpiece : cut (a ++ rest) (byteLength a) = some (a, rest) := cut_eq_some_iff.mpr ⟨rfl, rfl⟩
  simp [slice, hcut, hpiece]

/-- A cursor is at the end of the text if it has come as far as the text has bytes. -/
theorem Stands.byteLength_le_iff (h : Stands src pos rest) :
    byteLength src ≤ pos ↔ rest = [] := by
  obtain ⟨before, rfl, rfl⟩ := stands_iff.mp h
  rw [byteLength_append]
  cases rest with
  | nil => simp [byteLength]
  | cons c rest =>
    have hc := c.utf8Size_pos
    simp only [byteLength, reduceCtorEq, iff_false]
    omega

theorem length_le_byteLength (cs : List Char) : cs.length ≤ byteLength cs := by
  induction cs with
  | nil => exact Nat.le_refl 0
  | cons c cs ih =>
    have hc := c.utf8Size_pos
    simp only [List.length_cons, byteLength]
    omega

theorem Stands.length_le (h : Stands src pos rest) : rest.length ≤ byteLength src := by
  obtain ⟨before, rfl, -⟩ := stands_iff.mp h
  have hrest := length_le_byteLength rest
  rw [byteLength_append]
  omega

end

/-- A computation that may find a fault in a text, besides going wrong. -/
abbrev Reader (α : Type) : Type := ExceptT SyntaxError Option α

def passStep (src : List Char) (kind : Char → Bool) (width : Char → Nat) (goOn : Nat → Option Nat)
    (pos : Nat) : Option Nat := do
  match ← peek src pos with
  | some c => if kind c then goOn (pos + width c) else return pos
  | none => return pos

section

variable (budget : Nat) (src : List Char)

def skipBlanks (pos : Nat) : Option Nat :=
  nested (passStep src Text.isBlank Char.utf8Size) budget pos

/-- The name at a byte, and where it ends. A name character takes one byte. -/
def readName (start : Nat) : Option (String × Nat) := do
  let stop ← nested (passStep src isNameChar (fun _ => 1)) budget start
  let name ← slice src start stop
  return (String.ofList name, stop)

def expect (want : Char) (expected : Expectation) (pos : Nat) : Reader Nat := do
  let pos ← skipBlanks budget src pos
  match ← peek src pos with
  | some c =>
    if c = want then return pos + c.utf8Size else throw (.unexpectedChar c pos expected)
  | none => throw (.unexpectedEnd expected)

/-- Goes on behind an argument of a call: to the next one, or behind the closing bracket. -/
def argumentsStep (formula : Nat → Reader (Formula × Nat))
    (goOn : List Formula × Nat → Reader (List Formula × Nat)) :
    List Formula × Nat → Reader (List Formula × Nat)
  | (args, pos) => do
    let pos ← skipBlanks budget src pos
    match ← peek src pos with
    | some c =>
      if c = ',' then
        let (φ, pos) ← formula (pos + 1)
        goOn (args ++ [φ], pos)
      else if c = ')' then return (args, pos + 1)
      else throw (.unexpectedChar c pos .separator)
    | none => throw (.unexpectedEnd .separator)

def readBehindName (formula : Nat → Reader (Formula × Nat)) (name : String) (start pos : Nat) :
    Reader (Formula × Nat) := do
  let pos ← skipBlanks budget src pos
  if (← peek src pos) = some '(' then
    let (φ, pos) ← formula (pos + 1)
    let (φs, pos) ← nested (argumentsStep budget src formula) budget ([φ], pos)
    let φ ← ExceptT.mk (some (Formula.ofCall name start φs))
    return (φ, pos)
  else return (.literal name, pos)

def formulaStep (goOn : Nat → Reader (Formula × Nat)) (pos : Nat) : Reader (Formula × Nat) := do
  let start ← skipBlanks budget src pos
  match ← peek src start with
  | none => throw (.unexpectedEnd .formula)
  | some c =>
    if c = '(' then
      let (φ, pos) ← goOn (start + 1)
      let pos ← expect budget src ')' .closing pos
      return (φ, pos)
    else if isNameChar c then
      let (name, pos) ← readName budget src start
      readBehindName budget src goOn name start pos
    else throw (.unexpectedChar c start .formula)

end

def parse (budget : Nat) (text : String) : Reader Formula := do
  let pos ← skipBlanks budget text.toList 0
  if text.utf8ByteSize ≤ pos then throw .empty
  else
    let (φ, pos) ← nested (formulaStep budget text.toList) budget pos
    let pos ← skipBlanks budget text.toList pos
    if text.utf8ByteSize ≤ pos then return φ else throw (.trailingInput pos)

section

variable {budget pos stop : Nat} {src a rest cs : List Char} {ls : List Lexeme}

/-- Passing over characters of a kind ends behind the last of them. -/
theorem nested_passStep_eq {kind : Char → Bool} {width : Char → Nat}
    (hwidth : ∀ c, kind c = true → width c = c.utf8Size) (h : Stands src pos (a ++ rest))
    (ha : ∀ c ∈ a, kind c = true) (hrest : ∀ c ∈ rest.head?, kind c = false)
    (hbudget : a.length < budget) :
    nested (passStep src kind width) budget pos = some (pos + byteLength a) := by
  induction a generalizing pos budget with
  | nil =>
    obtain ⟨budget, rfl⟩ := Nat.exists_eq_add_one.mpr hbudget
    rw [nested, passStep, h.peek_eq]
    cases rest with
    | nil => rfl
    | cons c rest => simp [hrest c rfl, byteLength]
  | cons c a ih =>
    obtain ⟨budget, rfl⟩ := Nat.exists_eq_add_one.mpr (Nat.zero_lt_of_lt hbudget)
    rw [List.forall_mem_cons] at ha
    have hnext : Stands src (pos + c.utf8Size) (a ++ rest) := Stands.append (a := [c]) h
    rw [nested, passStep, h.peek_eq]
    simp only [List.cons_append, List.head?_cons, Option.bind_eq_bind, Option.bind_some, ha.1,
      if_true, hwidth c ha.1]
    rw [ih hnext ha.2 (Nat.lt_of_succ_lt_succ hbudget), byteLength, Nat.add_assoc]

/-- What a cursor that has passed the blanks stands in front of: the end of the text, or a token. -/
inductive Next (src : List Char) (stop : Nat) : List Lexeme → Prop
  | atEnd (h : Stands src stop []) : Next src stop []
  | atToken {token : Token} {after : List Char} (h : Stands src stop (token.chars ++ after))
      (hcut : token.CutFrom after) :
    Next src stop (⟨token, stop⟩ :: lexemes (stop + byteLength token.chars) after)

/-- Blanks are skipped without harm, up to the first lexeme of the rest. -/
theorem exists_next (hbudget : byteLength src < budget) (h : Stands src pos cs) :
    ∃ stop, skipBlanks budget src pos = some stop ∧ Next src stop (lexemes pos cs) := by
  have hlength := h.length_le
  cases hls : lexemes pos cs with
  | nil =>
    have hall := lexemes_eq_nil_iff.mp hls
    rw [← List.append_nil cs] at h
    refine ⟨pos + byteLength cs, ?_, .atEnd h.append⟩
    exact nested_passStep_eq (fun _ _ => rfl) h hall (by simp) (by omega)
  | cons l ls =>
    obtain ⟨blanks, after, hcut⟩ := exists_cutFrom hls
    obtain ⟨token, offset⟩ := l
    have hoffset : offset = pos + byteLength blanks := hcut.offset_eq
    obtain ⟨more, hchars⟩ := token.chars_eq_cons
    rw [hcut.text_eq] at h hlength
    rw [List.length_append] at hlength
    rw [← hcut.lexemes_after]
    refine ⟨offset, ?_, .atToken (hoffset ▸ h.append) hcut.cutFrom⟩
    rw [hoffset]
    refine nested_passStep_eq (fun _ _ => rfl) h (lexemes_eq_nil_iff.mp hcut.lexemes_before) ?_
      (by omega)
    intro c hc
    simp only [hchars, List.cons_append, List.head?_cons, Option.mem_some_iff] at hc
    exact hc ▸ hcut.cutFrom.not_isBlank

theorem Next.peek_eq (h : Next src stop ls) :
    peek src stop = some (ls.head?.map (fun l => l.token.firstChar)) := by
  cases h with
  | atEnd h => exact h.peek_eq
  | @atToken token after h =>
    obtain ⟨more, hchars⟩ := token.chars_eq_cons
    rw [h.peek_eq, hchars]
    rfl

/-- Passing blanks does not change which lexemes come next. -/
theorem Next.exists_stands (h : Next src stop ls) :
    ∃ cs, Stands src stop cs ∧ lexemes stop cs = ls := by
  cases h with
  | atEnd h => exact ⟨[], h, by rw [lexemes]⟩
  | atToken h hcut => exact ⟨_, h, hcut.lexemes_eq stop⟩

theorem utf8Size_of_isNameChar {c : Char} (h : isNameChar c = true) : c.utf8Size = 1 := by
  rw [isNameChar_iff] at h
  rw [Char.utf8Size_eq_one_iff, UInt32.le_iff_toNat_le]
  rcases h with h | h | h | rfl
  · exact Nat.le_trans h.2 (by decide)
  · exact Nat.le_trans h.2 (by decide)
  · exact Nat.le_trans h.2 (by decide)
  · decide

/-- A word is read as a name, to its end. -/
theorem readName_eq (hbudget : byteLength src < budget) {first : Char} {more : List Char}
    (h : Stands src pos ((Token.word first more).chars ++ rest))
    (hcut : (Token.word first more).CutFrom rest) :
    readName budget src pos =
      some (String.ofList (first :: more), pos + byteLength (first :: more)) := by
  obtain ⟨hname, hmax⟩ := hcut.of_word
  have hlength := h.length_le
  rw [List.length_append] at hlength
  have hrounds : (first :: more).length < budget :=
    Nat.lt_of_le_of_lt (Nat.le_trans (Nat.le_add_right _ _) hlength) hbudget
  have hstop : nested (passStep src isNameChar (fun _ => 1)) budget pos =
      some (pos + byteLength (first :: more)) :=
    nested_passStep_eq (fun c hc => (utf8Size_of_isNameChar hc).symm) h hname hmax hrounds
  have hslice : slice src pos (pos + byteLength (first :: more)) = some (first :: more) :=
    h.slice_eq
  simp [readName, hstop, hslice]

end

/-- A reader that follows the text and one that follows its lexemes find the same fault, or read the
same and leave the same. -/
def Follows {β : Type} (src : List Char) (x : Reader (β × Nat))
    (y : Except SyntaxError (β × List Lexeme)) : Prop :=
  (∃ e, x.run = some (.error e) ∧ y = .error e) ∨
    ∃ b pos cs, x.run = some (.ok (b, pos)) ∧ Stands src pos cs ∧ y = .ok (b, lexemes pos cs)

namespace Follows

variable {α β γ : Type} {src : List Char}

theorem fault (e : SyntaxError) : @Follows β src (throw e) (.error e) :=
  Or.inl ⟨e, rfl, rfl⟩

theorem done {pos : Nat} {cs : List Char} (h : Stands src pos cs) (b : β) :
    Follows src (pure (b, pos)) (.ok (b, lexemes pos cs)) :=
  Or.inr ⟨b, pos, cs, rfl, h, rfl⟩

/-- What is found out first is not compared with anything. -/
theorem after {x : Option α} {f : α → Reader (β × Nat)}
    {y : Except SyntaxError (β × List Lexeme)} {a : α} (hx : x = some a) (h : Follows src (f a) y) :
    Follows src (liftM x >>= f) y := by
  unfold Follows
  rw [ok_bind (run_lift hx)]
  exact h

/-- A reader that follows another goes on from the place the first one has reached. -/
theorem bind {x : Reader (β × Nat)} {y : Except SyntaxError (β × List Lexeme)}
    {f : β × Nat → Reader (γ × Nat)} {g : β × List Lexeme → Except SyntaxError (γ × List Lexeme)}
    (hx : Follows src x y)
    (hf : ∀ b pos cs, Stands src pos cs → y = .ok (b, lexemes pos cs) →
      Follows src (f (b, pos)) (g (b, lexemes pos cs))) :
    Follows src (x >>= f) (y.bind g) := by
  rcases hx with ⟨e, hrun, rfl⟩ | ⟨b, pos, cs, hrun, hstands, rfl⟩
  · exact Or.inl ⟨e, error_bind hrun f, rfl⟩
  · unfold Follows
    rw [ok_bind hrun]
    exact hf b pos cs hstands rfl

end Follows

section

open Formula

variable {budget pos : Nat} {src cs : List Char}

theorem follows_expect (hbudget : byteLength src < budget) (h : Stands src pos cs) (φ : Formula) :
    Follows src (expect budget src ')' .closing pos >>= fun pos => return (φ, pos))
      (scanClosing φ (lexemes pos cs)) := by
  obtain ⟨stop, hskip, hnext⟩ := exists_next hbudget h
  generalize lexemes pos cs = ls at hnext
  unfold expect
  simp only [bind_assoc]
  refine Follows.after hskip (Follows.after hnext.peek_eq ?_)
  cases hnext with
  | atEnd => exact Follows.fault _
  | @atToken token after h hcut =>
    by_cases hclosing : token.firstChar = ')'
    · obtain rfl : token = .closing := (hcut.firstChar_eq_iff rfl).mp hclosing
      exact Follows.done h.append φ
    · simp only [List.head?_cons, Option.map_some, if_neg hclosing]
      rw [scanClosing_other]
      · exact Follows.fault _
      · rintro _ ⟨⟩ rfl
        exact hclosing rfl

section Arguments

-- The calls inside a call have fewer lexemes before them, and are known to come out right.
variable {formula : Nat → Reader (Formula × Nat)} {bound : Nat}
  (hformula : ∀ pos cs, Stands src pos cs → (lexemes pos cs).length < bound →
    Follows src (formula pos) (scan (lexemes pos cs)))

include hformula

/-- The loop over the arguments of a call collects what is read one argument inside the other. -/
theorem follows_arguments (hbudget : byteLength src < budget) {args : List Formula} {rounds : Nat}
    (h : Stands src pos cs) (hrounds : (lexemes pos cs).length < rounds)
    (hbound : (lexemes pos cs).length ≤ bound) :
    Follows src (nested (argumentsStep budget src formula) rounds (args, pos))
      ((scanFurther (lexemes pos cs)).map (fun q => (args ++ q.1, q.2))) := by
  induction rounds generalizing pos cs args with
  | zero => omega
  | succ rounds ih =>
    obtain ⟨stop, hskip, hnext⟩ := exists_next hbudget h
    generalize lexemes pos cs = ls at hnext hrounds hbound
    refine Follows.after hskip (Follows.after hnext.peek_eq ?_)
    cases hnext with
    | atEnd => exact Follows.fault _
    | @atToken token after h hcut =>
      simp only [List.length_cons] at hrounds hbound
      by_cases hcomma : token.firstChar = ','
      · obtain rfl : token = .comma := (hcut.firstChar_eq_iff rfl).mp hcomma
        have hfirst := hformula _ _ h.append (Nat.lt_of_succ_le hbound)
        rw [scanFurther_comma]
        refine hfirst.bind ?_
        intro φ pos' cs' h' hscan
        obtain ⟨hlt, -⟩ := reads_of_scan hscan
        exact ih h' (by omega) (by omega)
      · by_cases hclosing : token.firstChar = ')'
        · obtain rfl : token = .closing := (hcut.firstChar_eq_iff rfl).mp hclosing
          rw [scanFurther_closing]
          exact Follows.done h.append args
        · simp only [List.head?_cons, Option.map_some, if_neg hcomma, if_neg hclosing]
          rw [scanFurther_other]
          · exact Follows.fault _
          · rintro _ ⟨⟩
            constructor
            · rintro rfl
              exact hcomma rfl
            · rintro rfl
              exact hclosing rfl

/-- A word is the name of a call if an opening bracket follows, and otherwise a literal. -/
theorem follows_behindName (hbudget : byteLength src < budget) (first : Char) (more : List Char)
    (start : Nat) (h : Stands src pos cs) (hbound : (lexemes pos cs).length ≤ bound)
    (hrounds : bound < budget) :
    Follows src (readBehindName budget src formula (String.ofList (first :: more)) start pos)
      (scan (⟨.word first more, start⟩ :: lexemes pos cs)) := by
  obtain ⟨stop, hskip, hnext⟩ := exists_next hbudget h
  generalize lexemes pos cs = ls at hnext hbound
  refine Follows.after hskip (Follows.after hnext.peek_eq ?_)
  by_cases hcall : ls.head?.map (fun l => l.token.firstChar) = some '('
  · rw [if_pos hcall]
    cases hnext with
    | atEnd => simp at hcall
    | @atToken token after h hcut =>
      obtain rfl : token = .opening := (hcut.firstChar_eq_iff rfl).mp (Option.some.inj hcall)
      simp only [List.length_cons] at hbound
      rw [scan_call_arguments]
      refine (hformula _ _ h.append hbound).bind ?_
      intro φ pos' cs' h' hscan
      obtain ⟨hlt, -⟩ := reads_of_scan hscan
      refine (follows_arguments hformula hbudget h' (by omega) (by omega)).bind ?_
      intro φs pos'' cs'' h'' _
      dsimp only
      cases hcall : ofCall (String.ofList (first :: more)) start φs with
      | error e => exact Follows.fault e
      | ok φ => exact Follows.done h'' φ
  · rw [if_neg hcall, scan_name]
    · obtain ⟨cs', h', rfl⟩ := hnext.exists_stands
      exact Follows.done h' _
    · intro l hl htoken
      rw [hl, Option.map_some, htoken] at hcall
      exact hcall rfl

end Arguments

/-- The reader finds in the text what is found in the lexemes. -/
theorem follows_formula (hbudget : byteLength src < budget) {calls : Nat} (h : Stands src pos cs)
    (hcalls : (lexemes pos cs).length < calls) (hbound : calls ≤ budget) :
    Follows src (nested (formulaStep budget src) calls pos) (scan (lexemes pos cs)) := by
  -- Each call inside the other one has a lexeme less before it, so the calls do not run out.
  induction calls generalizing pos cs with
  | zero => omega
  | succ calls ih =>
    obtain ⟨start, hskip, hnext⟩ := exists_next hbudget h
    generalize lexemes pos cs = ls at hnext hcalls
    refine Follows.after hskip (Follows.after hnext.peek_eq ?_)
    cases hnext with
    | atEnd =>
      rw [scan_other (by simp)]
      exact Follows.fault _
    | @atToken token after h hcut =>
      simp only [List.length_cons] at hcalls
      by_cases hopening : token.firstChar = '('
      · obtain rfl : token = .opening := (hcut.firstChar_eq_iff rfl).mp hopening
        rw [scan_opening]
        refine (ih h.append (by omega) (by omega)).bind ?_
        intro φ pos' cs' h' _
        exact follows_expect hbudget h' φ
      · by_cases hname : isNameChar token.firstChar = true
        · obtain ⟨first, more, rfl⟩ := hcut.isNameChar_firstChar_iff.mp hname
          simp only [List.head?_cons, Option.map_some, if_neg hopening, if_pos hname]
          refine Follows.after (readName_eq hbudget h hcut) ?_
          exact follows_behindName (fun pos cs h hlt => ih h hlt (by omega)) hbudget first more
            start h.append (Nat.le_of_lt (Nat.lt_of_succ_lt_succ hcalls)) (by omega)
        · simp only [List.head?_cons, Option.map_some, if_neg hopening, if_neg hname]
          rw [scan_other]
          · exact Follows.fault _
          · rintro _ ⟨⟩
            refine ⟨?_, ?_⟩
            · rintro rfl
              exact hopening rfl
            · rintro first more rfl
              exact hname (hcut.isNameChar_firstChar_iff.mpr ⟨_, _, rfl⟩)

/-- There are no more lexemes than characters. -/
theorem length_lexemes_le (k : Nat) (cs : List Char) : (lexemes k cs).length ≤ cs.length := by
  fun_induction lexemes k cs with
  | case1 => simp
  | case2 => simp; omega
  | case3 k c cs hblank hname rest ih =>
    have hdrop := (List.dropWhile_sublist isNameChar (l := cs)).length_le
    simp only [List.length_cons]
    omega
  | case4 => simp; omega

/-- A cursor that has passed the blanks is at the end of the text if there are no lexemes left. -/
theorem Next.byteLength_le_iff {stop : Nat} {ls : List Lexeme} (h : Next src stop ls) :
    byteLength src ≤ stop ↔ ls = [] := by
  cases h with
  | atEnd h => simp [h.byteLength_le_iff]
  | @atToken token after h =>
    obtain ⟨more, hchars⟩ := token.chars_eq_cons
    rw [h.byteLength_le_iff, hchars]
    simp

/-- With a budget of more than the bytes of the text the reader never cuts inside a character and
comes to its end, with the result that the lexemes give. -/
theorem parse_eq {budget : Nat} {text : String} (hbudget : text.utf8ByteSize < budget) :
    (parse budget text).run = some (Formula.parse text) := by
  have hbytes : byteLength text.toList = text.utf8ByteSize := by
    rw [byteLength_eq_utf8ByteSize, String.ofList_toList]
  rw [← hbytes] at hbudget
  have hstart : Stands text.toList 0 text.toList := stands_iff.mpr ⟨[], rfl, rfl⟩
  obtain ⟨start, hskip, hnext⟩ := exists_next hbudget hstart
  unfold parse Formula.parse
  rw [ok_bind (run_lift hskip), ← hbytes]
  by_cases hls : lexemes 0 text.toList = []
  · rw [if_pos (hnext.byteLength_le_iff.mpr hls), hls]
    rfl
  · rw [if_neg (fun hle => hls (hnext.byteLength_le_iff.mp hle)), ofLexemes_eq hls]
    obtain ⟨cs, hstands, heq⟩ := hnext.exists_stands
    have hcalls : (lexemes start cs).length < budget :=
      Nat.lt_of_le_of_lt (Nat.le_trans (length_lexemes_le start cs) hstands.length_le) hbudget
    have hformula := follows_formula hbudget hstands hcalls (Nat.le_refl budget)
    rw [heq] at hformula
    rcases hformula with ⟨e, hrun, hscan⟩ | ⟨φ, pos, rest, hrun, hrest, hscan⟩
    · rw [hscan, error_bind hrun]
      rfl
    · obtain ⟨stop, hskip', hend⟩ := exists_next hbudget hrest
      rw [hscan, ok_bind hrun]
      dsimp only
      rw [ok_bind (run_lift hskip')]
      generalize lexemes pos rest = ls at hend
      by_cases hle : byteLength text.toList ≤ stop
      · rw [if_pos hle, hend.byteLength_le_iff.mp hle]
        rfl
      · rw [if_neg hle]
        cases hend with
        | atEnd h => exact absurd (h.byteLength_le_iff.mpr rfl) hle
        | atToken => rfl

end

end TruthTrees.Checked

namespace TruthTrees.Formula

/-- Faults are found where they are. Reading by byte offsets never cuts inside a character. Only a
blank text is empty. An unexpected character starts at the offset that the error gives, and so does
trailing input, behind a formula; neither is blank. A name that is no operator, or an operator with a
wrong number of arguments, is the whole name at its offset, and it is called there. -/
theorem parse_fault_places (text : String) :
    (∀ budget, text.utf8ByteSize < budget →
      (Checked.parse budget text).run = some (parse text)) ∧
    (parse text = .error .empty ↔ ∀ c ∈ text.toList, Text.isBlank c = true) ∧
    (∀ found offset expected, parse text = .error (.unexpectedChar found offset expected) →
      ∃ before after, SplitsAt text offset before (found :: after) ∧ Text.isBlank found = false) ∧
    (∀ offset, parse text = .error (.trailingInput offset) →
      ∃ before c after, SplitsAt text offset before (c :: after) ∧ Text.isBlank c = false ∧
        ∃ φ, parse (String.ofList before) = .ok φ) ∧
    (∀ name offset, parse text = .error (.unknownConnective name offset) →
      ∃ inner, CallsAt text offset name inner ∧
        ∀ op : Operator, name.toList.map Char.toLower ≠ op.name.toList) ∧
    ∀ name offset expected found, parse text = .error (.wrongArity name offset expected found) →
      ∃ inner, ∃ op : Operator, CallsAt text offset name inner ∧
        name.toList.map Char.toLower = op.name.toList ∧
        op.arity = expected ∧ ArgumentTexts inner found ∧ expected ≠ found :=
  ⟨fun _ => Checked.parse_eq, parse_eq_empty_iff, fun _ _ _ => splitsAt_of_unexpectedChar,
    fun _ => splitsAt_of_trailingInput, fun _ _ => callsAt_of_unknownConnective,
    fun _ _ _ _ => callsAt_of_wrongArity⟩

/-- Blanks and characters of several bytes before and inside the fault. -/
theorem parse_fault_places_multibyte :
    (Checked.parse 40 "\u3000and(a, é)").run = some (parse "\u3000and(a, é)") ∧
    (parse "\u3000and(a, é)" = .error (.unexpectedChar 'é' 10 .formula) ∧
      ∃ before after, SplitsAt "\u3000and(a, é)" 10 before ('é' :: after) ∧
        Text.isBlank 'é' = false) ∧
    (parse "not(a)\u3000é" = .error (.trailingInput 9) ∧
      ∃ before c after, SplitsAt "not(a)\u3000é" 9 before (c :: after) ∧
        Text.isBlank c = false ∧ ∃ φ, parse (String.ofList before) = .ok φ) ∧
    (parse "\u3000Xor\u3000(a, b)" = .error (.unknownConnective "Xor" 3) ∧
      ∃ inner, CallsAt "\u3000Xor\u3000(a, b)" 3 "Xor" inner ∧
        ∀ op : Operator, "Xor".toList.map Char.toLower ≠ op.name.toList) ∧
    parse "or(a,\u3000NOT (b, if(c, d), e))" = .error (.wrongArity "NOT" 8 1 3) ∧
      ∃ inner, ∃ op : Operator, CallsAt "or(a,\u3000NOT (b, if(c, d), e))" 8 "NOT" inner ∧
        "NOT".toList.map Char.toLower = op.name.toList ∧
        op.arity = 1 ∧ ArgumentTexts inner 3 ∧ 1 ≠ 3 := by
  have hfaults : parse "\u3000and(a, é)" = .error (.unexpectedChar 'é' 10 .formula) ∧
      parse "not(a)\u3000é" = .error (.trailingInput 9) ∧
      parse "\u3000Xor\u3000(a, b)" = .error (.unknownConnective "Xor" 3) ∧
      parse "or(a,\u3000NOT (b, if(c, d), e))" = .error (.wrongArity "NOT" 8 1 3) := by
    decide +kernel
  obtain ⟨hchar, htrailing, hunknown, harity⟩ := hfaults
  refine ⟨(parse_fault_places _).1 40 (by decide +kernel), ⟨hchar, ?_⟩, ⟨htrailing, ?_⟩,
    ⟨hunknown, ?_⟩, harity, ?_⟩
  · exact (parse_fault_places _).2.2.1 _ _ _ hchar
  · exact (parse_fault_places _).2.2.2.1 _ htrailing
  · exact (parse_fault_places _).2.2.2.2.1 _ _ hunknown
  · exact (parse_fault_places _).2.2.2.2.2 _ _ _ _ harity

end TruthTrees.Formula
