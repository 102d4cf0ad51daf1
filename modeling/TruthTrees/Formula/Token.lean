import TruthTrees.Text.Blank

/-! The tokens of formula text. Cutting text into tokens never fails: a character that belongs to no
token is kept as a stray one, so that a reader meets it only if it gets that far. -/
namespace TruthTrees

def isNameChar (c : Char) : Bool :=
  c.isAlphanum || c == '_'

inductive Token where
  | word (first : Char) (rest : List Char)
  | opening
  | closing
  | comma
  | stray (c : Char)
deriving DecidableEq, Repr

namespace Token

def firstChar : Token → Char
  | word first _ => first
  | opening => '('
  | closing => ')'
  | comma => ','
  | stray c => c

def ofMark : Char → Token
  | '(' => opening
  | ')' => closing
  | ',' => comma
  | c => stray c

end Token

/-- A token with the place where it starts, counted in UTF-8 bytes from the start of the text. -/
structure Lexeme where
  token : Token
  offset : Nat
deriving DecidableEq, Repr

def byteLength : List Char → Nat
  | [] => 0
  | c :: cs => c.utf8Size + byteLength cs

/-- The lexemes of a text that starts at the given offset. Blanks only separate, and a name is as
long as it can be. -/
def lexemes (offset : Nat) (text : List Char) : List Lexeme :=
  match text with
  | [] => []
  | c :: cs =>
    if Text.isBlank c then lexemes (offset + c.utf8Size) cs
    else if isNameChar c then
      let rest := cs.takeWhile isNameChar
      ⟨.word c rest, offset⟩ ::
        lexemes (offset + byteLength (c :: rest)) (cs.dropWhile isNameChar)
    else ⟨.ofMark c, offset⟩ :: lexemes (offset + c.utf8Size) cs
termination_by text.length
decreasing_by
  · simp
  · have h := (List.dropWhile_sublist isNameChar (l := cs)).length_le
    simp only [List.length_cons]
    omega
  · simp

end TruthTrees
