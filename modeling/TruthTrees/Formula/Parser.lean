import TruthTrees.Formula.Basic
import TruthTrees.Formula.Token

/-! Reading formulas. The language is

    formula  :=  name  |  name "(" formula ("," formula)* ")"  |  "(" formula ")"

where a name that is followed by arguments is that of an operator of as many arguments. The first
fault in reading order is the one reported. -/
namespace TruthTrees

/-- What a reader was looking for when it met something else. -/
inductive Expectation where
  | formula
  | closing
  | separator
deriving DecidableEq, Repr

def Expectation.text : Expectation → String
  | formula => "formula"
  | closing => "')'"
  | separator => "',' or ')'"

/-- Why a text is no formula. Offsets count UTF-8 bytes. -/
inductive SyntaxError where
  | empty
  | unexpectedEnd (expected : Expectation)
  | unexpectedChar (found : Char) (offset : Nat) (expected : Expectation)
  | unknownConnective (name : String) (offset : Nat)
  | wrongArity (name : String) (offset expected found : Nat)
  | trailingInput (offset : Nat)
deriving DecidableEq, Repr

def SyntaxError.message : SyntaxError → String
  | empty => "empty formula"
  | unexpectedEnd expected => "unexpected end of input, expected " ++ expected.text
  | unexpectedChar found offset expected =>
    "unexpected character '" ++ found.toString ++ "' at " ++ toString offset ++ ", expected "
      ++ expected.text
  | unknownConnective name offset =>
    "unknown connective '" ++ name ++ "' at " ++ toString offset
  | wrongArity name offset expected found =>
    "connective '" ++ name ++ "' at " ++ toString offset ++ " takes " ++ toString expected
      ++ " argument(s), found " ++ toString found
  | trailingInput offset => "trailing input at " ++ toString offset

namespace Formula

def unexpected (expected : Expectation) : List Lexeme → SyntaxError
  | [] => .unexpectedEnd expected
  | lexeme :: _ => .unexpectedChar lexeme.token.firstChar lexeme.offset expected

def ofCall (name : String) (offset : Nat) (args : List Formula) : Except SyntaxError Formula :=
  match Operator.ofName? name with
  | none => .error (.unknownConnective name offset)
  | some op =>
    match op, args with
    | .not, [φ] => .ok (.not φ)
    | .and, [φ, ψ] => .ok (.and φ ψ)
    | .or, [φ, ψ] => .ok (.or φ ψ)
    | .imp, [φ, ψ] => .ok (.imp φ ψ)
    | .iff, [φ, ψ] => .ok (.iff φ ψ)
    | op, args => .error (.wrongArity name offset op.arity args.length)

abbrev Rest (ls : List Lexeme) : Type :=
  { rest : List Lexeme // rest.length < ls.length }

mutual

def readFormula (ls : List Lexeme) : Except SyntaxError (Formula × Rest ls) :=
  match ls with
  | ⟨.opening, _⟩ :: inner =>
    match readFormula inner with
    | .error e => .error e
    | .ok (φ, after) =>
      match h : after.val with
      | ⟨.closing, _⟩ :: rest => .ok (φ, ⟨rest, by have := after.property; simp_all; omega⟩)
      | rest => .error (unexpected .closing rest)
  | ⟨.word first more, offset⟩ :: ⟨.opening, _⟩ :: inner =>
    match readArguments inner with
    | .error e => .error e
    | .ok (args, rest) =>
      match ofCall (String.ofList (first :: more)) offset args with
      | .error e => .error e
      | .ok φ => .ok (φ, ⟨rest.val, by have := rest.property; simp_all; omega⟩)
  | ⟨.word first more, _⟩ :: rest =>
    .ok (.literal (String.ofList (first :: more)), ⟨rest, by simp⟩)
  | ls => .error (unexpected .formula ls)
termination_by 2 * ls.length

/-- Reads the arguments of a call, from behind its opening bracket to its closing one. -/
def readArguments (ls : List Lexeme) : Except SyntaxError (List Formula × Rest ls) :=
  match readFormula ls with
  | .error e => .error e
  | .ok (φ, after) =>
    match h : after.val with
    | ⟨.comma, _⟩ :: more =>
      match readArguments more with
      | .error e => .error e
      | .ok (φs, rest) =>
        .ok (φ :: φs, ⟨rest.val, by have := rest.property; have := after.property; simp_all; omega⟩)
    | ⟨.closing, _⟩ :: rest =>
      .ok ([φ], ⟨rest, by have := after.property; simp_all; omega⟩)
    | rest => .error (unexpected .separator rest)
termination_by 2 * ls.length + 1
decreasing_by
  · simp
  · have := after.property
    simp_all
    omega

end

def ofLexemes (ls : List Lexeme) : Except SyntaxError Formula :=
  match ls with
  | [] => .error .empty
  | ls =>
    match readFormula ls with
    | .error e => .error e
    | .ok (φ, ⟨[], _⟩) => .ok φ
    | .ok (_, ⟨lexeme :: _, _⟩) => .error (.trailingInput lexeme.offset)

/-- The formula that a text spells, or the first fault in it. -/
def parse (text : String) : Except SyntaxError Formula :=
  ofLexemes (lexemes 0 text.toList)

end Formula

end TruthTrees
