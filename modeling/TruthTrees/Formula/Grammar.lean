import TruthTrees.Formula.Basic
import TruthTrees.Formula.Token

/-! The language of formulas as a grammar over tokens. It says which token sequences spell which
formula, and nothing about how one is found. -/
namespace TruthTrees

def Token.Names (w : Token) (op : Operator) : Prop :=
  ∃ first rest, w = .word first rest ∧ (first :: rest).map Char.toLower = op.name.toList

/-- The token sequences that spell a formula: a name, a formula in brackets, or the name of an
operator before its operands. -/
inductive Derives : List Token → Formula → Prop
  | literal (first : Char) (rest : List Char) :
    Derives [.word first rest] (.literal (String.ofList (first :: rest)))
  | bracket {ts : List Token} {φ : Formula} (h : Derives ts φ) :
    Derives (.opening :: (ts ++ [.closing])) φ
  | not {w : Token} {ts : List Token} {φ : Formula} (hw : w.Names .not) (h : Derives ts φ) :
    Derives (w :: .opening :: (ts ++ [.closing])) (.not φ)
  | and {w : Token} {ts us : List Token} {φ ψ : Formula} (hw : w.Names .and)
      (hl : Derives ts φ) (hr : Derives us ψ) :
    Derives (w :: .opening :: (ts ++ .comma :: (us ++ [.closing]))) (.and φ ψ)
  | or {w : Token} {ts us : List Token} {φ ψ : Formula} (hw : w.Names .or)
      (hl : Derives ts φ) (hr : Derives us ψ) :
    Derives (w :: .opening :: (ts ++ .comma :: (us ++ [.closing]))) (.or φ ψ)
  | imp {w : Token} {ts us : List Token} {φ ψ : Formula} (hw : w.Names .imp)
      (hl : Derives ts φ) (hr : Derives us ψ) :
    Derives (w :: .opening :: (ts ++ .comma :: (us ++ [.closing]))) (.imp φ ψ)
  | iff {w : Token} {ts us : List Token} {φ ψ : Formula} (hw : w.Names .iff)
      (hl : Derives ts φ) (hr : Derives us ψ) :
    Derives (w :: .opening :: (ts ++ .comma :: (us ++ [.closing]))) (.iff φ ψ)

end TruthTrees
