/-! Reading a number that a user typed. A numeral is one or more ASCII digits, after at most one
plus sign, and its value fits in 64 bits. -/
namespace TruthTrees.Text

/-- The largest number a numeral may stand for: the largest one of 64 bits. -/
def largestNumber : Nat := 0xFFFFFFFFFFFFFFFF

def digitsValue (cs : List Char) : Nat :=
  cs.foldl (fun n c => 10 * n + (c.toNat - '0'.toNat)) 0

/-- The number a numeral stands for, or nothing when the text is no numeral. Leading zeros are
allowed, a minus sign and any other separator are not. -/
def readNumber? (cs : List Char) : Option Nat :=
  let digits := match cs with
    | '+' :: rest => rest
    | _ => cs
  if digits.isEmpty || !digits.all Char.isDigit then none
  else
    let n := digitsValue digits
    if n ≤ largestNumber then some n else none

def padLeft (width : Nat) (n : Nat) : String :=
  let digits := toString n
  String.ofList (List.replicate (width - digits.length) ' ') ++ digits

end TruthTrees.Text
