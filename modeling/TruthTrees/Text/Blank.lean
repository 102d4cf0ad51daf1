/-! Blank characters and the ways a line of text is cut at them. A character is blank when it has
the Unicode property `White_Space`, which is wider than the ASCII blanks. -/
namespace TruthTrees.Text

/-- The code points with the property `White_Space`, in increasing order. -/
def blankCodes : List Nat :=
  [0x09, 0x0A, 0x0B, 0x0C, 0x0D, 0x20, 0x85, 0xA0, 0x1680,
   0x2000, 0x2001, 0x2002, 0x2003, 0x2004, 0x2005, 0x2006, 0x2007, 0x2008, 0x2009, 0x200A,
   0x2028, 0x2029, 0x202F, 0x205F, 0x3000]

def isBlank (c : Char) : Bool :=
  blankCodes.contains c.toNat

def trim (cs : List Char) : List Char :=
  ((cs.dropWhile isBlank).reverse.dropWhile isBlank).reverse

def firstWord (cs : List Char) : List Char × List Char :=
  (cs.takeWhile (fun c => !isBlank c), (cs.dropWhile (fun c => !isBlank c)).drop 1)

def words (cs : List Char) : List (List Char) :=
  (cs.splitBy (fun a b => isBlank a == isBlank b)).filter (fun run => !run.all isBlank)

/-- The pieces of a text between line ends. A text that ends with a line end has an empty last
piece. -/
def lines : List Char → List (List Char)
  | [] => [[]]
  | c :: cs =>
    if c = '\n' then [] :: lines cs
    else match lines cs with
      | [] => [[c]]
      | piece :: rest => (c :: piece) :: rest

end TruthTrees.Text
