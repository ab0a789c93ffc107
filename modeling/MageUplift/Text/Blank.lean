import MageUplift.Text.CodeRange

/-!
# White space and trimming

The characters with the Unicode property White_Space, and the removal of such characters at both ends of
a text.
-/

namespace MageUplift.Text

/-- The code points with the property White_Space. -/
def whiteSpaceRanges : List (Nat × Nat) :=
  [(9, 13), (32, 32), (133, 133), (160, 160), (5760, 5760), (8192, 8202), (8232, 8233), (8239, 8239),
   (8287, 8287), (12288, 12288)]

def isWhiteSpace (c : Char) : Bool := inRanges whiteSpaceRanges c.toNat

def trimEnd (cs : List Char) : List Char := (cs.reverse.dropWhile isWhiteSpace).reverse

def trim (s : String) : String := String.ofList (trimEnd (s.toList.dropWhile isWhiteSpace))

end MageUplift.Text
