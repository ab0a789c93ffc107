import MageUplift.Text.CaseFold

/-!
# Sets of characters

A `CodeSet` holds characters by ranges of their codes. In UTF-8 a range falls into boxes, each of which
allows a range of bytes at every place.
-/

namespace MageUplift.Text

/-- Ranges of codes, in order and apart from each other. -/
abbrev CodeSet := List (Nat × Nat)

namespace CodeSet

/-! ## §1. Sets. -/

def lastCode : Nat := 0x10FFFF

/-- A range followed by others that begin no earlier, with those put together that touch. -/
def mergeFrom (current : Nat × Nat) : List (Nat × Nat) → CodeSet
  | [] => [current]
  | range :: ranges =>
    if range.1 ≤ current.2 + 1 then mergeFrom (current.1, max current.2 range.2) ranges
    else current :: mergeFrom range ranges

def insertRange (range : Nat × Nat) : List (Nat × Nat) → List (Nat × Nat)
  | [] => [range]
  | other :: ranges => if range.1 ≤ other.1 then range :: other :: ranges else other :: insertRange range ranges

def ofRanges (ranges : List (Nat × Nat)) : CodeSet :=
  match ranges.foldr insertRange [] with
  | [] => []
  | range :: ranges => mergeFrom range ranges

def ofChars (cs : List Char) : CodeSet := ofRanges (cs.map fun c => (c.toNat, c.toNat))

def gapsFrom (start : Nat) : List (Nat × Nat) → CodeSet
  | [] => if start ≤ lastCode then [(start, lastCode)] else []
  | (low, high) :: ranges =>
    if start < low then (start, low - 1) :: gapsFrom (high + 1) ranges else gapsFrom (high + 1) ranges

def complement (s : CodeSet) : CodeSet := gapsFrom 0 s

def withCases (s : CodeSet) : CodeSet :=
  let letters := s.flatMap fun (low, high) =>
    (List.range' low (high + 1 - low)).flatMap fun code => caseVariants (Char.ofNat code)
  ofRanges (s ++ letters.map fun c => (c.toNat, c.toNat))

def single? : CodeSet → Option Char
  | [(low, high)] => if low == high then some (Char.ofNat low) else none
  | _ => none

/-! ## §2. Bytes. -/

/-- A range of bytes for each place of an encoded character. -/
abbrev Box := List (Nat × Nat)

/-- The boxes of the numbers from `low` to `high`, which are written with a leading digit of any size and
`places` more digits below 64. Whole blocks of a leading digit share a box, and a block that is not whole is
cut further. -/
def digitBoxes : Nat → Nat → Nat → List Box
  | 0, low, high => [[(low, high)]]
  | places + 1, low, high =>
    let size := Nat.pow 64 (places + 1)
    let first := low / size
    let last := high / size
    let under (digit low high : Nat) := (digitBoxes places low high).map ((digit, digit) :: ·)
    if first == last then under first (low % size) (high % size)
    else
      let wholeFirst := if low % size == 0 then first else first + 1
      let wholeStop := if high % size == size - 1 then last + 1 else last
      (if wholeFirst == first then [] else under first (low % size) (size - 1))
        ++ (if wholeFirst < wholeStop then
            [(wholeFirst, wholeStop - 1) :: List.replicate (places + 1) (0, 63)] else [])
        ++ (if wholeStop == last then under last 0 (high % size) else [])

/-- Characters that are encoded with the same number of bytes. The leading byte begins with a mark. -/
structure Block where
  first : Nat
  last : Nat
  mark : Nat
  places : Nat

/-- The blocks of UTF-8; between the third and the fourth there are no characters. -/
def blocks : List Block :=
  [⟨0, 0x7F, 0, 0⟩, ⟨0x80, 0x7FF, 0xC0, 1⟩, ⟨0x800, 0xD7FF, 0xE0, 2⟩, ⟨0xE000, 0xFFFF, 0xE0, 2⟩,
   ⟨0x10000, lastCode, 0xF0, 3⟩]

def Box.marked (mark : Nat) : Box → Box
  | [] => []
  | (low, high) :: box => (mark + low, mark + high) :: box

def boxes (s : CodeSet) : List Box :=
  s.flatMap fun (low, high) => blocks.flatMap fun block =>
    let low := max low block.first
    let high := min high block.last
    if low ≤ high then (digitBoxes block.places low high).map (Box.marked block.mark) else []

end CodeSet

end MageUplift.Text
