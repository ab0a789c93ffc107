/-!
# Ranges of code points

Properties and mappings of characters are given by tables of ranges. `inRanges` asks a property table,
`inRuns` one that gives the ranges by their sizes, `shifted?` a mapping table whose entries move every
`stride`-th code point of a range by the same amount.
-/

namespace MageUplift.Text

/-- The code point lies in one of the ranges, both ends of which count. -/
def inRanges (table : List (Nat × Nat)) (code : Nat) : Bool :=
  table.any fun (first, last) => first ≤ code && code ≤ last

/-- The code point lies in one of the runs. The table gives in turn how many code points lie outside before
a run and how many the run holds. -/
def inRuns : List Nat → Nat → Bool
  | outside :: inside :: table, code =>
    outside ≤ code && (code < outside + inside || inRuns table (code - (outside + inside)))
  | _, _ => false

/-- The code points `first`, `first + stride`, … up to `last` are mapped `offset` places away. -/
structure Shift where
  first : Nat
  last : Nat
  stride : Nat
  offset : Int

def shifted? (table : List Shift) (c : Char) : Option Char :=
  let code := c.toNat
  (table.find? fun s => s.first ≤ code && code ≤ s.last && (code - s.first) % s.stride == 0).map
    fun s => Char.ofNat ((code : Int) + s.offset).toNat

def Shift.source? (s : Shift) (c : Char) : Option Char :=
  let code := (c.toNat : Int) - s.offset
  if (s.first : Int) ≤ code && code ≤ s.last && (code.toNat - s.first) % s.stride == 0 then
    some (Char.ofNat code.toNat)
  else none

end MageUplift.Text
