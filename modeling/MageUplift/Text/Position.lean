/-!
# Lines and columns

A line ends with `\n`, `\r\n` or a lone `\r`. A `LineIndex` holds where the lines of a text begin, and
turns a byte offset into the line and the column, both counted from zero. An offset past the end stands
for the end. The line is found by halving: the starts of the lines are in ascending order.
-/

namespace MageUplift.Text

structure Position where
  line : UInt32
  column : UInt32
  deriving Repr, DecidableEq

def Position.displayLine (p : Position) : UInt32 := p.line + 1

/-! ## §1. Searching ascending numbers. -/

/-- Where a number belongs among ascending ones. -/
inductive Slot where
  | found (i : Nat)
  | missing (i : Nat)
  deriving Repr, DecidableEq

/-- Halves the `size` indices from `base` on, one of which is the last that holds no greater number than
`x`, until there is one left. -/
def halve (numbers : Array Nat) (x base size : Nat) : Nat :=
  if size ≤ 1 then base
  else
    let half := size / 2
    halve numbers x (if x < numbers.getD (base + half) 0 then base else base + half) (size - half)
termination_by size

def binarySearch (numbers : Array Nat) (x : Nat) : Slot :=
  if numbers.isEmpty then .missing 0
  else
    let i := halve numbers x 0 numbers.size
    match compare (numbers.getD i 0) x with
    | .eq => .found i
    | .lt => .missing (i + 1)
    | .gt => .missing i

/-! ## §2. Lines. -/

/-- The ends of the line breaks of a text whose first character is at byte `offset`, in order. -/
def lineBreakEnds (offset : Nat) : List Char → List Nat
  | [] => []
  | '\r' :: '\n' :: cs => (offset + 2) :: lineBreakEnds (offset + 2) cs
  | c :: cs =>
    let after := offset + c.utf8Size
    if c == '\n' || c == '\r' then after :: lineBreakEnds after cs else lineBreakEnds after cs

structure LineIndex where
  starts : Array Nat
  size : Nat
  deriving Repr, DecidableEq

namespace LineIndex

def ofText (text : String) : LineIndex := ⟨(0 :: lineBreakEnds 0 text.toList).toArray, text.utf8ByteSize⟩

def lineCount (index : LineIndex) : Nat := index.starts.size

def lineOf (index : LineIndex) (offset : Nat) : Nat :=
  match binarySearch index.starts offset with
  | .found line => line
  | .missing next => next - 1

def position (index : LineIndex) (offset : Nat) : Position :=
  let here := min offset index.size
  let line := index.lineOf here
  ⟨line.toUInt32, (here - index.starts.getD line 0).toUInt32⟩

end LineIndex

end MageUplift.Text
