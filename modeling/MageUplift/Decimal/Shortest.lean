/-!
# The shortest decimal of a binary64 number

A decimal is rounded to the nearest number with a significand of 53 bits (`nearest?`), and such a number
is written with the fewest digits that read back as it (`shortest`). All arithmetic is exact on natural
numbers.
-/

namespace MageUplift.Decimal

/-- The number `significand · 2 ^ exponent`. A significand of 53 bits, or the least exponent, makes the
form unique. -/
structure Binary where
  significand : Nat
  exponent : Int
  deriving Repr, DecidableEq

/-- The number `digits · 10 ^ exponent`. -/
structure Scaled where
  digits : Nat
  exponent : Int
  deriving Repr, DecidableEq

def scale (num den base : Nat) (exponent : Int) : Nat × Nat :=
  if 0 ≤ exponent then (num * base.pow exponent.toNat, den) else (num, den * base.pow (-exponent).toNat)

/-- A quotient rounded to the nearest whole number, a half to the even neighbour. -/
def roundHalfEven (num den : Nat) : Nat :=
  let q := num / den
  let twice := 2 * (num % den)
  if twice < den then q
  else if den < twice then q + 1
  else if q % 2 == 0 then q else q + 1

def floorLog2 (num den : Nat) : Int :=
  let guess : Int := (Nat.log2 num : Int) - Nat.log2 den
  let (_, bound) := scale num den 2 (-guess)
  let (scaled, _) := scale num den 2 (-guess)
  if bound ≤ scaled then guess else guess - 1

def digitCount (n : Nat) : Nat := (Nat.toDigits 10 n).length

def leadingBit : Nat := 0x10000000000000

def nearest? (x : Scaled) : Option Binary :=
  let magnitude := x.exponent + digitCount x.digits
  if x.digits == 0 || magnitude < -330 then some ⟨0, 0⟩
  else if 310 < magnitude then none
  else
    let (num, den) := scale x.digits 1 10 x.exponent
    let exponent := max (floorLog2 num den - 52) (-1074)
    let (n, d) := scale num den 2 (-exponent)
    let rounded := roundHalfEven n d
    let result : Binary := if rounded == 2 * leadingBit then ⟨leadingBit, exponent + 1⟩ else ⟨rounded, exponent⟩
    if result.significand == 0 then some ⟨0, 0⟩
    else if 971 < result.exponent then none
    else some result

/-- The whole part of the decimal logarithm of a positive fraction, plus one: how many digits stand before
the point. -/
def leadingPlace (num den : Nat) : Int :=
  if den ≤ num then digitCount (num / den)
  else
    -- The reciprocal rounded up has one digit more than there are zeros behind the point.
    1 - (digitCount ((den + num - 1) / num - 1) : Int)

/-- Of the two decimals with `count` digits around a fraction, those that read back as `target`, the nearer
one first, and of two that are equally near the greater one. -/
def candidate? (target : Binary) (num den count : Nat) : Option Scaled :=
  let exponent := leadingPlace num den - count
  let (n, d) := scale num den 10 (-exponent)
  let below : Scaled := ⟨n / d, exponent⟩
  -- One more than all nines is a power of ten, which has a single digit.
  let above : Scaled := if n / d + 1 == Nat.pow 10 count then ⟨1, exponent + count⟩ else ⟨n / d + 1, exponent⟩
  let ordered := if 2 * (n % d) < d then [below, above] else [above, below]
  ordered.find? fun x => nearest? x == some target

/-- The decimal with the fewest digits that reads back as a binary64 number. Seventeen digits always do. -/
def shortest (x : Binary) : Scaled :=
  if x.significand == 0 then ⟨0, 0⟩
  else
    let (num, den) := scale x.significand 1 2 x.exponent
    ((List.range 17).findSome? fun count => candidate? x num den (count + 1)).getD ⟨0, 0⟩

/-- A decimal without exponent, with at least one digit on both sides of the point. -/
def Scaled.text (x : Scaled) : String :=
  let digits := toString x.digits
  if 0 ≤ x.exponent then digits ++ String.ofList (List.replicate x.exponent.toNat '0') ++ ".0"
  else
    let places := (-x.exponent).toNat
    let padded := List.replicate (places + 1 - digits.length) '0' ++ digits.toList
    let whole := padded.length - places
    String.ofList (padded.take whole) ++ "." ++ String.ofList (padded.drop whole)

end MageUplift.Decimal
