import MageUplift.Text.CaseFold

/-!
# Patterns of names

A `Pattern` is a regular expression without regard to case. Its leaves are classes of characters, and
assertions about the place between two characters.
-/

namespace MageUplift.Layout

open MageUplift.Text (sameLetter)

/-! ## §1. Characters. -/

inductive CharClass where
  | letter (c : Char)
  | any
  /-- The characters of some ranges in either case, or all others. -/
  | ranges (negated : Bool) (items : List (Char × Char))
  deriving Repr, DecidableEq

def rangeHolds (low high c : Char) : Bool :=
  (List.range (high.toNat + 1 - low.toNat)).any fun i =>
    (low.toNat + i).isValidChar && sameLetter (Char.ofNat (low.toNat + i)) c

def CharClass.accepts : CharClass → Char → Bool
  | .letter l, c => sameLetter l c
  | .any, c => c != '\n'
  | .ranges negated items, c => negated != items.any fun (low, high) => rangeHolds low high c

/-! ## §2. Patterns. -/

/-- What can be asked of a place between two characters. -/
inductive Assertion where
  | start
  | stop
  | wordStart
  | wordStop
  deriving Repr, DecidableEq

inductive Pattern where
  | empty
  | assertion (a : Assertion)
  | char (k : CharClass)
  | seq (a b : Pattern)
  | alt (a b : Pattern)
  | star (a : Pattern)
  | plus (a : Pattern)
  deriving Repr, DecidableEq

namespace Pattern

def optional (a : Pattern) : Pattern := .alt a .empty

def all (parts : List Pattern) : Pattern := parts.foldr .seq .empty

def repeated (a : Pattern) (low : Nat) : Option Nat → Pattern
  | none => all (List.replicate low a ++ [.star a])
  | some high => all (List.replicate low a ++ List.replicate (high - low) a.optional)

end Pattern

end MageUplift.Layout
