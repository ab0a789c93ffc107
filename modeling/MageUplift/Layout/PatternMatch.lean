import MageUplift.Layout.Pattern
import MageUplift.Text.WordChar

/-!
# Matching patterns

A text has a place before each of its characters and one at its end. A match of a pattern leads from the
place where it begins to the place where it ends; `Pattern.ends` finds where matches end for a whole set of
places at once, so that the work does not grow with the number of ways to match. The classes of a pattern
are looked up in the text once (`Pattern.locate`).
-/

namespace MageUplift.Layout

/-! ## §1. Places. -/

/-- A set of places of a text: bit `i` stands for the place before character `i`. -/
abbrev Places := Nat

namespace Places

def without (a b : Places) : Places := a ^^^ (a &&& b)

def behind (a : Places) : Places := a <<< 1

def upTo (n : Nat) : Places := (1 <<< (n + 1)) - 1

def passing (test : Char → Bool) : List Char → Places
  | [] => 0
  | c :: cs => 2 * passing test cs + (test c).toNat

end Places

def Assertion.places (cs : List Char) : Assertion → Places
  | .start => 1
  | .stop => 1 <<< cs.length
  | .wordStart =>
    let word := Places.passing Text.isWordChar cs
    word.without word.behind
  | .wordStop =>
    let word := Places.passing Text.isWordChar cs
    word.behind.without word

/-! ## §2. Matches. -/

/-- Where one step or more lead from some places. Each round but the last reaches a new place, so there are
at most as many rounds as places. -/
def reach (step : Places → Places) : Nat → Places → Places
  | 0, _ => 0
  | rounds + 1, reached =>
    let next := step reached
    let more := reached ||| next
    if more == reached then next else reach step rounds more

/-- A pattern for one text, with the places where its leaves match. -/
inductive LocatedPattern where
  | still (places : Places)
  | step (places : Places)
  | seq (a b : LocatedPattern)
  | alt (a b : LocatedPattern)
  | star (a : LocatedPattern)
  | plus (a : LocatedPattern)

/-- The places where the matches end that begin at one of some places of a text with `n` characters. -/
def LocatedPattern.ends (n : Nat) : LocatedPattern → Places → Places
  | .still places, starts => starts &&& places
  | .step places, starts => Places.behind (starts &&& places)
  | .seq a b, starts => b.ends n (a.ends n starts)
  | .alt a b, starts => a.ends n starts ||| b.ends n starts
  | .star a, starts => starts ||| reach (a.ends n) (n + 2) starts
  | .plus a, starts => reach (a.ends n) (n + 2) starts

namespace Pattern

def locate (cs : List Char) : Pattern → LocatedPattern
  | .empty => .still (.upTo cs.length)
  | .assertion a => .still (a.places cs)
  | .char k => .step (.passing k.accepts cs)
  | .seq a b => .seq (a.locate cs) (b.locate cs)
  | .alt a b => .alt (a.locate cs) (b.locate cs)
  | .star a => .star (a.locate cs)
  | .plus a => .plus (a.locate cs)

def ends (cs : List Char) (a : Pattern) (starts : Places) : Places := (a.locate cs).ends cs.length starts

def occursIn (a : Pattern) (text : String) : Bool :=
  a.ends text.toList (.upTo text.toList.length) != 0

end Pattern

end MageUplift.Layout
