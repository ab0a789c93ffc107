import MageUplift.Layout.Pattern

/-!
# Patterns as they are written

A `PatternTree` keeps what a pattern has in writing and its meaning does not need: groups, and how often
something is repeated.
-/

namespace MageUplift.Layout

/-- How often something is repeated. A reluctant repetition prefers to end early; that changes which match
is preferred, not whether there is one. -/
structure Repetition where
  low : Nat
  high : Option Nat
  reluctant : Bool
  deriving Repr, DecidableEq

def Repetition.apply (times : Repetition) (a : Pattern) : Pattern :=
  match times.low, times.high with
  | 0, some 1 => a.optional
  | 0, none => .star a
  | 1, none => .plus a
  | low, high => a.repeated low high

inductive PatternTree where
  | empty
  | char (k : CharClass)
  | assertion (a : Assertion)
  | group (numbered : Bool) (inner : PatternTree)
  | repeated (times : Repetition) (inner : PatternTree)
  | seq (a b : PatternTree)
  | alt (a b : PatternTree)
  deriving Repr, DecidableEq

namespace PatternTree

def sequence : List PatternTree → PatternTree
  | [] => .empty
  | [a] => a
  | a :: parts => .seq a (sequence parts)

def choice : List PatternTree → PatternTree
  | [] => .empty
  | [a] => a
  | a :: branches => .alt a (choice branches)

def pattern : PatternTree → Pattern
  | .empty => .empty
  | .char k => .char k
  | .assertion a => .assertion a
  | .group _ a => a.pattern
  | .repeated times a => times.apply a.pattern
  | .seq a b => .seq a.pattern b.pattern
  | .alt a b => .alt a.pattern b.pattern

def isSeq : PatternTree → Bool
  | .seq _ _ => true
  | _ => false

def isAlt : PatternTree → Bool
  | .alt _ _ => true
  | _ => false

/-- The number of constructs around the deepest place of a pattern. Groups, repetition marks, sets,
sequences and choices count, each once, and so do the items of a set that has several. -/
def depth : PatternTree → Nat
  | .empty | .char (.letter _) | .char .any | .assertion _ => 0
  | .char (.ranges _ items) => if items.length ≤ 1 then 1 else 2
  | .group _ a => a.depth + 1
  | .repeated _ a => a.depth + 1
  | .seq a b => max (a.depth + 1) (if b.isSeq then b.depth else b.depth + 1)
  | .alt a b => max (a.depth + 1) (if b.isAlt then b.depth else b.depth + 1)

end PatternTree

end MageUplift.Layout
