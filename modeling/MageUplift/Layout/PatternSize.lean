import MageUplift.Layout.PatternTree
import MageUplift.Text.CodeSet

/-!
# The size of a pattern

A pattern may not take more memory than `sizeLimit` when a machine is built for it that reads the bytes of a
text from the end. The machine is built after a `Blueprint`, in which sequences and choices are flat, runs
of characters without case are literals, choices among characters are sets, and what all branches of a choice
begin with stands in front of it.
-/

namespace MageUplift.Layout

open MageUplift.Text (CodeSet)

/-! ## §1. Blueprints. -/

def CharClass.codes : CharClass → CodeSet
  | .letter c => CodeSet.ofChars (Text.caseVariants c)
  | .any => CodeSet.complement [('\n'.toNat, '\n'.toNat)]
  | .ranges negated items =>
    let held := CodeSet.withCases (CodeSet.ofRanges (items.map fun (low, high) => (low.toNat, high.toNat)))
    if negated then held.complement else held

/-- What a machine is built after. The first part of a sequence is no sequence, and the first branch of a
choice no choice. -/
inductive Blueprint where
  | empty
  | literal (text : List Char)
  | set (codes : CodeSet)
  | assertion (a : Assertion)
  | group (inner : Blueprint)
  | repeated (times : Repetition) (inner : Blueprint)
  | seq (a b : Blueprint)
  | alt (a b : Blueprint)
  deriving Repr, DecidableEq

namespace Blueprint

def ofCodes (codes : CodeSet) : Blueprint :=
  match codes.single? with
  | some c => .literal [c]
  | none => .set codes

/-- Whether every match takes a character. -/
def takes : Blueprint → Bool
  | .literal _ | .set _ => true
  | .empty | .assertion _ => false
  | .group a => a.takes
  | .repeated times a => times.low != 0 && a.takes
  | .seq a b => a.takes || b.takes
  | .alt a b => a.takes && b.takes

/-- Whether no match takes a character. -/
def isStill : Blueprint → Bool
  | .literal _ | .set _ => false
  | .empty | .assertion _ => true
  | .group a => a.isStill
  | .repeated _ a => a.isStill
  | .seq a b => a.isStill && b.isStill
  | .alt a b => a.isStill && b.isStill

/-- A repetition. It makes no difference to repeat what takes no character. -/
def ofRepetition (times : Repetition) (a : Blueprint) : Blueprint :=
  let times : Repetition :=
    if a.isStill then { times with low := min times.low 1, high := some (min (times.high.getD 1) 1) }
    else times
  if times.high == some 0 then .empty
  else if times.low == 1 && times.high == some 1 then a
  else .repeated times a

/-! ## §2. Sequences. -/

/-- A part in front of a sequence. A literal in front of a literal is one with it. -/
def cons : Blueprint → Blueprint → Blueprint
  | a, .empty => a
  | .literal s, .literal t => .literal (s ++ t)
  | .literal s, .seq (.literal t) rest => .seq (.literal (s ++ t)) rest
  | a, b => .seq a b

def append : Blueprint → Blueprint → Blueprint
  | .empty, b => b
  | .seq a rest, b => a.cons (rest.append b)
  | a, b => a.cons b

def ofParts (parts : List Blueprint) : Blueprint := parts.foldr append .empty

def parts : Blueprint → List Blueprint
  | .seq a b =>
    match b.parts with
    | [] => [a, b]
    | others => a :: others
  | _ => []

/-! ## §3. Choices. -/

/-- The branches of a choice; anything else is its own only branch. -/
def branches : Blueprint → List Blueprint
  | .alt a b => a :: b.branches
  | a => [a]

/-- The character that a literal of one character is for. -/
def char? : Blueprint → Option Char
  | .literal [c] => some c
  | _ => none

def codes? : Blueprint → Option CodeSet
  | .set codes => some codes
  | _ => none

/-- A choice among characters, or among sets of them, is a set. -/
def asSet? (bs : List Blueprint) : Option Blueprint :=
  match bs.mapM char? with
  | some cs => some (ofCodes (CodeSet.ofChars cs))
  | none => (bs.mapM codes?).map fun sets => ofCodes (CodeSet.ofRanges sets.flatten)

/-- A choice among branches that begin with nothing in common. -/
def ofBranches : List Blueprint → Blueprint
  | [] => .set []
  | [a] => a
  | a :: bs => .alt a (ofBranches bs)

def hasGroup : Blueprint → Bool
  | .group _ => true
  | .repeated _ a => a.hasGroup
  | .seq a b => a.hasGroup || b.hasGroup
  | .alt a b => a.hasGroup || b.hasGroup
  | _ => false

/-- What two sequences begin with in common. Each group is different from all others. -/
def commonStart : List Blueprint → List Blueprint → List Blueprint
  | a :: as, b :: bs => if a == b && !a.hasGroup then a :: commonStart as bs else []
  | _, _ => []

def sharedStart : List Blueprint → List Blueprint
  | [] | [_] => []
  | a :: bs => bs.foldl (fun start b => commonStart start b.parts) a.parts

/-- A choice among branches. Once what they share is put in front, the rests share nothing. -/
def choice (given : List Blueprint) : Blueprint :=
  let flat (bs : List Blueprint) := bs.flatMap branches
  let united (bs : List Blueprint) := (asSet? bs).getD (ofBranches bs)
  let all := flat given
  match sharedStart all with
  | [] => united all
  | start => ofParts (start ++ [united (flat (all.map fun b => ofParts (b.parts.drop start.length)))])

end Blueprint

def PatternTree.blueprints : PatternTree → List Blueprint
  | .empty => [.empty]
  | .char k => [.ofCodes k.codes]
  | .assertion a => [.assertion a]
  | .group numbered a =>
    let inner := Blueprint.choice a.blueprints
    [if numbered then .group inner else inner]
  | .repeated times a => [.ofRepetition times (.choice a.blueprints)]
  | .seq a b => [(Blueprint.choice a.blueprints).append (.choice b.blueprints)]
  | .alt a b => .choice a.blueprints :: b.blueprints

def PatternTree.blueprint (a : PatternTree) : Blueprint := .choice a.blueprints

/-! ## §4. Sizes. -/

/-- The bytes of a state of a machine. -/
def stateSize : Nat := 32

/-- The bytes of one of several ways on that read nothing. -/
def branchSize : Nat := 4

/-- The bytes of one of several ways on that read a byte. -/
def stepSize : Nat := 8

/-- How many places two boxes have in common at the front. -/
def sharedPlaces : CodeSet.Box → CodeSet.Box → Nat
  | a :: as, b :: bs => if a = b then sharedPlaces as bs + 1 else 0
  | _, _ => 0

/-- The places of boxes in order, where those that a box shares with the one before it count once. -/
def distinctPlaces : List CodeSet.Box → Nat
  | [] => 0
  | [box] => box.length
  | box :: next :: boxes => box.length - sharedPlaces box next + distinctPlaces (next :: boxes)

/-- The size of a set. ASCII is decided in one step; else each box is a way of its own through its bytes. -/
def setSize (codes : CodeSet) : Nat :=
  if codes.all fun (_, high) => high < 128 then 2 * stateSize + codes.length * stepSize
  else
    let boxes := codes.boxes
    (2 + distinctPlaces boxes) * stateSize + boxes.length * branchSize

def repetitionSize (times : Repetition) (size : Nat) (takes : Bool) : Nat :=
  let loop := stateSize + 2 * branchSize
  match times.low, times.high with
  | 0, none => size + if takes then loop else loop + 2 * stateSize + 2 * branchSize
  | low, none => low * size + loop
  | 0, some 1 => size + 2 * stateSize + 2 * branchSize
  | low, some high =>
    if low == high then low * size
    else
      (if low == 0 then stateSize else low * size) + stateSize
        + (high - low) * (size + stateSize + 2 * branchSize)

def Blueprint.isAlt : Blueprint → Bool
  | .alt _ _ => true
  | _ => false

def Blueprint.size : Blueprint → Nat
  | .empty | .assertion _ => stateSize
  | .literal text => (text.map Char.utf8Size).sum * stateSize
  | .set codes => setSize codes
  | .group a => a.size
  | .repeated times a => repetitionSize times a.size a.takes
  | .seq a b => a.size + b.size
  | .alt a b => a.size + branchSize + b.size + if b.isAlt then 0 else branchSize + 2 * stateSize

def PatternTree.machineSize (a : PatternTree) : Nat := a.blueprint.size + 2 * stateSize

def sizeLimit : Nat := 10485760

end MageUplift.Layout
