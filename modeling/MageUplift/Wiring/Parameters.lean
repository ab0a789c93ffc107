import MageUplift.Wiring.Members

/-!
# Parameters of a constructor

The parameter list is cut at its top-level commas. Of each parameter one learns its variable, whether it
is optional or variadic, and whether it is promoted to a property; what stands in brackets, such as a
default value or an attribute, is jumped over.
-/

namespace MageUplift.Wiring

open Php

/-! ## §1. One parameter. -/

structure ParameterFacts where
  name : Option String := none
  optional : Bool := false
  variadic : Bool := false
  promoted : Bool := false
  deriving Repr, DecidableEq

structure Parameter where
  first : Nat
  last : Nat
  facts : ParameterFacts
  deriving Repr, DecidableEq

/-- Adds what the tokens from `i` to `last` say. The first variable before any `=` is the name. -/
def parameterFacts (s : TokenStream) (last : Nat) (facts : ParameterFacts) (i : Nat) : ParameterFacts :=
  if i ≤ last then
    match s.kind? i with
    | none => facts
    | some k =>
      if k = .variableName && facts.name.isNone && !facts.optional then
        parameterFacts s last { facts with name := some (variableText s i) } (i + 1)
      else if k = .equals then parameterFacts s last { facts with optional := true } (i + 1)
      else if k = .ellipsis then parameterFacts s last { facts with variadic := true } (i + 1)
      else if k.isModifier then parameterFacts s last { facts with promoted := true } (i + 1)
      else if k.isOpener then
        match _h : s.matchingClose? i with
        | none => facts
        | some close => parameterFacts s last facts (close + 1)
      else parameterFacts s last facts (i + 1)
  else facts
termination_by last + 1 - i
decreasing_by
  · omega
  · omega
  · omega
  · omega
  · have := TokenStream.lt_close _h
    omega
  · omega

/-- The parameter between two positions; `none` if only trivia stands there. -/
def parameter? (s : TokenStream) (start stop : Nat) : Option Parameter := do
  let first ← (s.nextSignificant? start).filter (· < stop)
  let last ← (s.prevSignificant? stop).filter (first ≤ ·)
  return ⟨first, last, parameterFacts s last {} first⟩

/-! ## §2. The list. -/

structure ParameterList where
  parameters : List Parameter
  trailingComma : Option Nat
  multiline : Bool
  deriving Repr, DecidableEq

/-- The parameters of a list that opens at `left` and closes at `right`, reading on at `i`; the current
parameter begins at `start`. -/
def readParameters (s : TokenStream) (left right : Nat) (start i : Nat) : List Parameter × Option Nat :=
  if i < right then
    match s.kind? i with
    | none => readParameters s left right start (i + 1)
    | some k =>
      if k = .comma then
        let rest := readParameters s left right (i + 1) (i + 1)
        ((parameter? s start i).toList ++ rest.1, rest.2)
      else if k.isOpener then
        match _h : s.matchingClose? i with
        | none => readParameters s left right start right
        | some close => readParameters s left right start (close + 1)
      else readParameters s left right start (i + 1)
  else if i = right then
    match parameter? s start i with
    | some p => ([p], none)
    | none => ([], if left + 1 < start then some (start - 1) else none)
  else ([], none)
termination_by right - i
decreasing_by
  · omega
  · omega
  · omega
  · have := TokenStream.lt_close _h
    omega
  · omega

def parameterList (s : TokenStream) (c : Constructor) : ParameterList :=
  let read := readParameters s c.left c.right (c.left + 1) (c.left + 1)
  ⟨read.1, read.2, (s.textOf c.left c.right).toList.contains '\n'⟩

def ParameterList.names (l : ParameterList) : List String := l.parameters.filterMap (·.facts.name)

def ParameterList.promotedNames (l : ParameterList) : List String :=
  (l.parameters.filter (·.facts.promoted)).filterMap (·.facts.name)

end MageUplift.Wiring
