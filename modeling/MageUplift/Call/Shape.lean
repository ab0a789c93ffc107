import MageUplift.Php.TokenStream

/-!
# The parts of a call

What a static call on `Mage` looks like in a token stream: its head `Mage::method`, a single literal
argument, and an argument list with the commas at its top level. Trivia between the parts does not
matter.
-/

namespace MageUplift.Call

open Php

/-! ## §1. The head. -/

/-- The tokens of `Mage :: method` that later questions start from. -/
structure Head where
  mage : Nat
  method : Nat
  deriving Repr, DecidableEq

/-- The token is the class `Mage`, with or without a leading separator. -/
def isMage (t : Token) : Bool :=
  match t.kind with
  | .identifier => sameWord t.text "Mage"
  | .qualifiedName => sameWord t.text "\\Mage"
  | _ => false

/-- The token at `i` is the member that an arrow or a double colon selects. -/
def isMember (s : TokenStream) (i : Nat) : Bool :=
  match (s.prevSignificant? i).bind s.kind? with
  | some .arrow | some .nullsafeArrow | some .doubleColon => true
  | _ => false

def head? (s : TokenStream) (i : Nat) : Option Head := do
  let t ← s.get? i
  if isMage t && !isMember s i then
    let colons ← s.followedBy? i .doubleColon
    let method ← s.followedBy? colons .identifier
    return ⟨i, method⟩
  else none

/-! ## §2. A literal argument. -/

/-- What stands between the quotes of a string literal without escapes, variables and quotes. -/
def unquote? (text : String) : Option String :=
  match text.toList with
  | [] => none
  | quote :: cs =>
    if (quote == '\x27' || quote == '\x22') && cs.getLast? == some quote then
      let inner := cs.dropLast
      if inner.any fun c => c == '\\' || c == '$' || c == '\x27' || c == '\x22' then none
      else some (String.ofList inner)
    else none

structure LiteralArgument where
  close : Nat
  value : String
  deriving Repr, DecidableEq

def literalArgument? (s : TokenStream) (method : Nat) : Option LiteralArgument := do
  let left ← s.followedBy? method .leftParen
  let literal ← s.followedBy? left .stringLiteral
  let close ← s.followedBy? literal .rightParen
  let value ← unquote? (s.text literal)
  return ⟨close, value⟩

/-! ## §3. An argument list. -/

/-- The commas from `i` up to `stop` that stand inside no bracket; `none` if a bracket is not closed. -/
def topCommas? (s : TokenStream) (stop : Nat) (i : Nat) : Option (List Nat) :=
  if i < stop then
    match s.kind? i with
    | none => none
    | some k =>
      if k.isOpener then
        match _h : s.matchingClose? i with
        | none => none
        | some close => topCommas? s stop (close + 1)
      else (topCommas? s stop (i + 1)).map fun commas => if k = .comma then i :: commas else commas
  else some []
termination_by stop - i
decreasing_by
  · have := TokenStream.lt_close _h
    omega
  · omega

structure Arguments where
  left : Nat
  close : Nat
  commas : List Nat
  deriving Repr, DecidableEq

def arguments? (s : TokenStream) (method : Nat) : Option Arguments := do
  let left ← s.followedBy? method .leftParen
  let close ← s.matchingClose? left
  let commas ← topCommas? s close (left + 1)
  return ⟨left, close, commas⟩

def Arguments.isEmpty (args : Arguments) (s : TokenStream) : Bool :=
  s.nextSignificant? (args.left + 1) == some args.close

end MageUplift.Call
