import MageUplift.Php.TokenStream

/-!
# The class of a file

Collaborators are injected into the first class that a file declares. `Foo::class` and `new class` do
not declare one. The header of a class holds names, commas, `extends` and `implements`, and ends with
the brace that opens the body.
-/

namespace MageUplift.Wiring

open Php

inductive ConstructorFault where
  | missingParameters | unbalancedParameters | noBody | unbalancedBody
  deriving Repr, DecidableEq

def ConstructorFault.text : ConstructorFault → String
  | .missingParameters => "missing parameter list"
  | .unbalancedParameters => "unbalanced parameter list"
  | .noBody => "constructor has no body"
  | .unbalancedBody => "unbalanced constructor body"

inductive InjectError where
  | classBodyNotFound
  | unbalancedClassBody (left : Nat)
  | malformedConstructor (span : Span) (fault : ConstructorFault)
  deriving Repr, DecidableEq

namespace InjectError

def message : InjectError → String
  | .classBodyNotFound => "no class body found"
  | .unbalancedClassBody left => "class body opened at token " ++ toString left ++ " is never closed"
  | .malformedConstructor span fault =>
    "cannot extend constructor at tokens " ++ span.text ++ ": " ++ fault.text

def span? : InjectError → Option Span
  | .classBodyNotFound => none
  | .unbalancedClassBody left => some ⟨left, left + 1⟩
  | .malformedConstructor span _ => some span

end InjectError

/-- The token at `i` is a `class` that a name follows and neither `::` nor `new` precedes. -/
def declaresClass (s : TokenStream) (i : Nat) : Bool :=
  s.hasKind i (.keyword .classKw)
    && (s.followedBy? i .identifier).isSome
    && match (s.prevSignificant? i).bind s.kind? with
      | some .doubleColon | some (.keyword .newKw) => false
      | _ => true

def classKeyword? (s : TokenStream) : Option Nat := (List.range s.size).find? (declaresClass s)

/-- The kinds that may stand between the name of a class and its body. -/
def isHeaderKind (k : Kind) : Bool :=
  k.isTrivia || k.isName || k == .comma || k == .keyword .extendsKw || k == .keyword .implementsKw

/-- The brace that opens the body, when the header goes on at `i`. -/
def bodyLeft? (s : TokenStream) (i : Nat) : Option Nat :=
  if h : i < s.tokens.size then
    let k := s.tokens[i].kind
    if k = .leftBrace then some i
    else if isHeaderKind k then bodyLeft? s (i + 1)
    else none
  else none
termination_by s.tokens.size - i

/-- The blanks at the start of the line on which the token at `i` stands. -/
def lineIndent (s : TokenStream) (i : Nat) : String :=
  let before := (s.textOf 0 i).toList
  let line := (before.reverse.takeWhile fun c => c ≠ '\n' && c ≠ '\r').reverse
  String.ofList (line.takeWhile isIndent)

structure ClassBody where
  left : Nat
  right : Nat
  indent : String
  deriving Repr, DecidableEq

def classBody (s : TokenStream) : Except InjectError ClassBody :=
  match classKeyword? s with
  | none => .error .classBodyNotFound
  | some keyword =>
    match (s.nextSignificant? (keyword + 1)).bind fun name => bodyLeft? s (name + 1) with
    | none => .error .classBodyNotFound
    | some left =>
      match s.matchingClose? left with
      | none => .error (.unbalancedClassBody left)
      | some right => .ok ⟨left, right, lineIndent s keyword⟩

end MageUplift.Wiring
