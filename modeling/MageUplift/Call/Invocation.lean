import MageUplift.Call.Pattern
import MageUplift.Php.TokenStream

/-!
# Invocations

A recognised legacy call: where it stands, what it needs, and the edits that modernise it. The head of
the call, from `Mage` up to `headEnd`, is replaced as a whole; what follows the head keeps its tokens, so
that calls nested in the arguments are found on their own. At most one more edit, the `tail`, touches
the argument list.
-/

namespace MageUplift.Call

open Php

/-- An object that a class receives through its constructor: the variable, without its `$`, and the
fully-qualified type. -/
structure Collaborator where
  name : String
  type : String
  deriving Repr, DecidableEq

structure CodeEdit where
  span : Span
  code : String
  deriving Repr, DecidableEq

def CodeEdit.toEdit (e : CodeEdit) : Edit Token := ⟨e.span, lexFragment e.code⟩

structure Invocation where
  pattern : Pattern
  span : Span
  /-- Where the part that is replaced as a whole ends. -/
  headEnd : Nat
  legacy : String
  /-- The class or function that the call comes down to. -/
  resolvedType : String
  collaborator : Option Collaborator
  /-- The code that replaces the head. -/
  modern : String
  tail : Option CodeEdit
  deriving Repr, DecidableEq

namespace Invocation

def codeEdits (inv : Invocation) : List CodeEdit :=
  ⟨⟨inv.span.start, inv.headEnd⟩, inv.modern⟩ :: inv.tail.toList

def edits (inv : Invocation) : List (Edit Token) := inv.codeEdits.map CodeEdit.toEdit

end Invocation

end MageUplift.Call
