import MageUplift.Php.Lexeme
import MageUplift.Php.Token

/-!
# The lexer

`steps` cuts a text at the lengths that `lexeme` measures. The tokens put together again are the text
(`flatMap_steps_text`), whatever the text is: what cannot be read is an `error` token, and what is not
terminated runs to the end and is reported.

A file starts outside PHP code, a fragment of generated code inside it. Positions of errors count
UTF-8 bytes from the start of the text.
-/

namespace MageUplift.Php

def byteLength : List Char → Nat
  | [] => 0
  | c :: cs => c.utf8Size + byteLength cs

structure LexError where
  fault : Fault
  start : Nat
  stop : Nat
  deriving Repr, DecidableEq

def LexError.text (e : LexError) : String :=
  e.fault.message ++ " at " ++ toString e.start ++ ".." ++ toString e.stop

structure LexStep where
  token : Token
  errors : List LexError
  deriving Repr, DecidableEq

/-- The faults of a lexeme that starts at byte `offset` of the text and covers `chars`. -/
def Lexeme.errors (l : Lexeme) (offset : Nat) (chars : List Char) : List LexError :=
  l.faults.map fun (fault, start) =>
    ⟨fault, offset + byteLength (chars.take start), offset + byteLength chars⟩

/-- Reads a text to its end. `last` is the kind of the last token that was not trivia, and `offset` the
number of bytes read before. -/
def steps (mode : Mode) (last : Option Kind) (offset : Nat) : List Char → List LexStep
  | [] => []
  | c :: cs =>
    let l := lexeme mode last c cs
    let chars := (c :: cs).take l.length
    let seen := if l.kind.isTrivia then last else some l.kind
    ⟨⟨l.kind, String.ofList chars⟩, l.errors offset chars⟩
      :: steps l.next seen (offset + byteLength chars) ((c :: cs).drop l.length)
termination_by cs => cs.length
decreasing_by
  have := (lexeme mode last c cs).length_pos
  simp only [List.length_drop, List.length_cons]
  omega

def lexSteps (source : String) : List LexStep := steps .html none 0 source.toList

def lex (source : String) : List Token := (lexSteps source).map LexStep.token

def lexErrors (source : String) : List LexError := (lexSteps source).flatMap LexStep.errors

def lexFragment (text : String) : List Token := (steps .php none 0 text.toList).map LexStep.token

@[simp] theorem steps_nil (mode : Mode) (last : Option Kind) (offset : Nat) :
    steps mode last offset [] = [] := by
  rw [steps]

/-- No character is lost, added or moved. -/
theorem flatMap_steps_text (mode : Mode) (last : Option Kind) (offset : Nat) (cs : List Char) :
    (steps mode last offset cs).flatMap (fun s => s.token.text.toList) = cs := by
  fun_induction steps mode last offset cs with
  | case1 => rfl
  | case2 mode last offset c cs l chars seen ih =>
    rw [List.flatMap_cons, ih]
    simp [chars]

end MageUplift.Php
