import MageUplift.Php.Kind

/-!
# Lexemes: how far the next token reaches

Given the text that is left, a lexeme says of the next token its kind, its length in characters, what
is wrong with it, and in which mode reading goes on. Nothing here copies text: a rule only measures,
so the lexer that cuts the text at these lengths can neither lose nor repeat a character.

Outside PHP code (`htmlLexeme`) a token runs up to the next open tag. Inside PHP code the first of
`phpRules` that applies decides; a character that no rule accepts is an `error` token of its own.

String literals are read by an automaton with a stack (`Frame`), one frame per construct that is still
open: an interpolation `{$…}` may hold strings that hold interpolations again. At the end of the text
the frames that are left are the unterminated strings, innermost first.
-/

namespace MageUplift.Php

/-! ## §1. Characters. -/

def isBlank (c : Char) : Bool :=
  c == ' ' || c == '\t' || c == '\n' || c == '\r' || c == '\x0b' || c == '\x0c'

/-- A space or a tab: what may stand before a closing heredoc label. -/
def isIndent (c : Char) : Bool := c == ' ' || c == '\t'

/-- Names start with an ASCII letter, an underscore or any character beyond ASCII. -/
def isNameStart (c : Char) : Bool := c.isAlpha || c == '_' || 128 ≤ c.toNat

def isNamePart (c : Char) : Bool := c.isAlphanum || c == '_' || 128 ≤ c.toNat

def isDigitPart (c : Char) : Bool := c.isDigit || c == '_'

/-- The digits of a number in another base; the base does not restrict them. -/
def isBaseDigitPart (c : Char) : Bool :=
  c.isDigit || ('a' ≤ c && c ≤ 'f') || ('A' ≤ c && c ≤ 'F') || c == '_'

def run (p : Char → Bool) (cs : List Char) : Nat := (cs.takeWhile p).length

def nextIs (p : Char → Bool) (cs : List Char) : Bool := cs.head?.any p

/-- Length of the line break that comes next: `\r\n` counts as one, `0` if there is none. -/
def lineBreakLength : List Char → Nat
  | '\r' :: '\n' :: _ => 2
  | '\r' :: _ => 1
  | '\n' :: _ => 1
  | _ => 0

/-! ## §2. Lexemes. -/

inductive Fault where
  | unexpectedCharacter | unterminatedComment | unterminatedString | unterminatedHeredoc
  deriving Repr, DecidableEq

def Fault.message : Fault → String
  | .unexpectedCharacter => "unexpected character"
  | .unterminatedComment => "unterminated block comment"
  | .unterminatedString => "unterminated string literal"
  | .unterminatedHeredoc => "unterminated heredoc"

/-- Whether the text is markup around the code or the code itself. -/
inductive Mode where
  | html | php
  deriving Repr, DecidableEq

/-- The next token, measured. A fault is given with the position, in characters from the start of the
token, at which the faulty part begins; it always ends where the token ends. -/
structure Lexeme where
  kind : Kind
  length : Nat
  faults : List (Fault × Nat)
  next : Mode
  length_pos : 0 < length

/-- A lexeme of `1 + more` characters inside PHP code. -/
def Lexeme.code (kind : Kind) (more : Nat) (faults : List (Fault × Nat)) : Lexeme :=
  ⟨kind, 1 + more, faults, .php, by omega⟩

/-! ## §3. Markup and tags. -/

/-- One blank after an open tag belongs to the tag; a line break counts as one blank. -/
def tagBlankLength (cs : List Char) : Nat :=
  if lineBreakLength cs ≠ 0 then lineBreakLength cs
  else if nextIs isBlank cs then 1 else 0

/-- The open tag that the text starts with: its kind and its length less one. `<?php` counts, in any
case, only before a blank or at the end. -/
def openTag? : List Char → Option (Kind × Nat)
  | '<' :: '?' :: '=' :: _ => some (.openTagWithEcho, 2)
  | '<' :: '?' :: p :: h :: q :: rest =>
    if p.toLower == 'p' && h.toLower == 'h' && q.toLower == 'p'
        && (rest.isEmpty || nextIs isBlank rest) then
      some (.openTag, 4 + tagBlankLength rest)
    else none
  | _ => none

/-- Number of characters before the next open tag, or before the end, added to `n`. -/
def htmlRun (n : Nat) : List Char → Nat
  | [] => n
  | c :: cs => if (openTag? (c :: cs)).isSome then n else htmlRun (n + 1) cs

def htmlLexeme (c : Char) (cs : List Char) : Lexeme :=
  match openTag? (c :: cs) with
  | some (kind, more) => Lexeme.code kind more []
  | none => ⟨.inlineHtml, 1 + htmlRun 0 cs, [], .html, by omega⟩

/-! ## §4. Comments. -/

/-- A line comment ends before a line break and before a close tag. -/
def lineCommentRun (n : Nat) : List Char → Nat
  | [] => n
  | c :: cs =>
    if c == '\n' || c == '\r' || (c == '?' && nextIs (· == '>') cs) then n
    else lineCommentRun (n + 1) cs

def commentEnd? (n : Nat) : List Char → Option Nat
  | [] => none
  | c :: cs => if c == '*' && nextIs (· == '/') cs then some (n + 2) else commentEnd? (n + 1) cs

/-! ## §5. Names and numbers. -/

def nameRun : List Char → Nat
  | [] => 0
  | c :: cs =>
    if isNamePart c || (c == '\\' && nextIs isNameStart cs) then nameRun cs + 1 else 0

/-- A name without separators is a reserved word, unless it stands where a member or a declared name is
expected. After `::` only `class` stays reserved. -/
def wordKind (last : Option Kind) (word : String) : Kind :=
  let reserved := ((Keyword.ofWord? word).map Kind.keyword).getD .identifier
  match last with
  | some .arrow | some .nullsafeArrow => .identifier
  | some (.keyword .functionKw) | some (.keyword .constKw) => .identifier
  | some .doubleColon => if word.toLower = "class" then reserved else .identifier
  | _ => reserved

/-- Length of a fraction. `1.` is a number; in `1..2` the dots are not part of it. -/
def fractionLength : List Char → Nat
  | '.' :: cs =>
    if nextIs Char.isDigit cs then 1 + run isDigitPart cs
    else if nextIs (· == '.') cs then 0 else 1
  | _ => 0

/-- Length of an exponent, which needs a digit after the optional sign. -/
def exponentLength : List Char → Nat
  | e :: cs =>
    if e == 'e' || e == 'E' then
      let sign := if nextIs (fun c => c == '+' || c == '-') cs then 1 else 0
      if nextIs Char.isDigit (cs.drop sign) then 1 + sign + run isDigitPart (cs.drop sign) else 0
    else 0
  | [] => 0

def scaleLength (cs : List Char) : Nat :=
  let fraction := fractionLength cs
  fraction + exponentLength (cs.drop fraction)

/-! ## §6. String literals. -/

/-- A construct that is open while a string literal is read; strings remember where they began. -/
inductive Frame where
  | single (start : Nat)
  | quoted (quote : Char) (start : Nat)
  | brace
  deriving Repr, DecidableEq

def Frame.start? : Frame → Option Nat
  | .single s => some s
  | .quoted _ s => some s
  | .brace => none

/-- One step of the string automaton at position `n`, on the character `c` that `follower` follows:
whether the next character is escaped, and the frames that are open now. -/
def Frame.step (top : Frame) (below : List Frame) (n : Nat) (c : Char) (follower : Option Char) :
    Bool × List Frame :=
  match top with
  | .single _ =>
    if c == '\\' then (true, top :: below)
    else if c == '\x27' then (false, below)
    else (false, top :: below)
  | .quoted quote _ =>
    if c == '\\' then (true, top :: below)
    else if c == quote then (false, below)
    else if c == '{' && follower == some '$' then (false, .brace :: top :: below)
    else (false, top :: below)
  | .brace =>
    if c == '{' then (false, .brace :: top :: below)
    else if c == '}' then (false, below)
    else if c == '\x27' then (false, .single n :: top :: below)
    else if c == '\x22' then (false, .quoted '\x22' n :: top :: below)
    else (false, top :: below)

/-- Reads until no frame is open. Answers the position reached and the starts of the strings that are
still open there, innermost first. -/
def stringEnd (escaped : Bool) (frames : List Frame) (n : Nat) : List Char → Nat × List Nat
  | [] => (n, frames.filterMap Frame.start?)
  | c :: cs =>
    match frames with
    | [] => (n, [])
    | top :: below =>
      if escaped then stringEnd false frames (n + 1) cs
      else
        let after := top.step below n c cs.head?
        stringEnd after.1 after.2 (n + 1) cs

theorem le_stringEnd (escaped : Bool) (frames : List Frame) (n : Nat) (cs : List Char) :
    n ≤ (stringEnd escaped frames n cs).1 := by
  induction cs generalizing escaped frames n with
  | nil => simp [stringEnd]
  | cons c cs ih =>
    cases frames with
    | nil => simp [stringEnd]
    | cons top below =>
      cases escaped with
      | true => exact Nat.le_trans (Nat.le_succ n) (by simpa [stringEnd] using ih false (top :: below) (n + 1))
      | false =>
        exact Nat.le_trans (Nat.le_succ n)
          (by simpa [stringEnd] using ih (top.step below n c cs.head?).1 (top.step below n c cs.head?).2 (n + 1))

def stringLexeme (frame : Frame) (cs : List Char) : Lexeme :=
  let reached := stringEnd false [frame] 1 cs
  ⟨.stringLiteral, reached.1, reached.2.map fun s => (.unterminatedString, s), .php,
   le_stringEnd false [frame] 1 cs⟩

/-! ## §7. Heredocs. -/

def label? (cs : List Char) : Option (List Char) :=
  if nextIs isNameStart cs then some (cs.takeWhile isNamePart) else none

/-- What follows `<<<` when a heredoc begins there: the label, and the length up to the end of the
opening line. The label may be quoted, and a line break must follow it. -/
def heredocOpener? (cs : List Char) : Option (List Char × Nat) :=
  let blanks := run isIndent cs
  let body := cs.drop blanks
  let quote := body.head?.filter fun c => c == '\x27' || c == '\x22'
  let quotes := if quote.isSome then 1 else 0
  (label? (body.drop quotes)).bind fun label =>
    let after := body.drop (quotes + label.length)
    if quote.isSome && after.head? ≠ quote then none
    else
      let lineEnd := lineBreakLength (after.drop quotes)
      if lineEnd = 0 then none else some (label, blanks + quotes + label.length + quotes + lineEnd)

/-- Length of the indented closing label at the start of a line, if the line starts with one. -/
def closingLabel? (label line : List Char) : Option Nat :=
  let blanks := run isIndent line
  let rest := line.drop blanks
  if label.isPrefixOf rest && !nextIs isNamePart (rest.drop label.length) then
    some (blanks + label.length)
  else none

/-- The position just after the closing label, when the text starts at position `n`. -/
def heredocEnd? (label : List Char) (lineStart : Bool) (n : Nat) : List Char → Option Nat
  | [] => none
  | c :: cs =>
    match if lineStart then closingLabel? label (c :: cs) else none with
    | some length => some (n + length)
    | none => heredocEnd? label (c == '\n') (n + 1) cs

/-! ## §8. Operators and punctuation. -/

/-- An operator, split into its first character and the others. -/
structure Operator where
  first : Char
  others : List Char
  kind : Kind

/-- Operators in order of precedence for reading: longer ones first. -/
def operators : List Operator :=
  [⟨'?', ['-', '>'], .nullsafeArrow⟩, ⟨'.', ['.', '.'], .ellipsis⟩,
   ⟨'<', ['=', '>'], .operator⟩, ⟨'*', ['*', '='], .operator⟩, ⟨'<', ['<', '='], .operator⟩,
   ⟨'>', ['>', '='], .operator⟩, ⟨'=', ['=', '='], .operator⟩, ⟨'!', ['=', '='], .operator⟩,
   ⟨'?', ['?', '='], .operator⟩,
   ⟨':', [':'], .doubleColon⟩, ⟨'-', ['>'], .arrow⟩, ⟨'=', ['>'], .fatArrow⟩,
   ⟨'#', ['['], .attributeStart⟩,
   ⟨'+', ['+'], .operator⟩, ⟨'-', ['-'], .operator⟩, ⟨'=', ['='], .operator⟩, ⟨'!', ['='], .operator⟩,
   ⟨'<', ['>'], .operator⟩, ⟨'<', ['='], .operator⟩, ⟨'>', ['='], .operator⟩, ⟨'&', ['&'], .operator⟩,
   ⟨'|', ['|'], .operator⟩, ⟨'?', ['?'], .operator⟩, ⟨'+', ['='], .operator⟩, ⟨'-', ['='], .operator⟩,
   ⟨'*', ['='], .operator⟩, ⟨'/', ['='], .operator⟩, ⟨'.', ['='], .operator⟩, ⟨'%', ['='], .operator⟩,
   ⟨'&', ['='], .operator⟩, ⟨'|', ['='], .operator⟩, ⟨'^', ['='], .operator⟩, ⟨'<', ['<'], .operator⟩,
   ⟨'>', ['>'], .operator⟩, ⟨'*', ['*'], .operator⟩,
   ⟨'(', [], .leftParen⟩, ⟨')', [], .rightParen⟩, ⟨'{', [], .leftBrace⟩, ⟨'}', [], .rightBrace⟩,
   ⟨'[', [], .leftBracket⟩, ⟨']', [], .rightBracket⟩, ⟨';', [], .semicolon⟩, ⟨',', [], .comma⟩,
   ⟨'=', [], .equals⟩, ⟨'?', [], .question⟩, ⟨':', [], .colon⟩, ⟨'.', [], .dot⟩, ⟨'&', [], .ampersand⟩,
   ⟨'@', [], .atSign⟩,
   ⟨'+', [], .operator⟩, ⟨'-', [], .operator⟩, ⟨'*', [], .operator⟩, ⟨'/', [], .operator⟩,
   ⟨'%', [], .operator⟩, ⟨'!', [], .operator⟩, ⟨'<', [], .operator⟩, ⟨'>', [], .operator⟩,
   ⟨'|', [], .operator⟩, ⟨'^', [], .operator⟩, ⟨'~', [], .operator⟩, ⟨'\\', [], .operator⟩]

/-! ## §9. The rules of PHP code. -/

/-- A rule looks at the last significant kind and at the text `c :: cs`; it may decline. -/
abbrev Rule := Option Kind → Char → List Char → Option Lexeme

def whitespaceRule : Rule := fun _ c cs =>
  if isBlank c then some (.code .whitespace (run isBlank cs) []) else none

/-- The close tag takes the line break after it along and returns to markup. -/
def closeTagRule : Rule := fun _ c cs =>
  if c == '?' && nextIs (· == '>') cs then
    some ⟨.closeTag, 2 + lineBreakLength (cs.drop 1), [], .html, by omega⟩
  else none

def lineCommentRule : Rule := fun _ c cs =>
  if (c == '/' && nextIs (· == '/') cs) || (c == '#' && !nextIs (· == '[') cs) then
    some (.code .comment (lineCommentRun 0 cs) [])
  else none

/-- A block comment is a doc comment when it opens with two stars and a blank. -/
def blockCommentRule : Rule := fun _ c cs =>
  if c == '/' && nextIs (· == '*') cs then
    let body := cs.drop 1
    let kind := if nextIs (· == '*') body && nextIs isBlank (body.drop 1) then Kind.docComment else .comment
    match commentEnd? 1 body with
    | some more => some (.code kind more [])
    | none => some (.code kind cs.length [(.unterminatedComment, 0)])
  else none

def dollarRule : Rule := fun _ c cs =>
  if c == '$' then
    if nextIs isNameStart cs then some (.code .variableName (run isNamePart cs) [])
    else some (.code .dollar 0 [])
  else none

def nameRule : Rule := fun last c cs =>
  if isNameStart c || (c == '\\' && nextIs isNameStart cs) then
    let more := nameRun cs
    let name := c :: cs.take more
    let kind := if name.contains '\\' then Kind.qualifiedName else wordKind last (String.ofList name)
    some (.code kind more [])
  else none

def numberRule : Rule := fun _ c cs =>
  if c == '0' && nextIs (fun x => ['x', 'X', 'b', 'B', 'o', 'O'].contains x) cs then
    some (.code .number (1 + run isBaseDigitPart (cs.drop 1)) [])
  else if c.isDigit then
    let whole := run isDigitPart cs
    some (.code .number (whole + scaleLength (cs.drop whole)) [])
  else if c == '.' && nextIs Char.isDigit cs then
    let fraction := run isDigitPart cs
    some (.code .number (fraction + exponentLength (cs.drop fraction)) [])
  else none

def stringRule : Rule := fun _ c cs =>
  if c == '\x27' then some (stringLexeme (.single 0) cs)
  else if c == '\x22' || c == '\x60' then some (stringLexeme (.quoted c 0) cs)
  else none

def heredocRule : Rule := fun _ c cs =>
  if c == '<' && ['<', '<'].isPrefixOf cs then
    (heredocOpener? (cs.drop 2)).map fun (label, opening) =>
      match heredocEnd? label true 0 (cs.drop (2 + opening)) with
      | some body => .code .heredoc (2 + opening + body) []
      | none => .code .heredoc cs.length [(.unterminatedHeredoc, 0)]
  else none

def operatorRule : Rule := fun _ c cs =>
  (operators.find? fun o => o.first == c && o.others.isPrefixOf cs).map fun o =>
    .code o.kind o.others.length []

/-- The rules inside PHP code; the first that applies wins. -/
def phpRules : List Rule :=
  [whitespaceRule, closeTagRule, lineCommentRule, blockCommentRule, dollarRule, nameRule, numberRule,
   stringRule, heredocRule, operatorRule]

def phpLexeme (last : Option Kind) (c : Char) (cs : List Char) : Lexeme :=
  (phpRules.findSome? fun rule => rule last c cs).getD (.code .error 0 [(.unexpectedCharacter, 0)])

def lexeme (mode : Mode) (last : Option Kind) (c : Char) (cs : List Char) : Lexeme :=
  match mode with
  | .html => htmlLexeme c cs
  | .php => phpLexeme last c cs

end MageUplift.Php
