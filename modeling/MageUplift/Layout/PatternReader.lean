import MageUplift.Layout.PatternSize
import MageUplift.Text.Numeral
import MageUplift.Text.Reader

/-!
# Patterns from text

`Pattern.ofText?` reads the usual notation: `.`, `?`, `*`, `+`, counts in braces, `|`, groups, sets in
brackets, the assertions `^`, `$`, `\<` and `\>`, and backslashes before other punctuation. Patterns that are
nested too deeply or too large are refused.
-/

namespace MageUplift.Layout

open MageUplift.Text (Reader numeral)
open MageUplift.Text.Reader

/-! ## §1. Characters and sets. -/

def isEscapable (c : Char) : Bool := c.toNat < 128 && !c.isAlphanum && c != '<' && c != '>'

def escapedChar : Reader Char := do
  match ← next with
  | 'n' => pure '\n'
  | 't' => pure '\t'
  | 'r' => pure '\r'
  | 'f' => pure '\x0c'
  | 'v' => pure '\x0b'
  | 'a' => pure '\x07'
  | c => guard (isEscapable c); pure c

def setChar : Reader Char := do
  match ← next with
  | '\\' => escapedChar
  | c => pure c

/-- A set of ranges behind its opening bracket. A closing bracket in front and hyphens at the ends stand for
themselves. -/
def charSet : Reader (Bool × List (Char × Char)) := do
  let negated ← skipText "^"
  let bracket ← skipText "]"
  let items ← collect do
    if ← skipText "]" then pure none
    else if ← looksAt "[" then failure
    else
      let low ← setChar
      if (← looksAt "-") && !(← looksAt "-]") then
        expect "-"
        let high ← setChar
        guard (low ≤ high)
        pure (some (low, high))
      else pure (some (low, low))
  pure (negated, if bracket then (']', ']') :: items else items)

/-! ## §2. Repetitions. -/

def count : Reader (Nat × Option Nat) := do
  let low := numeral 10 (← takeSome Char.isDigit)
  if ← skipText "\x7d" then pure (low, some low)
  else
    expect ","
    if ← skipText "\x7d" then pure (low, none)
    else
      let high := numeral 10 (← takeSome Char.isDigit)
      expect "\x7d"
      guard (low ≤ high)
      pure (low, some high)

/-- How often a repetition mark asks for the thing before it. -/
def mark : Reader (Option (Nat × Option Nat)) := do
  match ← peek? with
  | some '?' => do expect "?"; pure (some (0, some 1))
  | some '*' => do expect "*"; pure (some (0, none))
  | some '+' => do expect "+"; pure (some (1, none))
  | some '\x7b' => do expect "\x7b"; some <$> count
  | _ => pure none

/-- One repetition mark. A question mark behind it makes it reluctant. -/
def repetition : Reader (Option Repetition) := do
  match ← mark with
  | none => pure none
  | some (low, high) =>
    let reluctant ← skipText "?"
    pure (some ⟨low, high, reluctant⟩)

/-! ## §3. Patterns. -/

def escaped : Reader PatternTree := do
  if ← skipText "<" then pure (.assertion .wordStart)
  else if ← skipText ">" then pure (.assertion .wordStop)
  else do
    let c ← escapedChar
    pure (.char (.letter c))

/-- Something that can be repeated. `content` reads what stands in a group. -/
def atom (content : Reader PatternTree) : Reader PatternTree := do
  match ← next with
  | '(' =>
    let plain ← skipText "?:"
    guard (!(← looksAt "?"))
    let inner ← content
    expect ")"
    pure (.group (!plain) inner)
  | '[' => do
    let (negated, items) ← charSet
    pure (.char (.ranges negated items))
  | '.' => pure (.char .any)
  | '^' => pure (.assertion .start)
  | '$' => pure (.assertion .stop)
  | '\\' => escaped
  | '?' | '*' | '+' | '\x7b' => failure
  | c => pure (.char (.letter c))

/-- A thing with its repetitions; none at a bar, the end of a group or the end of the text. -/
def part (content : Reader PatternTree) : Reader (Option PatternTree) := do
  if (← atEnd) || (← looksAt "|") || (← looksAt ")") then pure none
  else
    let first ← atom content
    let marks ← collect repetition
    pure (some (marks.foldl (fun a times => .repeated times a) first))

def branch (content : Reader PatternTree) : Reader PatternTree := do
  let parts ← collect (part content)
  pure (.sequence parts)

/-- Sequences with bars between them, in which groups nest less deeply than `depth`. -/
def alternation : Nat → Reader PatternTree
  | 0 => failure
  | depth + 1 => do
    let first ← branch (alternation depth)
    let others ← collect do
      if ← skipText "|" then some <$> branch (alternation depth) else pure none
    pure (.choice (first :: others))

def nestingLimit : Nat := 250

def PatternTree.ofText? (text : String) : Option PatternTree :=
  readAll? (alternation (text.length + 1)) text.toList

def Pattern.ofText? (text : String) : Option Pattern := do
  let tree ← PatternTree.ofText? text
  guard (tree.depth ≤ nestingLimit)
  guard (tree.machineSize ≤ sizeLimit)
  pure tree.pattern

/-- The pattern for names that a text describes as a whole. The text is read inside its frame, so brackets
that do not match in the text itself may close those of the frame. -/
def Pattern.ofNameText? (text : String) : Option Pattern := Pattern.ofText? ("^(?:" ++ text ++ ")$")

end MageUplift.Layout
