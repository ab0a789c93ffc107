import MageUplift.Toml.Scalar

/-!
# TOML documents

`parse?` reads a whole document and gives its table, or nothing when the text is not a document: a key or
a table given twice, values nested too deeply and characters that may not appear all count.
-/

namespace MageUplift.Toml

open MageUplift.Text (Reader)
open MageUplift.Text.Reader

/-- Arrays and inline tables nest less deeply than this, and keys have fewer parts. -/
def nestingLimit : Nat := 80

/-! ## §1. Keys. -/

def isBareKeyChar (c : Char) : Bool := c.isAlphanum || c == '_' || c == '-'

def keyPart : Reader String := do
  blanks
  let part ← basicString <|> literalString <|> (String.ofList <$> takeSome isBareKeyChar)
  blanks
  pure part

/-- The parts of a dotted key, of which there is at least one: those before the last, and the last. -/
def dottedKey : Reader (List String × String) := do
  let first ← keyPart
  let more ← collect do
    if ← skipText "." then some <$> keyPart else pure none
  let parts := first :: more
  guard (parts.length < nestingLimit)
  pure (parts.dropLast, parts.getLast?.getD first)

/-! ## §2. Values with parts. -/

/-- White space, line ends and comments between the items of an array. -/
def filler : Reader Unit := do
  let _ ← collect do
    if (← optionally (satisfy isBlank)).isSome then pure (some ())
    else if (← optionally newline).isSome then pure (some ())
    else optionally (do comment; newline)

/-- An array of the values that `item` reads. A comma may follow the last one. -/
def array (item : Reader Value) : Reader Value := do
  expect "["
  filler
  let items ← collect do
    if ← looksAt "]" then pure none
    else
      let value ← item
      filler
      let more ← skipText ","
      filler
      guard (more || (← looksAt "]"))
      pure (some value)
  expect "]"
  pure (.array items)

/-- A table in braces, on one line but for the values in it. No comma follows the last entry. -/
def inlineTable (item : Reader Value) : Reader Value := do
  expect "\x7b"
  blanks
  if ← skipText "\x7d" then pure (.table .inlined [])
  else
    let entry : Reader ((List String × String) × Value) := do
      let key ← dottedKey
      expect "="
      blanks
      let value ← item
      blanks
      pure (key, value)
    let first ← entry
    let more ← collect do
      if ← skipText "," then some <$> entry else pure none
    expect "\x7d"
    let table ← (first :: more).foldlM
      (fun table ((path, key), value) => (addKey path key value table : Option Value))
      (.table .headed [])
    pure table.sealed

/-- A value in which arrays and tables nest at most `depth` deep. -/
def value : Nat → Reader Value
  | 0 => scalar
  | depth + 1 => do
    match ← peek? with
    | some '[' => array (value depth)
    | some '\x7b' => inlineTable (value depth)
    | _ => scalar

/-! ## §3. Lines. -/

def lineEnd : Reader Unit := do
  blanks
  let _ ← optionally comment
  if ← atEnd then pure () else newline

def header (d : Draft) : Reader Draft := do
  if ← skipText "[[" then
    let (path, key) ← dottedKey
    expect "]]"
    lineEnd
    (d.openRepeated (path ++ [key]) : Option Draft)
  else
    expect "["
    let (path, key) ← dottedKey
    expect "]"
    lineEnd
    (d.openTable (path ++ [key]) : Option Draft)

def entry (d : Draft) : Reader Draft := do
  let (path, key) ← dottedKey
  expect "="
  blanks
  let v ← value (nestingLimit - 1)
  lineEnd
  (d.addLine path key v : Option Draft)

def line (d : Draft) : Reader Draft := do
  blanks
  match ← peek? with
  | none => pure d
  | some '#' => do lineEnd; pure d
  | some '\n' | some '\r' => do newline; pure d
  | some '[' => header d
  | some _ => entry d

/-- Reads lines until the text ends. Every line takes at least one character. -/
def lines (d : Draft) : Nat → Reader Draft
  | 0 => failure
  | bound + 1 => do
    if ← atEnd then pure d
    else
      let d ← line d
      lines d bound

/-- The table of a document. A byte order mark in front is skipped. -/
def parse? (text : String) : Option Value := do
  let body := match text.toList with
    | '\ufeff' :: rest => rest
    | cs => cs
  let draft ← readAll? (lines {} (body.length + 1)) body
  draft.finish

end MageUplift.Toml
