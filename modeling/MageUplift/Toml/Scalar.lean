import MageUplift.Decimal.Shortest
import MageUplift.Text.Numeral
import MageUplift.Text.Reader
import MageUplift.Text.Split
import MageUplift.Toml.Value

/-!
# Strings, numbers and dates of TOML

The values without parts. Each reader takes exactly the characters of its value; whatever may not follow
it is refused by the reader of the line.
-/

namespace MageUplift.Toml

open MageUplift.Text (Reader isHexDigit numeral)
open MageUplift.Text.Reader

/-! ## §1. Characters. -/

def isBlank (c : Char) : Bool := c == ' ' || c == '\t'

/-- Characters that may stand in comments and strings: all but control characters, the tab apart. -/
def isText (c : Char) : Bool := c == '\t' || (' ' ≤ c && c != '\x7f')

def newline : Reader Unit := do
  let _ ← skipText "\r"
  expect "\n"

def blanks : Reader Unit := do
  let _ ← takeWhile isBlank

def comment : Reader Unit := do
  expect "#"
  let _ ← takeWhile isText

/-! ## §2. Strings. -/

def codePoint (count : Nat) : Reader Char := do
  let digits ← (List.replicate count ()).mapM fun _ => satisfy isHexDigit
  let code := numeral 16 digits
  guard (code.isValidChar)
  pure (Char.ofNat code)

def escape : Reader Char := do
  match ← next with
  | 'b' => pure '\x08'
  | 't' => pure '\t'
  | 'n' => pure '\n'
  | 'f' => pure '\x0c'
  | 'r' => pure '\r'
  | '\x22' => pure '\x22'
  | '\\' => pure '\\'
  | 'u' => codePoint 4
  | 'U' => codePoint 8
  | _ => failure

def basicString : Reader String := do
  expect "\""
  let pieces ← collect do
    match ← next with
    | '\x22' => pure none
    | '\\' => some <$> escape
    | c => guard (isText c); pure (some c)
  pure (String.ofList pieces)

def literalString : Reader String := do
  expect "\x27"
  let pieces ← takeWhile fun c => isText c && c != '\x27'
  expect "\x27"
  pure (String.ofList pieces)

/-- The end of a string in tripled quotes. One or two quotes may stand right before the closing ones and
belong to the string. -/
def closingQuotes (quote : Char) : Reader (List Char) := do
  expect (String.ofList [quote, quote, quote])
  let extra ← takeWhile (· == quote)
  guard (extra.length ≤ 2)
  pure extra

/-- A backslash at the end of a line takes the line end away, with all white space around it. -/
def lineSplice : Reader Unit := do
  expect "\\"
  blanks
  newline
  let _ ← collect do
    if (← optionally (satisfy isBlank)).isSome then pure (some ())
    else optionally newline

/-- A string in tripled double quotes. A line end right after the opening quotes is dropped. -/
def multilineBasicString : Reader String := do
  expect "\"\"\""
  let _ ← optionally newline
  let pieces ← collect do
    if ← looksAt "\"\"\"" then pure none
    else if (← optionally lineSplice).isSome then pure (some [])
    else if (← optionally newline).isSome then pure (some ['\n'])
    else
      match ← next with
      | '\\' => do let c ← escape; pure (some [c])
      | c => guard (isText c); pure (some [c])
  let extra ← closingQuotes '\x22'
  pure (String.ofList (pieces.flatten ++ extra))

def multilineLiteralString : Reader String := do
  expect "\x27\x27\x27"
  let _ ← optionally newline
  let pieces ← collect do
    if ← looksAt "\x27\x27\x27" then pure none
    else if (← optionally newline).isSome then pure (some '\n')
    else some <$> satisfy isText
  let extra ← closingQuotes '\x27'
  pure (String.ofList (pieces ++ extra))

def string : Reader String :=
  multilineBasicString <|> basicString <|> multilineLiteralString <|> literalString

/-! ## §3. Numbers. -/

def digits (isDigit : Char → Bool) : Reader (List Char) := do
  let run ← takeSome fun c => isDigit c || c == '_'
  guard ((Text.split '_' run).all (!·.isEmpty))
  pure (run.filter (· != '_'))

def sign : Reader (Option Bool) := do
  if ← skipText "-" then pure (some true)
  else if ← skipText "+" then pure (some false)
  else pure none

def inRange (n : Int) : Reader Value := do
  guard (-0x8000000000000000 ≤ n && n < 0x8000000000000000)
  pure (.integer n)

def wholeDigits : Reader (List Char) := do
  let run ← digits Char.isDigit
  guard (run.length == 1 || run.head? != some '0')
  pure run

def radixInteger : Reader Value := do
  expect "0"
  match ← next with
  | 'x' => do inRange (numeral 16 (← digits isHexDigit))
  | 'o' => do inRange (numeral 8 (← digits fun c => '0' ≤ c && c ≤ '7'))
  | 'b' => do inRange (numeral 2 (← digits fun c => c == '0' || c == '1'))
  | _ => failure

/-- The text of a float: the shortest decimal of the nearest binary64 number. Above the greatest number
only a negative float has a value. -/
def floatText (negative : Bool) (x : Decimal.Scaled) : Option String :=
  match Decimal.nearest? x with
  | some b => some ((if negative then "-" else "") ++ (Decimal.shortest b).text)
  | none => if negative then some "-inf" else none

def exponent : Reader Int := do
  let _ ← satisfy fun c => c == 'e' || c == 'E'
  let negative := (← sign) == some true
  let n : Int := numeral 10 (← digits Char.isDigit)
  pure (if negative then -n else n)

def fraction : Reader (List Char) := do
  expect "."
  digits Char.isDigit

def float : Reader Value := do
  let negative := (← sign) == some true
  let whole ← wholeDigits
  let behind ← optionally fraction
  let power ← optionally exponent
  guard (behind.isSome || power.isSome)
  let behind := behind.getD []
  let x : Decimal.Scaled := ⟨numeral 10 (whole ++ behind), power.getD 0 - behind.length⟩
  match floatText negative x with
  | some text => pure (.float text)
  | none => failure

def specialFloat : Reader Value := do
  let negative := (← sign) == some true
  if ← skipText "inf" then pure (.float (if negative then "-inf" else "inf"))
  else
    expect "nan"
    pure (.float "NaN")

def decimalInteger : Reader Value := do
  let negative := (← sign) == some true
  let n : Int := numeral 10 (← wholeDigits)
  inRange (if negative then -n else n)

/-! ## §4. Dates and times. -/

def fixedDigits (count low high : Nat) : Reader (Nat × String) := do
  let run ← (List.replicate count ()).mapM fun _ => satisfy Char.isDigit
  let n := numeral 10 run
  guard (low ≤ n && n ≤ high)
  pure (n, String.ofList run)

def isLeapYear (year : Nat) : Bool := year % 4 == 0 && (year % 100 != 0 || year % 400 == 0)

def daysInMonth (year month : Nat) : Nat :=
  if month == 2 then (if isLeapYear year then 29 else 28)
  else if [4, 6, 9, 11].contains month then 30
  else 31

def date : Reader String := do
  let (year, yearText) ← fixedDigits 4 0 9999
  expect "-"
  let (month, monthText) ← fixedDigits 2 1 12
  expect "-"
  let (_, dayText) ← fixedDigits 2 1 (daysInMonth year month)
  pure (yearText ++ "-" ++ monthText ++ "-" ++ dayText)

/-- The fraction of a second, to the nanosecond and without zeros at its end. -/
def secondFraction (behind : List Char) : String :=
  match ((behind.take 9).reverse.dropWhile (· == '0')).reverse with
  | [] => ""
  | kept => String.ofList ('.' :: kept)

def time : Reader String := do
  let (_, hour) ← fixedDigits 2 0 23
  expect ":"
  let (_, minute) ← fixedDigits 2 0 59
  expect ":"
  let (_, second) ← fixedDigits 2 0 60
  let behind ← optionally (do expect "."; takeSome Char.isDigit)
  pure (hour ++ ":" ++ minute ++ ":" ++ second ++ secondFraction (behind.getD []))

def offset : Reader String := do
  if (← optionally (satisfy fun c => c == 'Z' || c == 'z')).isSome then pure "Z"
  else
    let mark ← satisfy fun c => c == '+' || c == '-'
    let (h, hour) ← fixedDigits 2 0 23
    expect ":"
    let (m, minute) ← fixedDigits 2 0 59
    let shown := if h == 0 && m == 0 then "+" else String.singleton mark
    pure (shown ++ hour ++ ":" ++ minute)

/-- A date, a time, or a date with a time and perhaps an offset. -/
def moment : Reader Value := do
  match ← optionally date with
  | none => .moment <$> time
  | some day =>
    let clock ← optionally do
      let _ ← satisfy fun c => c == 'T' || c == 't' || c == ' '
      let t ← time
      pure (t ++ (← optionally offset).getD "")
    match clock with
    | none => pure (.moment day)
    | some t => pure (.moment (day ++ "T" ++ t))

def boolean : Reader Value := do
  if ← skipText "true" then pure (.boolean true)
  else
    expect "false"
    pure (.boolean false)

def scalar : Reader Value :=
  (.string <$> string) <|> moment <|> specialFloat <|> float <|> radixInteger <|> decimalInteger <|> boolean

end MageUplift.Toml
