/-!
# Reading a text from its front

A `Reader` takes characters from the front of a text and either gives a value or fails; a failure says
nothing about its place, because the formats that are read here report none. Choices with `<|>` start
again from the text before the failed attempt.
-/

namespace MageUplift.Text

/-- A step that reads a value from the front of a text, or fails. -/
abbrev Reader := StateT (List Char) Option

namespace Reader

def next : Reader Char
  | [] => none
  | c :: cs => some (c, cs)

def peek? : Reader (Option Char) := fun cs => some (cs.head?, cs)

def looksAt (s : String) : Reader Bool := fun cs => some (s.toList.isPrefixOf cs, cs)

def skipText (s : String) : Reader Bool := fun cs =>
  if s.toList.isPrefixOf cs then some (true, cs.drop s.length) else some (false, cs)

def expect (s : String) : Reader Unit := do
  guard (← skipText s)

def takeWhile (p : Char → Bool) : Reader (List Char) := fun cs => some (cs.span p)

def takeSome (p : Char → Bool) : Reader (List Char) := do
  let run ← takeWhile p
  guard (!run.isEmpty)
  pure run

def satisfy (p : Char → Bool) : Reader Char := do
  let c ← next
  guard (p c)
  pure c

def optionally {α : Type} (r : Reader α) : Reader (Option α) := (some <$> r) <|> pure none

def atEnd : Reader Bool := fun cs => some (cs.isEmpty, cs)

/-- The values of a step that is repeated until it gives none, at most once for each character of `bound`. -/
def collectWithin {α : Type} (step : Reader (Option α)) : List Char → Reader (List α)
  | [] => do
    match ← step with
    | none => pure []
    | some _ => failure
  | _ :: bound => do
    match ← step with
    | none => pure []
    | some a => (a :: ·) <$> collectWithin step bound

/-- The values of a step that is repeated until it gives none. A step that gives a value takes at least
one character, so the text bounds their number. -/
def collect {α : Type} (step : Reader (Option α)) : Reader (List α) := fun cs => collectWithin step cs cs

def readAll? {α : Type} (r : Reader α) (cs : List Char) : Option α :=
  match r cs with
  | some (a, []) => some a
  | _ => none

end Reader

end MageUplift.Text
