import MageUplift.Settings.Basic
import MageUplift.Text.Blank
import MageUplift.Text.Split

/-!
# What is logged

A log filter is a list of directives: a level for everything, or a level for a target. The level of the
settings is a word or a filter in itself, and the environment may add directives to it.
-/

namespace MageUplift.Settings

inductive LogLevel where
  | off | error | warn | info | debug | trace
  deriving Repr, DecidableEq

namespace LogLevel

def all : List LogLevel := [.off, .error, .warn, .info, .debug, .trace]

def text : LogLevel → String
  | .off => "off"
  | .error => "error"
  | .warn => "warn"
  | .info => "info"
  | .debug => "debug"
  | .trace => "trace"

def ofWord? (word : String) : Option LogLevel := all.find? fun level => level.text == word.toLower

end LogLevel

/-- A level, for one target or for all that have no directive of their own. -/
structure Directive where
  target : Option String
  level : LogLevel
  deriving Repr, DecidableEq

namespace Directive

/-- A directive `level` or `target=level`. A target alone, or without a level behind the equals sign, is
logged in full. -/
def ofText? (text : String) : Option Directive :=
  match Text.splitOnce? '=' text.toList with
  | none =>
    match LogLevel.ofWord? text with
    | some level => some ⟨none, level⟩
    | none => some ⟨some text, .trace⟩
  | some ([], _) => none
  | some (target, []) => some ⟨some (String.ofList target), .trace⟩
  | some (target, level) => do
    let level ← LogLevel.ofWord? (String.ofList level)
    pure ⟨some (String.ofList target), level⟩

def text (d : Directive) : String :=
  match d.target with
  | none => d.level.text
  | some target => target ++ "=" ++ d.level.text

/-- Whether a directive is written before another: longer targets first, among equally long ones the
greater, and the directive without a target last. -/
def before (a b : Directive) : Bool :=
  match a.target, b.target with
  | _, none => true
  | none, some _ => false
  | some s, some t =>
    if s.utf8ByteSize == t.utf8ByteSize then decide (t ≤ s) else t.utf8ByteSize < s.utf8ByteSize

end Directive

/-- The directives of a filter, of which the last for a target counts. Nothing stands between commas that
follow each other, so a filter of commas alone has no directives. -/
def directives? (text : String) : Option (List Directive) := do
  let pieces := (Text.split ',' text.toList).filter (!·.isEmpty)
  let given ← pieces.mapM fun piece => Directive.ofText? (String.ofList piece)
  pure (given.foldl (fun kept d => kept.filter (·.target != d.target) ++ [d]) [])

/-- A level as the settings give it: a level word in either case (`warning` too), else a filter. -/
def levelDirectives (level : String) : String :=
  let trimmed := Text.trim level
  if trimmed.isEmpty then "info"
  else
    match trimmed.toLower with
    | "warning" => "warn"
    | word => if ["trace", "debug", "info", "warn", "error"].contains word then word else trimmed

/-- The directives in force: those of the settings and of the environment together, else whichever of the
two can be read, else the level `info`. -/
def Logging.directives (l : Logging) (environment : Option String) : List Directive :=
  let configured := levelDirectives l.level
  let fallback := (directives? configured).getD [⟨none, .info⟩]
  match environment.map Text.trim with
  | none | some "" => fallback
  | some added =>
    ((directives? (configured ++ "," ++ added)).orElse fun _ => directives? added).getD fallback

def Logging.filterText (l : Logging) (environment : Option String) : String :=
  ",".intercalate (((l.directives environment).mergeSort Directive.before).map Directive.text)

end MageUplift.Settings
