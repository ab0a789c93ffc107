import MageUplift.Text.Split

/-!
# Command line arguments

A command takes flags, options with a value and named places for values without an option. Arguments are
read from left to right; the value of an option or a place is checked only when the next one begins, so of
two faults the first that is noticed counts. Two hyphens end the options, and `--config` may stand before
and after the name of a command.
-/

namespace MageUplift.CommandLine

inductive UsageError where
  | help
  | version
  | nothingGiven
  | missingCommand
  | missingArgument
  | unknownCommand
  | unknownArgument
  | missingValue
  | unwantedValue
  | givenTwice
  deriving Repr, DecidableEq

/-- Asking for help or for the version is no failure. -/
def UsageError.exitCode : UsageError → Nat
  | .help | .version => 0
  | _ => 2

/-! ## §1. What a command takes. -/

structure Form where
  flags : List String
  options : List String
  places : List String
  commands : List String
  deriving Repr, DecidableEq

def mainForm : Form :=
  ⟨["help", "version"], ["config"], [], ["migrate", "view-mapping", "config-schema", "help"]⟩

def migrateForm : Form := ⟨["help", "dry-run", "json"], ["config"], ["path"], []⟩

def viewMappingForm : Form := ⟨["help"], ["config", "out"], ["m1", "m2"], []⟩

def schemaForm : Form := ⟨["help"], ["config"], [], []⟩

def Form.flagOfLetter? (form : Form) (c : Char) : Option String :=
  match c with
  | 'h' => form.flags.find? (· == "help")
  | 'V' => form.flags.find? (· == "version")
  | _ => none

/-! ## §2. Gathering. -/

structure Gathered where
  flags : List String := []
  values : List (String × String) := []
  placed : Nat := 0
  /-- The option or place that was read last, with its value if there is one, before any check. -/
  pending : Option (String × Option String) := none
  deriving Repr, DecidableEq

namespace Gathered

/-- Checks the pending value: there is one, it is the first of its name, and it is not empty. -/
def settle (g : Gathered) : Except UsageError Gathered :=
  match g.pending with
  | none => .ok g
  | some (_, none) => .error .missingValue
  | some (name, some value) =>
    if (g.values.lookup name).isSome then .error .givenTwice
    else if value.isEmpty then .error .missingValue
    else .ok { g with values := g.values ++ [(name, value)], pending := none }

def raise (g : Gathered) (flag : String) : Except UsageError Gathered := do
  let g ← g.settle
  if flag == "help" then .error .help
  else if flag == "version" then .error .version
  else if g.flags.contains flag then .error .givenTwice
  else .ok { g with flags := g.flags ++ [flag] }

/-- Begins an option, with the value that is written to it by an equals sign. -/
def option (g : Gathered) (name : String) (value : Option String) : Except UsageError Gathered := do
  let g ← g.settle
  let g := { g with pending := some (name, value) }
  if value.isSome then g.settle else .ok g

/-- Puts a value in the next free place. -/
def place (form : Form) (g : Gathered) (value : String) : Option (Except UsageError Gathered) := do
  let name ← form.places[g.placed]?
  return do
    let g ← g.settle
    return { g with pending := some (name, some value), placed := g.placed + 1 }

def isBlank (g : Gathered) : Bool := g.flags.isEmpty && g.values.isEmpty

end Gathered

inductive Shape where
  | separator
  | long (name : String) (value : Option String)
  | short (letter : Char)
  | plain (text : String)

/-- The form of an argument. A hyphen alone is a plain text. -/
def Shape.of (argument : String) : Shape :=
  match argument.toList with
  | ['-', '-'] => .separator
  | '-' :: '-' :: cs =>
    match Text.splitOnce? '=' cs with
    | none => .long (String.ofList cs) none
    | some (name, value) => .long (String.ofList name) (some (String.ofList value))
  | '-' :: c :: _ => .short c
  | _ => .plain argument

/-- The arguments of one command up to their end or to the name of a further command, which is given with
the arguments behind it. `awaiting` is an option that still needs its value; a `bare` argument stands
behind two hyphens. -/
def gather (form : Form) (g : Gathered) (awaiting : Option String) (bare : Bool) :
    List String → Except UsageError (Gathered × Option (String × List String))
  | [] => .ok (g, none)
  | argument :: rest =>
    let place : Except UsageError (Gathered × Option (String × List String)) :=
      match g.place form argument with
      | some placed => do gather form (← placed) none bare rest
      | none =>
        if form.commands.isEmpty || (bare && form.commands.contains argument) then .error .unknownArgument
        else .error .unknownCommand
    if bare then place
    else if awaiting.isNone && form.commands.contains argument then .ok (g, some (argument, rest))
    else
      match Shape.of argument with
      | .separator => gather form g none true rest
      | .long name value =>
        if form.flags.contains name then
          if value.isSome then .error .unwantedValue
          else do gather form (← g.raise name) none false rest
        else if form.options.contains name then do
          gather form (← g.option name value) (if value.isSome then none else some name) false rest
        else .error .unknownArgument
      | .short c =>
        match form.flagOfLetter? c with
        | some flag => do gather form (← g.raise flag) none false rest
        | none => .error .unknownArgument
      | .plain text =>
        match awaiting with
        | some name => gather form { g with pending := some (name, some text) } none false rest
        | none => place

/-! ## §3. Commands. -/

inductive Command where
  | migrate (path : String) (dryRun json : Bool)
  | viewMapping (m1 m2 out : String)
  | configSchema
  deriving Repr, DecidableEq

structure Arguments where
  config : Option String
  command : Command
  deriving Repr, DecidableEq

/-- All arguments of a last command, every place among them. -/
def gatherAll (form : Form) (arguments : List String) : Except UsageError Gathered := do
  let (g, _) ← gather form {} none false arguments
  let g ← g.settle
  if form.places.all fun name => (g.values.lookup name).isSome then .ok g else .error .missingArgument

/-- A command by its name, with the settings file that its own arguments name. -/
def readCommand (name : String) (arguments : List String) :
    Except UsageError (Option String × Command) := do
  match name with
  | "migrate" =>
    let g ← gatherAll migrateForm arguments
    let path := (g.values.lookup "path").getD ""
    return (g.values.lookup "config", .migrate path (g.flags.contains "dry-run") (g.flags.contains "json"))
  | "view-mapping" =>
    let g ← gatherAll viewMappingForm arguments
    let value (key default : String) := (g.values.lookup key).getD default
    return (g.values.lookup "config", .viewMapping (value "m1" "") (value "m2" "") (value "out" "."))
  | "config-schema" =>
    let g ← gatherAll schemaForm arguments
    return (g.values.lookup "config", .configSchema)
  | _ =>
    -- Help on a command, by its name, or on everything.
    match arguments with
    | [] => .error .help
    | [command] => if mainForm.commands.contains command then .error .help else .error .unknownCommand
    | _ => .error .unknownCommand

/-- The command line that some arguments make up. A settings file that is named twice counts where it is
named last. -/
def Arguments.parse (arguments : List String) : Except UsageError Arguments := do
  let (g, command?) ← gather mainForm {} none false arguments
  match command? with
  | none =>
    let g ← g.settle
    if g.isBlank then .error .nothingGiven else .error .missingCommand
  | some (name, rest) =>
    let (config, command) ← readCommand name rest
    let g ← g.settle
    return ⟨config.orElse fun _ => g.values.lookup "config", command⟩

end MageUplift.CommandLine
