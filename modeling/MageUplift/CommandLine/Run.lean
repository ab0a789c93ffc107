import MageUplift.CommandLine.Arguments
import MageUplift.CommandLine.MapViews
import MageUplift.CommandLine.MigrateFiles
import MageUplift.Settings.Load
import MageUplift.Settings.Schema

/-!
# Running a command

Loads the settings that a command needs and runs it. Exit codes: zero on success, one when a file could
not be migrated, two when a command could not begin or go on.
-/

namespace MageUplift.CommandLine

open MageUplift.Files (Storage)

variable {m : Type → Type} [Monad m] [Storage m]

def loadSettings (config : Option String) : m (Except String Settings) := do
  match config with
  | some path =>
    match ← Settings.loadFile path with
    | .ok settings => pure (.ok settings)
    | .error e => pure (.error ("failed to load config " ++ path ++ ": " ++ e.messageWithCauses))
  | none =>
    let folder ← Storage.workingFolder
    match ← Settings.loadFolder folder with
    | .ok (settings, _) => pure (.ok settings)
    | .error e => pure (.error ("failed to load config from " ++ folder ++ ": " ++ e.messageWithCauses))

/-- Runs a command line. The schema does not depend on any settings. -/
def run (arguments : Arguments) : m Output := do
  match arguments.command with
  | .configSchema => pure ⟨0, Settings.Schema.schema.pretty ++ "\n", none⟩
  | .migrate path dryRun json =>
    match ← loadSettings arguments.config with
    | .error reason => pure (.failed "" reason)
    | .ok settings => runMigrate settings.migrate path dryRun json
  | .viewMapping m1 m2 out =>
    match ← loadSettings arguments.config with
    | .error reason => pure (.failed "" reason)
    | .ok settings => runViewMapping settings.layout m1 m2 out

end MageUplift.CommandLine
