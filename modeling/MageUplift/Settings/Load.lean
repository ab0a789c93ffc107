import MageUplift.Files.Storage
import MageUplift.Settings.Decode
import MageUplift.Settings.Problem
import MageUplift.Toml.Document

/-!
# Loading settings

Settings come from a TOML file: one that is named outright, or the first of the usual names that there is
in a folder. A folder without such a file has the default settings.
-/

namespace MageUplift

namespace Settings

open MageUplift.Files (FileError Storage)

inductive LoadError where
  | unreadable (path : String) (cause : FileError)
  | malformed
  | mismatch (m : Mismatch)
  | invalid (problems : List Problem)

def LoadError.message : LoadError → String
  | .unreadable path cause => "failed to read config file " ++ path ++ ": " ++ cause.message
  | .malformed => "failed to parse toml config: not a TOML document"
  | .mismatch m => "failed to parse toml config: " ++ m.message
  | .invalid problems => "invalid config: " ++ "; ".intercalate (problems.map Problem.message)

def LoadError.messageWithCauses : LoadError → String
  | .unreadable path cause => (LoadError.unreadable path cause).message ++ ": " ++ cause.message
  | e => e.message

def ofToml (text : String) : Except LoadError Settings :=
  match Toml.parse? text with
  | none => .error .malformed
  | some document =>
    match decode document with
    | .error m => .error (.mismatch m)
    | .ok settings =>
      match settings.problems with
      | [] => .ok settings
      | problems => .error (.invalid problems)

def fileNames : List String := ["ferry.toml", ".ferry.toml"]

section Storage

variable {m : Type → Type} [Monad m] [Storage m]

def loadFile (path : String) : m (Except LoadError Settings) := do
  match ← Storage.readText path with
  | .ok text => pure (ofToml text)
  | .error cause => pure (.error (.unreadable path cause))

def firstFile? : List String → m (Option String)
  | [] => pure none
  | path :: paths => do
    if ← Files.isFile path then pure (some path) else firstFile? paths

def locate? (folder : String) : m (Option String) := firstFile? (fileNames.map (Files.joinPath folder))

def loadFolder (folder : String) : m (Except LoadError (Settings × Option String)) := do
  match ← locate? folder with
  | none => pure (.ok ({}, none))
  | some path =>
    match ← loadFile path with
    | .ok settings => pure (.ok (settings, some path))
    | .error e => pure (.error e)

end Storage

end Settings

end MageUplift
