import MageUplift.CommandLine.Run

/-!
# The command

The commands on the files of the machine. Everything here is reading, writing and printing.
-/

namespace MageUplift.CommandLine

open MageUplift.Files (FileError Storage Survey)

/-- The cause that an error of the machine stands for. -/
def fileErrorOf : IO.Error → FileError
  | .noFileOrDirectory .. | .noSuchThing .. => .notFound
  | .permissionDenied .. => .denied
  | .alreadyExists .. => .exists
  | .inappropriateType _ 20 _ => .notAFolder
  | .inappropriateType .. => .isAFolder
  | .invalidArgument _ 36 _ => .nameTooLong
  | e => .other (toString e)

def caught {α : Type} (path : String) (action : IO α) : IO (Except FileError α) := do
  if path.contains '\x00' then return .error .nulInPath
  match ← action.toBaseIO with
  | .ok a => return .ok a
  | .error e => return .error (fileErrorOf e)

/-- What there is in a folder. Links are left out, and what cannot be looked at is closed. -/
partial def surveyFolder (path : String) : IO Survey := do
  match ← ((← IO.currentDir) / path).readDir.toBaseIO with
  | .error e => return .file (.closed (fileErrorOf e))
  | .ok found =>
    let names := (found.toList.map (·.fileName)).mergeSort fun a b => decide (a ≤ b)
    let entries ← names.filterMapM fun name => do
      let inner := Files.joinPath path name
      match ← ((← IO.currentDir) / inner).symlinkMetadata.toBaseIO with
      | .error e => return some (name, .file (.closed (fileErrorOf e)))
      | .ok data =>
        match data.type with
        | .dir => return some (name, ← surveyFolder inner)
        | .file => return some (name, .file .file)
        | _ => return none
    return .folder entries

def surveyPath (path : String) : IO Survey := do
  if (← ((← IO.currentDir) / path).metadata).type == .dir then surveyFolder path else return .file .file

def readTextFile (path : String) : IO (Except FileError String) := do
  match ← caught path (IO.FS.readBinFile path) with
  | .error e => return .error e
  | .ok bytes =>
    match String.fromUTF8? bytes with
    | some text => return .ok text
    | none => return .error .notText

instance : Storage IO where
  workingFolder := do return toString (← IO.currentDir)
  survey path := caught path (surveyPath path)
  readText := readTextFile
  writeText path text := caught path (IO.FS.writeFile path text)
  makeFolders path := caught path (IO.FS.createDirAll path)

def usage : String :=
  "Usage: ferry [--config <FILE>] <COMMAND>\n\n"
    ++ "Commands:\n"
    ++ "  migrate <PATH> [--dry-run] [--json]      migrate a file or the files of a folder\n"
    ++ "  view-mapping <M1> <M2> [--out <FOLDER>]  map layout handles\n"
    ++ "  config-schema                            print the schema of the settings file\n"

end MageUplift.CommandLine

open MageUplift.CommandLine in
def main (arguments : List String) : IO UInt32 := do
  match Arguments.parse arguments with
  | .error .version =>
    IO.println "ferry"
    return 0
  | .error e =>
    if e.exitCode == 0 then IO.print usage else IO.eprint usage
    return e.exitCode.toUInt32
  | .ok arguments =>
    let output : Output ← run arguments
    IO.print output.text
    if let some reason := output.failure then IO.eprintln reason
    return output.exit.toUInt32
