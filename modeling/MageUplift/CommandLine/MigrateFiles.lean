import MageUplift.CommandLine.Output
import MageUplift.Files.Storage
import MageUplift.Json
import MageUplift.Migration
import MageUplift.Settings.Extension

/-!
# Migrating files

The files to migrate are those below a folder that have a configured extension and are not hidden, or a
file that is named outright. Each is migrated on its own: the result of one does not depend on the others,
and only a converted file is written.
-/

namespace MageUplift.CommandLine

open MageUplift.Files (FileError Leaf Storage Survey joinPath)

/-! ## §1. One file. -/

inductive FileStatus where
  | converted (report : FileReport)
  | unchanged
  | skipped
  | failed (reason : String)
  deriving Repr, DecidableEq

namespace FileStatus

def name : FileStatus → String
  | .converted _ => "converted"
  | .unchanged => "unchanged"
  | .skipped => "skipped"
  | .failed _ => "failed"

def isFailed : FileStatus → Bool
  | .failed _ => true
  | _ => false

end FileStatus

def withCause (message : String) : Option String → String
  | none => message
  | some cause => message ++ ": " ++ cause

/-- What becomes of the text of a file, with the new text if it is to be written. -/
def convert (migrator : Migrator) (file text : String) : FileStatus × Option String :=
  match migrator.migrate file (.ofSource text) with
  | .error e => (.failed (withCause (e.message file) e.cause?), none)
  | .ok .skipped => (.skipped, none)
  | .ok (.converted tokens report) =>
    if tokens.render == text then (.unchanged, none) else (.converted report, some tokens.render)

section Storage

variable {m : Type → Type} [Monad m] [Storage m]

def migrateFile (migrator : Migrator) (dryRun : Bool) (path file : String) : m FileStatus := do
  match ← Storage.readText path with
  | .error e => pure (.failed ("failed to read " ++ path ++ ": " ++ e.message))
  | .ok text =>
    match convert migrator file text with
    | (status, none) => pure status
    | (status, some output) =>
      if dryRun then pure status
      else
        match ← Storage.writeText path output with
        | .ok () => pure status
        | .error e => pure (.failed ("failed to write " ++ path ++ ": " ++ e.message))

end Storage

/-! ## §2. Which files. -/

/-- What a walk below a folder comes to, with the names that lead to it. Nothing hidden is entered. -/
def visibleLeaves (folder : Survey) : List (List String × Leaf) :=
  folder.files.filter fun (path, _) => !path.any (·.startsWith ".")

/-- The names that lead to the files to migrate below a folder. -/
def selectFiles (settings : Settings.Migrate) (folder : Survey) : List (List String) :=
  ((visibleLeaves folder).filter (·.2 == .file)).map (·.1) |>.filter fun path =>
    settings.matchesExtension ("/".intercalate path)

/-- The first folder of a walk that cannot be listed, and the reason. -/
def closedFolder? (folder : Survey) : Option (List String × FileError) :=
  (visibleLeaves folder).findSome? fun
    | (path, .closed reason) => some (path, reason)
    | (_, .file) => none

/-- The paths of the files to migrate, each with the name that the report calls it by. -/
def filesToMigrate (settings : Settings.Migrate) (root : String) : Survey → List (String × String)
  | .file _ => [(root, root)]
  | .folder entries =>
    (selectFiles settings (.folder entries)).map fun path =>
      let name := "/".intercalate path
      (joinPath root name, name)

def walkFailure (root : String) (path : List String) (reason : FileError) : String :=
  "failed to walk " ++ root ++ ": IO error for operation on "
    ++ (if path.isEmpty then root else joinPath root ("/".intercalate path))
    ++ ": " ++ reason.message ++ ": " ++ reason.message

def reportName (name : String) : String := name.map fun c => if c == '\\' then '/' else c

/-! ## §3. The batch. -/

structure FileResult where
  path : String
  status : FileStatus
  deriving Repr, DecidableEq

def countOf (status : String) (results : List FileResult) : Nat :=
  (results.filter fun r => r.status.name == status).length

structure BatchReport where
  root : String
  dryRun : Bool
  files : List FileResult
  deriving Repr, DecidableEq

namespace BatchReport

def exitCode (r : BatchReport) : Nat := if r.files.any (·.status.isFailed) then 1 else 0

def callJson (call : CallReport) : Json :=
  .object [("pattern", .string call.pattern.name), ("line", .number call.line.toNat),
    ("legacy", .string call.legacy), ("modern", .string call.modern)]

def fileReportJson (report : FileReport) : Json :=
  .object [("file", .string report.file), ("invocations", .array (report.calls.map callJson)),
    ("requirements", .array (report.requirements.map fun v =>
      .object [("name", .string v.name), ("type", .string v.type)]))]

def resultJson (r : FileResult) : Json :=
  let detail := match r.status with
    | .converted report => [("report", fileReportJson report)]
    | .failed reason => [("error", .string reason)]
    | .unchanged | .skipped => []
  .object ([("path", .string r.path), ("status", .string r.status.name)] ++ detail)

def toJson (r : BatchReport) : Json :=
  let summary := ["converted", "unchanged", "skipped", "failed"].map fun status =>
    (status, Json.number (countOf status r.files))
  .object [("root", .string r.root), ("dry_run", .bool r.dryRun),
    ("files", .array (r.files.map resultJson)), ("summary", .object summary)]

def resultLines (r : FileResult) : List String :=
  match r.status with
  | .converted report =>
    ["converted: " ++ r.path]
      ++ report.calls.map (fun call =>
        "  " ++ r.path ++ ":" ++ toString call.line ++ ": " ++ call.legacy ++ " -> " ++ call.modern)
      ++ report.requirements.map (fun v => "  + " ++ v.type ++ " $" ++ v.name)
  | .failed reason => ["failed: " ++ reason]
  | .unchanged | .skipped => []

def summaryLine (r : BatchReport) : String :=
  let count (status : String) := toString (countOf status r.files) ++ " " ++ status
  "summary: " ++ ", ".intercalate (["converted", "unchanged", "skipped", "failed"].map count)
    ++ (if r.dryRun then " (dry run)" else "")

def text (r : BatchReport) : String :=
  String.join ((r.files.flatMap resultLines ++ [r.summaryLine]).map (· ++ "\n"))

end BatchReport

section Batch

variable {m : Type → Type} [Monad m] [Storage m]

def migrateEach (migrator : Migrator) (dryRun : Bool) (files : List (String × String)) :
    m (List FileResult) :=
  files.mapM fun (path, name) => do
    let file := reportName name
    return ⟨file, ← migrateFile migrator dryRun path file⟩

def migrateBatch (settings : Settings.Migrate) (root : String) (dryRun : Bool) :
    m (Except String BatchReport) := do
  match Migrator.ofSettings settings with
  | .error e => pure (.error ("invalid [migrate] configuration: " ++ e.message))
  | .ok migrator =>
    match ← Storage.survey root with
    | .error _ => pure (.error (root ++ " does not exist or is not a directory"))
    | .ok found =>
      match closedFolder? found with
      | some (path, reason) => pure (.error (walkFailure root path reason))
      | none =>
        let results ← migrateEach migrator dryRun (filesToMigrate settings root found)
        pure (.ok ⟨root, dryRun, results⟩)

def runMigrate (settings : Settings.Migrate) (root : String) (dryRun json : Bool) : m Output := do
  match ← migrateBatch settings root dryRun with
  | .error reason => pure (.failed "" reason)
  | .ok report =>
    pure ⟨report.exitCode, if json then report.toJson.pretty ++ "\n" else report.text, none⟩

end Batch

end MageUplift.CommandLine
