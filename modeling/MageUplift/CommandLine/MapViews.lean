import MageUplift.CommandLine.Output
import MageUplift.Json
import MageUplift.Layout.Discovery
import MageUplift.Layout.Handles
import MageUplift.Layout.Mapping
import MageUplift.Settings.Basic

/-!
# Mapping layout handles

For every configured area, the handles of the Magento 1 layout files are mapped to those of the Magento 2
modules, and the table is written to a file of its own.
-/

namespace MageUplift.CommandLine

open MageUplift.Files (Storage joinPath)

variable {m : Type → Type} [Monad m] [Storage m]

/-- The handles of some layout files one after the other. A file that is no XML document has none; one
that cannot be read ends the search. -/
def handlesOfFiles : List String → m (Except String (List String))
  | [] => pure (.ok [])
  | path :: paths => do
    match ← Storage.readText path with
    | .error e => pure (.error ("failed to read " ++ path ++ ": " ++ e.message))
    | .ok xml =>
      match ← handlesOfFiles paths with
      | .error reason => pure (.error reason)
      | .ok more => pure (.ok ((Layout.handles? xml).getD [] ++ more))

def patternMessage (e : Layout.PatternError) : String :=
  "invalid handle pattern `" ++ e.pattern ++ "`: Compiled regex exceeds size limit of "
    ++ toString Layout.sizeLimit ++ " bytes."

/-- Writes the table of an area, and gives the line to print. -/
def mapAreaFiles (m1 m2 out area : String) (packages : List String) : m (Except String String) := do
  let catalog ← Layout.catalogOf m2 area
  match ← handlesOfFiles (← Layout.layoutFiles m1 area packages) with
  | .error reason => pure (.error reason)
  | .ok handles =>
    match Layout.mapArea catalog area handles with
    | .error e => pure (.error (patternMessage e))
    | .ok table =>
      let path := joinPath out ("view_mapping_" ++ area ++ ".json")
      let json := Json.object (table.map fun (handle, name) => (handle, .string name))
      match ← Storage.writeText path (json.pretty ++ "\n") with
      | .error e => pure (.error ("could not write " ++ path ++ ": " ++ e.message))
      | .ok () => pure (.ok (area ++ ": " ++ toString table.length ++ " handles -> " ++ path ++ "\n"))

def mapAreas (m1 m2 out : String) (printed : String) : List (String × List String) → m Output
  | [] => pure ⟨0, printed, none⟩
  | (area, packages) :: areas => do
    match ← mapAreaFiles m1 m2 out area packages with
    | .error reason => pure (.failed printed reason)
    | .ok line => mapAreas m1 m2 out (printed ++ line) areas

def runViewMapping (settings : Settings.Layout) (m1 m2 out : String) : m Output := do
  let missing (name path : String) : String :=
    name ++ " path " ++ path ++ " doesn't exist or is not a directory"
  if !(← Files.isFolder m1) then pure (.failed "" (missing "m1" m1))
  else if !(← Files.isFolder m2) then pure (.failed "" (missing "m2" m2))
  else
    match ← Storage.makeFolders out with
    | .error e => pure (.failed "" ("failed to create " ++ out ++ ": " ++ e.message))
    | .ok () => mapAreas m1 m2 out "" settings.areas

end MageUplift.CommandLine
