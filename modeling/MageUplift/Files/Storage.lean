import MageUplift.Files.Tree

/-!
# Access to files

What the commands ask of a file system. The same commands run on the files of the machine and, as a
function of a tree, on a `World`.
-/

namespace MageUplift.Files

/-- A monad in which files can be looked at and written. -/
class Storage (m : Type → Type) where
  workingFolder : m String
  survey : String → m (Except FileError Survey)
  readText : String → m (Except FileError String)
  writeText : String → String → m (Except FileError Unit)
  makeFolders : String → m (Except FileError Unit)

instance : Storage (StateM World) where
  workingFolder := do return (← get).workingFolder
  survey path := do return (← get).survey path
  readText path := do return (← get).readText path
  writeText path text := modifyGet fun w => w.writeText path text
  makeFolders path := modifyGet fun w => w.makeFolders path

section Queries

variable {m : Type → Type} [Monad m] [Storage m]

def isFile (path : String) : m Bool := do
  match ← Storage.survey path with
  | .ok found => pure found.isFile
  | .error _ => pure false

def isFolder (path : String) : m Bool := do
  match ← Storage.survey path with
  | .ok found => pure found.isFolder
  | .error _ => pure false

end Queries

end MageUplift.Files
