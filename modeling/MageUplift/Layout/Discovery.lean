import MageUplift.Files.Storage
import MageUplift.Layout.Catalog

/-!
# Where layout files are

Magento 1 keeps the layout files of an area by package, Magento 2 by module and area, with files for all
areas beside them.
-/

namespace MageUplift.Layout

open MageUplift.Files (Storage Survey joinPath)

variable {m : Type → Type} [Monad m] [Storage m]

/-- The names that lead to the XML files below a folder, at most `depth` names deep, in the order of a
walk. Folders that cannot be listed are passed over. -/
def xmlFiles (depth : Nat) (folder : Survey) : List (List String) :=
  ((folder.files.filter (·.2 == .file)).map (·.1)).filter fun path =>
    path.length ≤ depth && path.getLast?.any fun name => (Files.splitExtension name).2 == some "xml"

/-- The paths of the XML files below a folder; there are none where there is no folder. -/
def xmlPaths (depth : Nat) (folder : String) : m (List String) := do
  match ← Storage.survey folder with
  | .ok (.folder entries) =>
    pure ((xmlFiles depth (.folder entries)).map fun path => joinPath folder ("/".intercalate path))
  | _ => pure []

/-- The Magento 1 layout files of an area, package by package. -/
def layoutFiles (root area : String) (packages : List String) : m (List String) := do
  let design := joinPath (joinPath root "app/design") area
  let found ← packages.mapM fun package =>
    xmlPaths 3 (joinPath (joinPath design package) "default/layout")
  pure found.flatten

/-- The paths of the modules of all vendors: the folders two levels below the folder for code. -/
def modulePaths (path : String) (code : Survey) : List String :=
  code.entries.flatMap fun (vendor, node) =>
    (node.entries.filter fun (_, inner) => Survey.isFolder inner).map
    fun (module, _) => joinPath (joinPath path vendor) module

/-- The handles of the layout files that a module has for a scope. -/
def moduleHandles (scope module : String) : m (List String) := do
  let files ← xmlPaths 1 (joinPath (joinPath (joinPath module "view") scope) "layout")
  pure (files.filterMap fun file => (Files.fileName? file).map fun name => (Files.splitExtension name).1)

/-- The Magento 2 handles of an area: those for the area itself, then those for all areas. -/
def catalogOf (root area : String) : m Catalog := do
  let path := joinPath root "app/code"
  match ← Storage.survey path with
  | .error _ => pure (.ofNames [])
  | .ok code =>
    let modules := modulePaths path code
    let found ← [area, "base"].mapM fun scope => modules.mapM (moduleHandles scope)
    pure (.ofNames found.flatten.flatten)

end MageUplift.Layout
