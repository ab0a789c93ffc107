import MageUplift.Files.Path
import MageUplift.Settings.Problem

/-!
# Which files are migrated

A file is picked up for its extension. The case of ASCII letters does not matter, nor do dots in front of
a configured extension.
-/

namespace MageUplift.Settings

def Migrate.matchesExtension (m : Migrate) (path : String) : Bool :=
  match Files.extension? path with
  | none => false
  | some extension => m.extensions.any fun wanted => (bareExtension wanted).toLower == extension.toLower

end MageUplift.Settings
