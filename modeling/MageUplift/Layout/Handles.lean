import MageUplift.Xml.Document

/-!
# Handles of a layout file

Every element right under the root of a layout file is a handle.
-/

namespace MageUplift.Layout

/-- The handles that a layout document declares, each once, or nothing if it is no XML document. A
document with another root declares none. -/
def handles? (xml : String) : Option (List String) := do
  let root ← Xml.parse? xml
  if root.name == "layout" then some (root.children.map Xml.Element.name).eraseDups else some []

end MageUplift.Layout
