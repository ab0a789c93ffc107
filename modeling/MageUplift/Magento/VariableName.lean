import MageUplift.Text.Lowercase
import MageUplift.Text.Split

/-!
# Names of injected variables

The variable that receives an injected object is named after its class: the vendor is dropped, the other
segments are run together, and the first letter is made small. `\Magento\Catalog\Model\ProductFactory`
becomes `catalogProductFactory`, and the helper class `\Magento\Catalog\Helper\Data` `catalogHelper`.
-/

namespace MageUplift.Magento

def classSegments (cls : String) : List (List Char) :=
  match (Text.split '\\' cls.toList).filter fun s => !s.isEmpty with
  | _ :: s :: rest => s :: rest
  | segments => segments

/-- Segments run together, the first character in lower case. -/
def lowerCamel (segments : List (List Char)) : String :=
  match segments.flatten with
  | [] => ""
  | c :: cs => String.ofList (Text.lowercaseChar c ++ cs)

/-- The variable for an object of class `cls`: the layer `Model` is left out, unless nothing else is
left. -/
def variableName (cls : String) : String :=
  let segments := classSegments cls
  let kept := segments.filter (· ≠ "Model".toList)
  if kept.isEmpty then lowerCamel segments.getLast?.toList else lowerCamel kept

/-- The variable for a helper of class `cls`: `Helper` moves to the end, and the name of the data helper
is left out. -/
def helperVariableName (cls : String) : String :=
  let kept := (classSegments cls).filter (· ≠ "Helper".toList)
  let kept := if 1 < kept.length && kept.getLast? == some "Data".toList then kept.dropLast else kept
  lowerCamel (kept ++ ["Helper".toList])

end MageUplift.Magento
