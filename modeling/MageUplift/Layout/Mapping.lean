import MageUplift.Layout.Catalog
import MageUplift.Layout.PatternMatch
import MageUplift.Layout.PatternReader

/-!
# From Magento 1 handles to Magento 2 handles

A handle is looked up by a list of patterns, the most faithful first, and stands for the first name of the
catalog that the first successful pattern describes. A handle for which there is no name is obsolete.
-/

namespace MageUplift.Layout

/-! ## §1. Patterns for a handle. -/

/-- Characters that stand for themselves only behind a backslash. -/
def isMeta (c : Char) : Bool := "\\.+*?()|[]\x7b\x7d^$#&-~".toList.contains c

/-- The pattern of a text that means nothing but the text. -/
def escape (cs : List Char) : List Char := cs.flatMap fun c => if isMeta c then ['\\', c] else [c]

/-- A pattern with another one for each underscore. -/
def withUnderscores (underscore : String) (pattern : List Char) : List Char :=
  pattern.flatMap fun c => if c == '_' then underscore.toList else [c]

/-- A plural is accepted: one more character may stand before each underscore. -/
def pluralTolerant (pattern : List Char) : List Char := withUnderscores ".?_" pattern

/-- What follows a front part, if a text begins with it. -/
def afterFront? (front : String) (cs : List Char) : Option (List Char) :=
  if front.toList.isPrefixOf cs then some (cs.drop front.length) else none

/-- The patterns that a handle is looked up by, in order. In the administration area the handle may go
without its area and with words put in; elsewhere Enterprise handles have been renamed, and handles may
have moved to the page module. -/
def candidates (handle area : String) : List (List Char) :=
  let escaped := escape handle.toList
  let others :=
    if area == "adminhtml" then
      let bare := (afterFront? "adminhtml_" escaped).getD escaped
      [bare, withUnderscores "_([^_]+)_" bare, "([^_]+)_".toList ++ bare, "([^_]+)_([^_]+)_".toList ++ bare]
    else
      (match afterFront? "enterprise_" escaped with
        | some rest => [pluralTolerant ("magento_".toList ++ rest)]
        | none => [])
        ++ ["page_".toList ++ escaped]
  escaped :: pluralTolerant escaped :: others

/-! ## §2. Mapping. -/

inductive HandleMapping where
  | found (name : String)
  | obsolete
  deriving Repr, DecidableEq

/-- The name in lower case, or the word for a handle that is gone. -/
def HandleMapping.text : HandleMapping → String
  | .found name => Text.lowercase name
  | .obsolete => "obsolete"

/-- A pattern that cannot be used, because it is no pattern or its machine is too large. -/
structure PatternError where
  pattern : String
  deriving Repr, DecidableEq

def Catalog.findPattern (catalog : Catalog) (text : String) : Except PatternError (Option String) :=
  match Pattern.ofNameText? text with
  | none => .error ⟨text⟩
  | some pattern => .ok (catalog.find? pattern.occursIn)

def mapBy (catalog : Catalog) : List (List Char) → Except PatternError HandleMapping
  | [] => .ok .obsolete
  | pattern :: patterns => do
    match ← catalog.findPattern (String.ofList pattern) with
    | some name => .ok (.found name)
    | none => mapBy catalog patterns

def mapHandle (catalog : Catalog) (handle area : String) : Except PatternError HandleMapping :=
  mapBy catalog (candidates handle area)

/-- The table of an area: handles in lower case, in the order of their names. Of handles that differ in
case only, the first decides. -/
def mapArea (catalog : Catalog) (area : String) (handles : List String) :
    Except PatternError (List (String × String)) := do
  let table ← handles.foldlM (fun table handle => do
    let key := Text.lowercase handle
    if (table.lookup key).isSome then return table
    return table ++ [(key, (← mapHandle catalog handle area).text)]) []
  return table.mergeSort fun a b => decide (a.1 ≤ b.1)

end MageUplift.Layout
