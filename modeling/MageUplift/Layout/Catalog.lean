/-!
# Catalogs of handles

The handle names of one design area, in the order in which they were discovered.
-/

namespace MageUplift.Layout

structure Catalog where
  names : List String
  deriving Repr, DecidableEq

namespace Catalog

/-- The catalog of some names: empty names are left out and each name is kept once. -/
def ofNames (names : List String) : Catalog := ⟨(names.filter (!·.isEmpty)).eraseDups⟩

def size (catalog : Catalog) : Nat := catalog.names.length

def find? (catalog : Catalog) (test : String → Bool) : Option String := catalog.names.find? test

end Catalog

end MageUplift.Layout
