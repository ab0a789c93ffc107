/-!
# Settings

What `ferry.toml` can set, with the values that hold when it does not. Tables of aliases and of layout
areas are kept in the byte order of their keys.
-/

namespace MageUplift.Settings

/-- What happens when two calls of one file ask for the same variable with different types. -/
inductive CollisionPolicy where
  | lastWins
  | reject
  deriving Repr, DecidableEq

def CollisionPolicy.text : CollisionPolicy → String
  | .lastWins => "last-wins"
  | .reject => "reject"

structure Logging where
  level : String := "info"
  json : Bool := false
  stderr : Bool := true
  file : Option String := none
  deriving Repr, DecidableEq

structure Migrate where
  collisionPolicy : CollisionPolicy := .lastWins
  indent : String := "    "
  classAliases : List (String × String) := []
  moduleAliases : List (String × String) := []
  extensions : List String := ["php", "phtml"]
  deriving Repr, DecidableEq

/-- Which design areas are mapped, and the packages of each. -/
structure Layout where
  areas : List (String × List String) :=
    [("adminhtml", ["default", "enterprise"]), ("frontend", ["base", "default", "enterprise"])]
  deriving Repr, DecidableEq

end MageUplift.Settings

namespace MageUplift

structure Settings where
  logging : Settings.Logging := {}
  migrate : Settings.Migrate := {}
  layout : Settings.Layout := {}
  deriving Repr, DecidableEq

end MageUplift
