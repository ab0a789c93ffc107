import MageUplift.Json
import MageUplift.Settings.Basic

/-!
# The schema of the settings file

Settings as JSON, and the JSON schema that editors check a settings file with. The defaults in the schema
are those of the settings types.
-/

namespace MageUplift

/-! ## §1. Settings as JSON. Members stand in the order of their names. -/

namespace Settings

def Logging.toJson (l : Logging) : Json :=
  .object [("file", (l.file.map Json.string).getD .null), ("json", .bool l.json), ("level", .string l.level),
    ("stderr", .bool l.stderr)]

def textTable (entries : List (String × String)) : Json :=
  .object (entries.map fun (key, value) => (key, .string value))

def Migrate.toJson (m : Migrate) : Json :=
  .object [("class_aliases", textTable m.classAliases),
    ("collision_policy", .string m.collisionPolicy.text), ("extensions", .strings m.extensions),
    ("indent", .string m.indent), ("module_aliases", textTable m.moduleAliases)]

def Layout.areasJson (l : Layout) : Json :=
  .object (l.areas.map fun (area, packages) => (area, .strings packages))

def Layout.toJson (l : Layout) : Json := .object [("areas", l.areasJson)]

end Settings

def Settings.toJson (s : Settings) : Json :=
  .object [("layout", s.layout.toJson), ("logging", s.logging.toJson), ("migrate", s.migrate.toJson)]

/-! ## §2. Parts of a schema. -/

namespace Settings.Schema

def typed (name : String) : Json := .object [("type", .string name)]

/-- A setting: what it is for, its default, its type, and what else holds of its values. -/
def setting (description : String) (default : Json) (type : String × Json)
    (more : List (String × Json)) : Json :=
  .object ([("description", .string description), ("default", default), type] ++ more)

def typeIs (name : String) : String × Json := ("type", .string name)

def reference (name : String) : String × Json :=
  ("allOf", .array [.object [("$ref", .string ("#/definitions/" ++ name))]])

def group (properties : List (String × Json)) : Json :=
  .object [typeIs "object", ("properties", .object properties), ("additionalProperties", .bool false)]

def choice (description word : String) : Json :=
  .object [("description", .string description), typeIs "string", ("enum", .strings [word])]

/-! ## §3. The definitions. -/

def collisionPolicy : Json :=
  .object
    [("description", .string ("What to do when two matched calls in one file ask for the same injected "
        ++ "variable name with different types.")),
     ("oneOf", .array
       [choice "Keep the type requested last and log a warning." CollisionPolicy.lastWins.text,
        choice "Fail the file." CollisionPolicy.reject.text])]

def layout : Json :=
  let listOfTexts := Json.object [typeIs "array", ("items", typed "string")]
  group
    [("areas", setting "M1 design areas and the packages searched for layout XML in each."
        ({} : Layout).areasJson (typeIs "object") [("additionalProperties", listOfTexts)])]

def logging : Json :=
  let defaults : Logging := {}
  group
    [("file", setting ("Append logs to the given file path.\n\nIf the file cannot be opened, file logging is "
          ++ "disabled while other sinks remain active.")
        .null ("type", .strings ["string", "null"]) []),
     ("json", setting "Emit logs in JSON format." (.bool defaults.json) (typeIs "boolean") []),
     ("level", setting ("Logging level for all Ferry crates.\n\nEither a simple level (`info`, `debug`, ...) "
          ++ "or a full `EnvFilter` directive string such as `ferry.migrate=trace,info`.")
        (.string defaults.level) (typeIs "string") []),
     ("stderr", setting "Write logs to stderr." (.bool defaults.stderr) (typeIs "boolean") [])]

def migrate : Json :=
  let defaults : Migrate := {}
  let texts := [("additionalProperties", typed "string")]
  group
    [("class_aliases", setting ("Explicit M1 class alias to M2 class mappings, e.g. `\"core/session\" = "
          ++ "\"\\\\Magento\\\\Framework\\\\Session\\\\SessionManager\"`.\n\nThese take precedence over the "
          ++ "built-in tables.")
        (textTable defaults.classAliases) (typeIs "object") texts),
     ("collision_policy",
        .object [("default", .string defaults.collisionPolicy.text), reference "CollisionPolicy"]),
     ("extensions", setting "File extensions the `migrate` command picks up."
        (.strings defaults.extensions) (typeIs "array") [("items", typed "string")]),
     ("indent", setting "Indent unit for generated constructor code." (.string defaults.indent)
        (typeIs "string") []),
     ("module_aliases", setting "Extra M1 module prefixes, e.g. `\"mymodule\" = \"Acme\\\\MyModule\"`."
        (textTable defaults.moduleAliases) (typeIs "object") texts)]

/-! ## §4. The whole file. -/

def description : String :=
  "Top-level configuration loaded from `ferry.toml`.\n\n```toml [logging] level = \"debug\"\n\n"
    ++ "[migrate] collision_policy = \"reject\" class_aliases = \x7b \"core/session\" = "
    ++ "\"\\\\Magento\\\\Framework\\\\Session\\\\SessionManager\" \x7d\n\n"
    ++ "[layout] areas = \x7b frontend = [\"base\", \"default\"] \x7d ```"

def schema : Json :=
  let defaults : Settings := {}
  .object
    [("$schema", .string "http://json-schema.org/draft-07/schema#"),
     ("title", .string "ferry.toml"),
     ("description", .string description),
     typeIs "object",
     ("properties", .object
       [("layout", setting "Settings for the layout handle mapper." defaults.layout.toJson
            (reference "LayoutConfig") []),
        ("logging", setting "Global logging settings for Ferry crates." defaults.logging.toJson
            (reference "LoggingConfig") []),
        ("migrate", setting "Settings for the `Mage::` call migration pass." defaults.migrate.toJson
            (reference "MigrateConfig") [])]),
     ("additionalProperties", .bool false),
     ("definitions", .object
       [("CollisionPolicy", collisionPolicy), ("LayoutConfig", layout), ("LoggingConfig", logging),
        ("MigrateConfig", migrate)])]

end Settings.Schema

end MageUplift
