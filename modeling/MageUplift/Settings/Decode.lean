import MageUplift.Settings.Basic
import MageUplift.Text.Quoted
import MageUplift.Toml.Value

/-!
# Settings from a TOML document

Reads the settings off the table of a document. Entries are visited in the order of the document, and the
first that does not fit decides the `Mismatch`. A group of settings may also be written as an array, which
gives the fields in their order.
-/

namespace MageUplift.Settings

open MageUplift.Toml (Value)

/-! ## §1. What does not fit. -/

inductive Mismatch where
  | unknownField (name : String) (known : List String)
  | unknownVariant (name : String) (known : List String)
  | wrongType (found wanted : String)
  | notAChoice (reason : String)
  deriving Repr, DecidableEq

def alternatives (names : List String) : String :=
  match names.map fun name => "`" ++ name ++ "`" with
  | [one] => one
  | [one, two] => one ++ " or " ++ two
  | many => "one of " ++ ", ".intercalate many

def Mismatch.message : Mismatch → String
  | .unknownField name known => "unknown field `" ++ name ++ "`, expected " ++ alternatives known
  | .unknownVariant name known => "unknown variant `" ++ name ++ "`, expected " ++ alternatives known
  | .wrongType found wanted => "invalid type: " ++ found ++ ", expected " ++ wanted
  | .notAChoice reason => reason

def shown : Value → String
  | .string s => "string " ++ Text.quoted s
  | .integer n => "integer `" ++ toString n ++ "`"
  | .float text => "floating point `" ++ text ++ "`"
  | .boolean b => "boolean `" ++ toString b ++ "`"
  | .array _ | .tables _ => "sequence"
  | .table _ _ | .moment _ => "map"

abbrev Decoded := Except Mismatch

/-! ## §2. Plain values. -/

def wanted {α : Type} (what : String) (v : Value) : Decoded α := throw (.wrongType (shown v) what)

def decodeString : Value → Decoded String
  | .string s => pure s
  | v => wanted "a string" v

def decodePath : Value → Decoded String
  | .string s => pure s
  | v => wanted "path string" v

def decodeBool : Value → Decoded Bool
  | .boolean b => pure b
  | v => wanted "a boolean" v

def decodeList {α : Type} (item : Value → Decoded α) : Value → Decoded (List α)
  | .array items | .tables items => items.mapM item
  | v => wanted "a sequence" v

/-- The key under which the text of a date or time stands where a table is read. -/
def momentKey : String := "$__toml_private_datetime"

def entries? : Value → Option (List (String × Value))
  | .table _ entries => some entries
  | .moment text => some [(momentKey, .string text)]
  | _ => none

/-- A table whose keys are free, in the byte order of its keys. -/
def decodeTable {α : Type} (item : Value → Decoded α) (v : Value) : Decoded (List (String × α)) := do
  match entries? v with
  | none => wanted "a map" v
  | some entries =>
    let decoded ← entries.mapM fun (key, value) => do return (key, ← item value)
    pure (decoded.mergeSort fun a b => decide (a.1 ≤ b.1))

/-- One of a few words. A table stands for its only key, whose value must then be empty. -/
def decodeChoice {α : Type} (choices : List (String × α)) (v : Value) : Decoded α := do
  let choose (name : String) : Decoded α :=
    match choices.lookup name with
    | some a => pure a
    | none => throw (.unknownVariant name (choices.map (·.1)))
  match v with
  | .string name => choose name
  | .table _ [] => throw (.notAChoice "wanted exactly 1 element, found 0 elements")
  | .table _ [(name, content)] =>
    let choice ← choose name
    match content with
    | .array [] | .tables [] | .table _ [] => pure choice
    | .tables _ => throw (.notAChoice "expected empty array")
    | .array _ | .table _ _ => throw (.notAChoice "expected empty table")
    | other => throw (.notAChoice ("expected table, found " ++ other.typeName))
  | .table _ _ => throw (.notAChoice "wanted exactly 1 element, more than 1 element")
  | _ => throw (.notAChoice "wanted string or table")

/-! ## §3. Groups of settings. -/

structure Field (α : Type) where
  name : String
  set : α → Value → Decoded α

/-- A group of settings. Fields that are not given keep their defaults. -/
def decodeGroup {α : Type} (what : String) (fields : List (Field α)) (default : α) (v : Value) :
    Decoded α :=
  match v with
  | .array items | .tables items =>
    (fields.zip items).foldlM (fun group (field, item) => field.set group item) default
  | _ =>
    match entries? v with
    | none => wanted what v
    | some entries =>
      entries.foldlM (fun group (key, item) =>
        match fields.find? (·.name == key) with
        | some field => field.set group item
        | none => throw (.unknownField key (fields.map (·.name)))) default

def loggingFields : List (Field Logging) :=
  [⟨"level", fun g v => do return { g with level := ← decodeString v }⟩,
   ⟨"json", fun g v => do return { g with json := ← decodeBool v }⟩,
   ⟨"stderr", fun g v => do return { g with stderr := ← decodeBool v }⟩,
   ⟨"file", fun g v => do return { g with file := some (← decodePath v) }⟩]

def migrateFields : List (Field Migrate) :=
  [⟨"collision_policy", fun g v => do
      let policies := [CollisionPolicy.lastWins, .reject].map fun p => (p.text, p)
      return { g with collisionPolicy := ← decodeChoice policies v }⟩,
   ⟨"indent", fun g v => do return { g with indent := ← decodeString v }⟩,
   ⟨"class_aliases", fun g v => do return { g with classAliases := ← decodeTable decodeString v }⟩,
   ⟨"module_aliases", fun g v => do return { g with moduleAliases := ← decodeTable decodeString v }⟩,
   ⟨"extensions", fun g v => do return { g with extensions := ← decodeList decodeString v }⟩]

def layoutFields : List (Field Layout) :=
  [⟨"areas", fun g v => do return { g with areas := ← decodeTable (decodeList decodeString) v }⟩]

def settingsFields : List (Field Settings) :=
  [⟨"logging", fun s v => do
      return { s with logging := ← decodeGroup "struct LoggingConfig" loggingFields {} v }⟩,
   ⟨"migrate", fun s v => do
      return { s with migrate := ← decodeGroup "struct MigrateConfig" migrateFields {} v }⟩,
   ⟨"layout", fun s v => do
      return { s with layout := ← decodeGroup "struct LayoutConfig" layoutFields {} v }⟩]

def decode (document : Value) : Decoded Settings :=
  decodeGroup "struct FerryConfig" settingsFields {} document

end MageUplift.Settings
