/-!
# Values of a TOML document

A document is a table of values. Each table remembers how it was written (`TableForm`), because that
decides which later lines may still add to it.
-/

namespace MageUplift.Toml

inductive TableForm where
  /-- By a header of its own, or as the document itself. -/
  | headed
  /-- On the way to the table of a longer header. -/
  | passed
  /-- By a dotted key. -/
  | dotted
  /-- In braces. Such a table is complete. -/
  | inlined
  deriving Repr, DecidableEq

/-- A TOML value. Of a finite float its decimal text is kept; a date or time is kept in its standard
spelling. -/
inductive Value where
  | string (text : String)
  | integer (n : Int)
  | float (text : String)
  | boolean (b : Bool)
  | moment (text : String)
  | array (items : List Value)
  /-- Tables written under a repeated header in double brackets. -/
  | tables (items : List Value)
  /-- Entries stand in the order in which they were written. -/
  | table (form : TableForm) (entries : List (String × Value))

namespace Value

def typeName : Value → String
  | .string _ => "string"
  | .integer _ => "integer"
  | .float _ => "float"
  | .boolean _ => "boolean"
  | .moment _ => "datetime"
  | .array _ => "array"
  | .tables _ => "array of tables"
  | .table .inlined _ => "inline table"
  | .table _ _ => "table"

end Value

/-! ## §1. Entries. -/

/-- Puts a value under a key: in the place of the value that is there, else at the end. -/
def setEntry (key : String) (value : Value) : List (String × Value) → List (String × Value)
  | [] => [(key, value)]
  | (k, v) :: rest => if k == key then (k, value) :: rest else (k, v) :: setEntry key value rest

/-! ## §2. Reaching into tables. -/

/-- Whether a line may add to a table of this form: a header passes through every table but an inlined
one, a dotted key only through tables that no header has opened. -/
def TableForm.isOpen (byKey : Bool) : TableForm → Bool
  | .inlined => false
  | .headed => !byKey
  | .passed | .dotted => true

/-- Changes the table at the end of a path. Missing tables on the way are made, and of tables under a
repeated header the last one is meant. The path of a dotted key (`byKey`) makes dotted tables. -/
def alterAt {α : Type} (byKey : Bool) (change : Value → Option (α × Value)) :
    List String → Value → Option (α × Value)
  | [], value => change value
  | key :: path, .table form entries => do
    match (entries.lookup key).getD (.table (if byKey then .dotted else .passed) []) with
    | .table inner members =>
      guard (inner.isOpen byKey)
      let (a, child) ← alterAt byKey change path (.table inner members)
      pure (a, .table form (setEntry key child entries))
    | .tables items =>
      let last ← items.getLast?
      let (a, child) ← alterAt byKey change path last
      pure (a, .table form (setEntry key (.tables (items.dropLast ++ [child])) entries))
    | _ => none
  | _ :: _, _ => none

/-- Adds the value of a dotted key to a table. Every key is given at most once, and a key with dots adds
only to tables that such keys made. -/
def addKey (path : List String) (key : String) (value table : Value) : Option Value := do
  let add : Value → Option (Unit × Value)
    | .table form entries =>
      if (form == .dotted) == path.isEmpty || (entries.lookup key).isSome then none
      else some ((), .table form (entries ++ [(key, value)]))
    | _ => none
  (·.2) <$> alterAt true add path table

def Value.sealed : Value → Value
  | .table _ entries => .table .inlined entries
  | value => value

/-! ## §3. A document under construction. -/

/-- The document read so far, without the table whose lines are being read. -/
structure Draft where
  root : Value := .table .headed []
  path : List String := []
  repeated : Bool := false
  current : Value := .table .headed []

namespace Draft

def finish (d : Draft) : Option Value :=
  match d.path.getLast? with
  | none => some d.current
  | some key =>
    let place : Value → Option (Unit × Value)
      | .table form entries =>
        match d.repeated, entries.lookup key with
        | true, some (.tables items) =>
          some ((), .table form (setEntry key (.tables (items ++ [d.current])) entries))
        | false, none => some ((), .table form (entries ++ [(key, d.current)]))
        | _, _ => none
      | _ => none
    (·.2) <$> alterAt false place d.path.dropLast d.root

/-- Begins a table under a header. Only a table that longer headers passed through may be opened again;
it then counts as written here. -/
def openTable (path : List String) (d : Draft) : Option Draft := do
  let root ← d.finish
  let key ← path.getLast?
  let take : Value → Option (Value × Value)
    | .table form entries =>
      match entries.lookup key with
      | none => some (.table .headed [], .table form entries)
      | some (.table .passed members) =>
        some (.table .headed members, .table form (entries.filter (·.1 != key)))
      | some _ => none
    | _ => none
  let (current, root) ← alterAt false take path.dropLast root
  pure { root, path, repeated := false, current }

def openRepeated (path : List String) (d : Draft) : Option Draft := do
  let root ← d.finish
  let key ← path.getLast?
  let prepare : Value → Option (Unit × Value)
    | .table form entries =>
      match entries.lookup key with
      | none => some ((), .table form (entries ++ [(key, .tables [])]))
      | some (.tables _) => some ((), .table form entries)
      | some _ => none
    | _ => none
  let (_, root) ← alterAt false prepare path.dropLast root
  pure { root, path, repeated := true, current := .table .headed [] }

def addLine (path : List String) (key : String) (value : Value) (d : Draft) : Option Draft := do
  let current ← addKey path key value d.current
  pure { d with current }

end Draft

end MageUplift.Toml
