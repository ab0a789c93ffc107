/-!
# JSON output

The values that reports are written as, and their text: two spaces of indent per level, one item on a line,
empty lists and objects on one line. Members keep the order in which they are given.
-/

namespace MageUplift

/-- A JSON value. Numbers are whole. -/
inductive Json where
  | null
  | bool (b : Bool)
  | number (n : Nat)
  | string (s : String)
  | array (items : List Json)
  | object (members : List (String × Json))

namespace Json

def escapeChar (c : Char) : String :=
  match c with
  | '\x22' => "\\\""
  | '\\' => "\\\\"
  | '\n' => "\\n"
  | '\r' => "\\r"
  | '\t' => "\\t"
  | '\x08' => "\\b"
  | '\x0c' => "\\f"
  | _ =>
    if c < ' ' then "\\u00" ++ String.ofList [Nat.digitChar (c.toNat / 16), Nat.digitChar (c.toNat % 16)]
    else String.singleton c

def quote (s : String) : String := "\"" ++ String.join (s.toList.map escapeChar) ++ "\""

def lineBreak (level : Nat) : String := "\n" ++ String.ofList (List.replicate (2 * level) ' ')

mutual

def prettyAt (level : Nat) : Json → String
  | .null => "null"
  | .bool b => if b then "true" else "false"
  | .number n => toString n
  | .string s => quote s
  | .array [] => "[]"
  | .array (item :: items) =>
    "[" ++ lineBreak (level + 1) ++ prettyAt (level + 1) item ++ prettyItems (level + 1) items
      ++ lineBreak level ++ "]"
  | .object [] => "\x7b\x7d"
  | .object ((key, value) :: members) =>
    "\x7b" ++ lineBreak (level + 1) ++ quote key ++ ": " ++ prettyAt (level + 1) value
      ++ prettyMembers (level + 1) members ++ lineBreak level ++ "\x7d"

def prettyItems (level : Nat) : List Json → String
  | [] => ""
  | item :: items => "," ++ lineBreak level ++ prettyAt level item ++ prettyItems level items

def prettyMembers (level : Nat) : List (String × Json) → String
  | [] => ""
  | (key, value) :: members =>
    "," ++ lineBreak level ++ quote key ++ ": " ++ prettyAt level value ++ prettyMembers level members

end

def pretty (value : Json) : String := prettyAt 0 value

def strings (items : List String) : Json := .array (items.map .string)

end Json

end MageUplift
