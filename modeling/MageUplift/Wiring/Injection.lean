import MageUplift.Wiring.Parameters
import MageUplift.Wiring.Requirements

/-!
# Injecting collaborators

For each collaborator that a file needs, its class gets a property, a constructor parameter and an
assignment, as far as they are missing. A class without a constructor gets one. Every change is an
insertion: parameters before the first one that is optional or variadic, assignments before the call of
the parent's constructor or else at the end of the body, properties and a new constructor at the top of
the class.

Generated code follows the file: one `indent` deeper than the line it belongs to, one parameter a line
when the parameter list spans several lines.
-/

namespace MageUplift.Wiring

open Php
open Call (Collaborator)

/-! ## §1. Generated code. -/

/-- The declaration of a collaborator's property, with its doc comment. -/
def propertyCode (indent : String) (v : Collaborator) : String :=
  "\n" ++ indent ++ "/**\n" ++ indent ++ " * @var " ++ v.type ++ "\n" ++ indent ++ " */\n"
    ++ indent ++ "protected $" ++ v.name ++ ";\n"

def parameterCode (v : Collaborator) : String := v.type ++ " $" ++ v.name

def assignmentCode (v : Collaborator) : String := "$this->" ++ v.name ++ " = $" ++ v.name ++ ";"

/-- A constructor that takes the collaborators and keeps them; `inner` is the indentation of its body. -/
def constructorCode (indent inner : String) (vs : List Collaborator) : String :=
  "\n" ++ indent ++ "/**\n"
    ++ String.join (vs.map fun v => indent ++ " * @param " ++ parameterCode v ++ "\n")
    ++ indent ++ " */\n" ++ indent ++ "public function __construct(\n"
    ++ ",\n".intercalate (vs.map fun v => inner ++ parameterCode v)
    ++ "\n" ++ indent ++ ") \x7b\n"
    ++ String.join (vs.map fun v => inner ++ assignmentCode v ++ "\n")
    ++ indent ++ "\x7d\n"

/-! ## §2. What a constructor already does. -/

/-- The property that `$this->name =` at `i` assigns, inside a body that ends at `stop`. -/
def assignedAt? (s : TokenStream) (stop i : Nat) : Option String :=
  if s.hasKind i .variableName && s.text i = "$this" then do
    let arrow ← s.followedBy? i .arrow
    let name ← s.followedBy? arrow .identifier
    let equals ← s.followedBy? name .equals
    if equals < stop then return s.text name else none
  else none

def assignedProperties (s : TokenStream) (c : Constructor) : List String :=
  (List.range' (c.bodyLeft + 1) (c.bodyRight - (c.bodyLeft + 1))).filterMap (assignedAt? s c.bodyRight)

def isParentCall (s : TokenStream) (i : Nat) : Bool :=
  (s.get? i).any (·.isWord "parent")
    && (((s.followedBy? i .doubleColon).bind fun colons =>
      (s.nextSignificant? (colons + 1)).bind s.get?).any (·.isWord "__construct"))

/-- The first call of the parent's constructor from `i` on that stands in no bracket of the body. -/
def parentCallFrom? (s : TokenStream) (stop : Nat) (i : Nat) : Option Nat :=
  if i < stop then
    match s.kind? i with
    | none => none
    | some k =>
      if k.isOpener then
        match _h : s.matchingClose? i with
        | none => none
        | some close => parentCallFrom? s stop (close + 1)
      else if isParentCall s i then some i
      else parentCallFrom? s stop (i + 1)
  else none
termination_by stop - i
decreasing_by
  · have := TokenStream.lt_close _h
    omega
  · omega

def parentCall? (s : TokenStream) (c : Constructor) : Option Nat :=
  parentCallFrom? s c.bodyRight (c.bodyLeft + 1)

/-! ## §3. Extending a constructor. -/

/-- Where the white space in front of position `i`, but after `left`, begins. -/
def trailingBlankStart (s : TokenStream) (left : Nat) : Nat → Nat
  | 0 => 0
  | i + 1 => if left < i && s.hasKind i .whitespace then trailingBlankStart s left i else i + 1

/-- Where new parameters go, and their code. They are required, so they stand before the first
parameter that is optional or variadic. -/
def parameterInsertion (s : TokenStream) (indent : String) (c : Constructor) (list : ParameterList)
    (new : List String) : Nat × String :=
  let deeper :=
    match list.parameters.head?.filter fun _ => list.multiline with
    | some p => lineIndent s p.first
    | none => c.indent ++ indent
  match list.parameters.find? fun p => p.facts.optional || p.facts.variadic with
  | some boundary =>
    (boundary.first,
      String.join (new.map fun p => if list.multiline then p ++ ",\n" ++ deeper else p ++ ", "))
  | none =>
    match list.parameters.getLast?, list.trailingComma with
    | some _, some comma =>
      (comma + 1,
        String.join (new.map fun p => if list.multiline then "\n" ++ deeper ++ p ++ "," else " " ++ p ++ ","))
    | some last, none =>
      (last.last + 1,
        String.join (new.map fun p => if list.multiline then ",\n" ++ deeper ++ p else ", " ++ p))
    | none, _ =>
      (c.left + 1,
        if list.multiline then "\n" ++ deeper ++ (",\n" ++ deeper).intercalate new
        else ", ".intercalate new)

def assignmentInsertion (s : TokenStream) (indent : String) (c : Constructor) (new : List Collaborator) :
    Nat × String :=
  let deeper :=
    match (s.nextSignificant? (c.bodyLeft + 1)).filter (· < c.bodyRight) with
    | some first => lineIndent s first
    | none => c.indent ++ indent
  match parentCall? s c with
  | some call => (call, String.join (new.map fun v => assignmentCode v ++ "\n" ++ deeper))
  | none =>
    let code := String.join (new.map fun v => "\n" ++ deeper ++ assignmentCode v)
    (trailingBlankStart s c.bodyLeft c.bodyRight,
      if c.bodyRight = c.bodyLeft + 1 then code ++ "\n" ++ c.indent else code)

def insertCode (new : List α) (place : List α → Nat × String) : List (Edit Token) :=
  if new.isEmpty then []
  else
    let spot := place new
    [Edit.insert spot.1 (lexFragment spot.2)]

def extendConstructor (s : TokenStream) (indent : String) (c : Constructor) (list : ParameterList)
    (r : Requirements) : List (Edit Token) :=
  let missing := r.entries.filter fun v => !list.names.contains v.name
  let assigned := assignedProperties s c
  let unassigned := r.entries.filter fun v =>
    !list.promotedNames.contains v.name && !assigned.contains v.name
  insertCode (missing.map parameterCode) (parameterInsertion s indent c list)
    ++ insertCode unassigned (assignmentInsertion s indent c)

/-! ## §4. The whole class. -/

/-- The insertions that give a class what its file needs: into the constructor first, then at the top
of the class. -/
def inject (s : TokenStream) (indent : String) (r : Requirements) :
    Except InjectError (List (Edit Token)) := do
  if r.isEmpty then return []
  let cls ← classBody s
  let members ← members s cls
  let deeper := cls.indent ++ indent
  let list := members.ctor.map (parameterList s)
  let declared := members.properties ++ (list.map ParameterList.promotedNames).getD []
  let properties := String.join
    ((r.entries.filter fun v => !declared.contains v.name).map (propertyCode deeper))
  let (extensions, header) := match members.ctor, list with
    | some c, some list => (extendConstructor s indent c list r, properties)
    | _, _ => ([], properties ++ constructorCode deeper (deeper ++ indent) r.entries)
  return extensions
    ++ if header.isEmpty then [] else [Edit.insert (cls.left + 1) (lexFragment header)]

end MageUplift.Wiring
