import MageUplift.Call.Match
import MageUplift.Text.Position
import MageUplift.Wiring.Injection

/-!
# Migrating one file

A file that declares a class is migrated in two batches of edits: all legacy calls are replaced at once,
and then the collaborators that they need are injected into the class. The result is read anew, so that
its tokens are those of its text. A file without a class is left as it is.

Inside static functions there is no `$this`; calls there that would need a collaborator stay.
-/

namespace MageUplift

open Php Call Wiring Magento

/-! ## §1. Static functions. -/

/-- One of the modifiers in front of position `i` is `static`. -/
def isStaticBefore (s : TokenStream) (i : Nat) : Bool :=
  match _h : s.prevSignificant? i with
  | none => false
  | some prev =>
    match s.kind? prev with
    | some (.keyword .staticKw) => true
    | some k => if k.isModifier then isStaticBefore s prev else false
    | none => false
termination_by i
decreasing_by exact TokenStream.lt_of_prev _h

/-- The brace that opens a body, searching from `i` on over parentheses; a semicolon means that there is
no body. -/
def functionBodyFrom? (s : TokenStream) (i : Nat) : Option Nat :=
  if h : i < s.tokens.size then
    match s.tokens[i].kind with
    | .leftBrace => some i
    | .semicolon => none
    | .leftParen =>
      match _hm : s.matchingClose? i with
      | none => none
      | some close => functionBodyFrom? s (close + 1)
    | _ => functionBodyFrom? s (i + 1)
  else none
termination_by s.tokens.size - i
decreasing_by
  · have := TokenStream.lt_close _hm
    omega
  · omega

def functionBody? (s : TokenStream) (i : Nat) : Option Span := do
  let left ← s.nextOfKind? i .leftParen
  let right ← s.matchingClose? left
  let bodyLeft ← functionBodyFrom? s (right + 1)
  let bodyRight ← s.matchingClose? bodyLeft
  return ⟨bodyLeft, bodyRight + 1⟩

/-- The bodies of the static functions of a file, braces included. -/
def staticBodies (s : TokenStream) : List Span :=
  (List.range s.size).filterMap fun i =>
    if s.hasKind i (.keyword .functionKw) && isStaticBefore s i then functionBody? s i else none

/-! ## §2. Scanning. -/

def Call.Invocation.isInside (inv : Invocation) (bodies : List Span) : Bool :=
  bodies.any fun body => body.start < inv.span.start && inv.span.stop ≤ body.stop

/-- A call is converted unless it needs a collaborator inside a static body. -/
def Call.Invocation.isConvertible (inv : Invocation) (bodies : List Span) : Bool :=
  !(inv.isInside bodies && inv.collaborator.isSome)

/-- The calls to convert from token `i` on. After a call the scan goes on behind its head. -/
def scanFrom (table : AliasTable) (s : TokenStream) (bodies : List Span) (i : Nat) : List Invocation :=
  if i + 3 < s.size then
    match matchAt? table s i with
    | none => scanFrom table s bodies (i + 1)
    | some inv =>
      let rest := scanFrom table s bodies (max inv.headEnd (i + 1))
      if inv.isConvertible bodies then inv :: rest else rest
  else []
termination_by s.size - i

def scan (table : AliasTable) (s : TokenStream) : List Invocation := scanFrom table s (staticBodies s) 0

/-! ## §3. Reports and errors. -/

structure CallReport where
  pattern : Pattern
  line : UInt32
  legacy : String
  modern : String
  deriving Repr, DecidableEq

structure FileReport where
  file : String
  calls : List CallReport
  requirements : List Collaborator
  deriving Repr, DecidableEq

def FileReport.of (file : String) (s : TokenStream) (calls : List Invocation) (r : Requirements) :
    FileReport :=
  let lines := Text.LineIndex.ofText s.render
  { file
    calls := calls.map fun inv =>
      ⟨inv.pattern, (lines.position (s.byteOffset inv.span.start)).displayLine, inv.legacy, inv.modern⟩
    requirements := r.entries }

inductive MigrationError where
  | inject (cause : InjectError)
  | conflict (cause : Conflict) (pattern : Pattern) (span : Span)
  | edit (cause : Edit.Error)
  deriving Repr, DecidableEq

def MigrationError.message (file : String) : MigrationError → String
  | .inject _ => file ++ ": cannot inject dependencies"
  | .conflict c pattern span =>
    file ++ ": `$" ++ c.name ++ "` is required as both " ++ c.first ++ " and " ++ c.second ++ " by "
      ++ pattern.name ++ " at tokens " ++ span.text
  | .edit _ => file ++ ": failed to apply edits"

/-- What caused an error, where the message does not say it. -/
def MigrationError.cause? : MigrationError → Option String
  | .inject e => some e.message
  | .conflict .. => none
  | .edit e => some e.message

/-! ## §4. The pass. -/

structure Migrator where
  table : AliasTable
  indent : String := "    "
  policy : Settings.CollisionPolicy := .lastWins
  deriving Repr, DecidableEq

inductive Outcome where
  | skipped
  | converted (tokens : TokenStream) (report : FileReport)
  deriving Repr, DecidableEq

namespace Migrator

def ofSettings (s : Settings.Migrate) : Except AliasError Migrator := do
  return ⟨← AliasTable.ofSettings s, s.indent, s.collisionPolicy⟩

def collect (m : Migrator) (calls : List Invocation) : Except MigrationError Requirements :=
  calls.foldlM (fun r inv =>
    match inv.collaborator with
    | none => .ok r
    | some v =>
      match r.record m.policy v with
      | .ok recorded => .ok recorded.2
      | .error c => .error (.conflict c inv.pattern inv.span)) .empty

def convertCalls (s : TokenStream) (calls : List Invocation) : Except MigrationError TokenStream :=
  (s.apply (calls.flatMap Invocation.edits)).mapError .edit

def wire (m : Migrator) (s : TokenStream) (r : Requirements) : Except MigrationError TokenStream := do
  if r.isEmpty then return s
  let edits ← (inject s m.indent r).mapError .inject
  (s.apply edits).mapError .edit

def migrate (m : Migrator) (file : String) (s : TokenStream) : Except MigrationError Outcome := do
  if (classKeyword? s).isNone then return .skipped
  let calls := scan m.table s
  let r ← m.collect calls
  let converted ← convertCalls s calls
  let wired ← m.wire converted r
  return .converted wired.refresh (.of file s calls r)

end Migrator

end MageUplift
