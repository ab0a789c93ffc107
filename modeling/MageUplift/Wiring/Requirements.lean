import MageUplift.Call.Invocation
import MageUplift.Settings.Basic

/-!
# What a file asks to be injected

The collaborators that the calls of one file need, one for each variable name, in the order in which the
names were first asked for. Two collaborators of one type under different names stay apart. When a name
is asked for with a second type, the collision policy decides.
-/

namespace MageUplift.Wiring

open Call (Collaborator)
open Settings (CollisionPolicy)

structure Requirements where
  entries : List Collaborator
  deriving Repr, DecidableEq

inductive Recorded where
  | added
  | duplicate
  | replaced (previous : Collaborator)
  deriving Repr, DecidableEq

structure Conflict where
  name : String
  first : String
  second : String
  deriving Repr, DecidableEq

namespace Requirements

def empty : Requirements := ⟨[]⟩

def isEmpty (r : Requirements) : Bool := r.entries.isEmpty

def get? (r : Requirements) (name : String) : Option Collaborator :=
  r.entries.find? fun e => e.name = name

def replace (r : Requirements) (v : Collaborator) : Requirements :=
  ⟨r.entries.map fun e => if e.name = v.name then v else e⟩

def record (r : Requirements) (policy : CollisionPolicy) (v : Collaborator) :
    Except Conflict (Recorded × Requirements) :=
  match r.get? v.name with
  | none => .ok (.added, ⟨r.entries ++ [v]⟩)
  | some existing =>
    if existing.type = v.type then .ok (.duplicate, r)
    else
      match policy with
      | .lastWins => .ok (.replaced existing, r.replace v)
      | .reject => .error ⟨v.name, existing.type, v.type⟩

end Requirements

end MageUplift.Wiring
