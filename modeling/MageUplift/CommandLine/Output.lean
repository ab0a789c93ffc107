/-!
# What a command leaves behind

Apart from the files that it writes, a command prints a text and ends with a code.
-/

namespace MageUplift.CommandLine

structure Output where
  exit : Nat
  text : String
  failure : Option String := none
  deriving Repr, DecidableEq

def Output.failed (text reason : String) : Output := ⟨2, text, some reason⟩

end MageUplift.CommandLine
