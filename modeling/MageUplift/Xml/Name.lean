import MageUplift.Text.CodeRange
import MageUplift.Text.Reader

/-!
# Characters and names of XML

Which characters a document may hold, and the names of elements and attributes: a local name, with or
without a qualifier and a colon in front.
-/

namespace MageUplift.Xml

open MageUplift.Text (Reader)
open MageUplift.Text.Reader

def isSpace (c : Char) : Bool := c == ' ' || c == '\t' || c == '\n' || c == '\r'

/-- Characters that a document may hold: no control characters but white space, and no noncharacters at the
end of the basic plane. -/
def isDocumentChar (c : Char) : Bool :=
  if c < ' ' then isSpace c else c.toNat != 0xFFFE && c.toNat != 0xFFFF

def nameStartRanges : List (Nat × Nat) :=
  [(0x3A, 0x3A), (0x41, 0x5A), (0x5F, 0x5F), (0x61, 0x7A), (0xC0, 0xD6), (0xD8, 0xF6), (0xF8, 0x2FF),
   (0x370, 0x37D), (0x37F, 0x1FFF), (0x200C, 0x200D), (0x2070, 0x218F), (0x2C00, 0x2FEF),
   (0x3001, 0xD7FF), (0xF900, 0xFDCF), (0xFDF0, 0xFFFD), (0x10000, 0xEFFFF)]

def isNameStart (c : Char) : Bool := Text.inRanges nameStartRanges c.toNat

def namePartRanges : List (Nat × Nat) :=
  [(0x2D, 0x2E), (0x30, 0x39), (0xB7, 0xB7), (0x300, 0x36F), (0x203F, 0x2040)]

def isNamePart (c : Char) : Bool := isNameStart c || Text.inRanges namePartRanges c.toNat

/-- The name of an element or attribute. Without a qualifier that part is empty. -/
structure QualifiedName where
  qualifier : String
  name : String
  deriving Repr, DecidableEq

/-- A name with at most one colon, both of whose parts start as a name does. Only the qualifier may be
empty. -/
def qualifiedName : Reader QualifiedName := do
  let run ← takeWhile isNamePart
  match run.span (· != ':') with
  | (name, []) =>
    guard (name.head?.any isNameStart)
    pure ⟨"", String.ofList name⟩
  | (qualifier, _ :: name) =>
    guard (qualifier.head?.all isNameStart)
    guard (name.head?.any isNameStart && !name.contains ':')
    pure ⟨String.ofList qualifier, String.ofList name⟩

def plainName : Reader (List Char) := do
  let first ← satisfy isNameStart
  let more ← takeWhile isNamePart
  pure (first :: more)

def spaces : Reader Unit := do
  let _ ← takeWhile isSpace

def upTo (mark : String) : Reader (List Char) := do
  let text ← collect do
    if ← looksAt mark then pure none else some <$> satisfy isDocumentChar
  expect mark
  pure text

end MageUplift.Xml
