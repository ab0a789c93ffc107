import MageUplift.Text.Numeral
import MageUplift.Text.Split
import MageUplift.Xml.Name

/-!
# XML documents

`parse?` reads a document and gives its root element, or nothing when the document is not well formed or
uses a namespace qualifier that is not declared. Documents with a document type are refused, so that the
only entities are the five that every document has.
-/

namespace MageUplift.Xml

open MageUplift.Text (Reader isHexDigit numeral)
open MageUplift.Text.Reader

/-- An element by its local name and the elements right inside it. -/
inductive Element where
  | mk (name : String) (children : List Element)

namespace Element

def name : Element → String
  | .mk name _ => name

def children : Element → List Element
  | .mk _ children => children

end Element

/-! ## §1. References and texts. -/

/-- The character with a code point. One that is no character stands for the replacement character. -/
def referredChar (code : Nat) : Option Char := do
  guard (code < 0x100000000)
  let c := if code.isValidChar then Char.ofNat code else '\ufffd'
  guard (isDocumentChar c)
  pure c

def referred : Reader Char := do
  if ← skipText "#x" then
    let digits ← takeSome isHexDigit
    (referredChar (numeral 16 digits) : Option Char)
  else if ← skipText "#" then
    let digits ← takeSome Char.isDigit
    (referredChar (numeral 10 digits) : Option Char)
  else
    match String.ofList (← plainName) with
    | "quot" => pure '\x22'
    | "amp" => pure '&'
    | "apos" => pure '\x27'
    | "lt" => pure '<'
    | "gt" => pure '>'
    | _ => failure

def reference : Reader Char := do
  let c ← referred
  expect ";"
  pure c

def resolved (text : List Char) : Option (List Char) :=
  readAll? (collect do
    if ← atEnd then pure none
    else if ← skipText "&" then some <$> reference
    else some <$> next) text

/-- The value of an attribute with blanks for white space. A line ends in one blank, be it written with one
character or with two. -/
def withBlanks : List Char → List Char
  | [] => []
  | '\r' :: '\n' :: cs => ' ' :: withBlanks cs
  | c :: cs => (if isSpace c then ' ' else c) :: withBlanks cs

def characterData : Reader Unit := do
  let text ← takeSome (· != '<')
  guard (text.all isDocumentChar)
  guard (!Text.hasInfix "]]>".toList text)
  guard (resolved text).isSome

/-! ## §2. Comments and instructions. -/

def comment : Reader Unit := do
  expect "<!--"
  let text ← upTo "-->"
  guard (!Text.hasInfix ['-', '-'] text && text.getLast? != some '-')

/-- A processing instruction. The declaration of the document is none. -/
def instruction : Reader Unit := do
  guard (!(← looksAt "<?xml "))
  expect "<?"
  let _ ← plainName
  spaces
  let _ ← upTo "?>"

def miscellany : Reader Unit := do
  let _ ← collect do
    spaces
    if ← looksAt "<!--" then some <$> comment
    else if ← looksAt "<?" then some <$> instruction
    else pure none

/-! ## §3. Tags. -/

def keyValue : Reader (QualifiedName × List Char) := do
  let name ← qualifiedName
  spaces
  expect "="
  spaces
  let quote ← satisfy fun c => c == '\x22' || c == '\x27'
  let value ← takeWhile fun c => c != quote && c != '<'
  guard (value.all isDocumentChar)
  expect (String.singleton quote)
  pure (name, value)

/-- The namespaces that qualifiers stand for; the innermost declaration comes first. -/
abbrev Scope := List (String × String)

def xmlNamespace : String := "http://www.w3.org/XML/1998/namespace"

def declarationNamespace : String := "http://www.w3.org/2000/xmlns/"

/-- Sorts the attributes of a tag into declared namespaces and plain attributes. The namespaces of XML
itself cannot be declared for other qualifiers, and a qualifier is declared at most once. -/
def declare : List (QualifiedName × List Char) → Scope → List QualifiedName →
    Option (Scope × List QualifiedName)
  | [], declared, plain => some (declared, plain.reverse)
  | (key, raw) :: rest, declared, plain => do
    let value := String.ofList (← resolved (withBlanks raw))
    if key.qualifier == "xmlns" then
      guard (value != declarationNamespace)
      guard ((key.name == "xml") == (value == xmlNamespace))
      guard ((declared.lookup key.name).isNone)
      declare rest (if value == xmlNamespace then declared else (key.name, value) :: declared) plain
    else if key.name == "xmlns" then
      guard (value != xmlNamespace && value != declarationNamespace)
      declare rest declared plain
    else declare rest declared (key :: plain)

/-- The name of an attribute with its namespace instead of its qualifier, which must be declared or that of
XML itself. An attribute without a qualifier has no namespace. -/
def expandedName? (scope : Scope) (key : QualifiedName) : Option (Option String × String) :=
  if key.qualifier.isEmpty then some (none, key.name)
  else if key.qualifier == "xml" then some (some xmlNamespace, key.name)
  else (scope.lookup key.qualifier).map fun uri => (some uri, key.name)

structure OpenElement where
  name : QualifiedName
  scope : Scope
  children : List Element

/-- The opening tag of an element, and whether it closes the element at once. The qualifier of an element
must be declared, that of XML itself too. -/
def openingTag (outer : Scope) : Reader (OpenElement × Bool) := do
  expect "<"
  let name ← qualifiedName
  guard (name.qualifier != "xmlns")
  let attributes ← collect do
    let spaced := (← peek?).any isSpace
    spaces
    if (← looksAt "/") || (← looksAt ">") then pure none
    else
      guard spaced
      some <$> keyValue
  let empty ← skipText "/"
  expect ">"
  let (declared, plain) ← (declare attributes [] [] : Option (Scope × List QualifiedName))
  let scope := declared ++ outer
  guard (name.qualifier.isEmpty || (scope.lookup name.qualifier).isSome)
  let expanded ← (plain.mapM (expandedName? scope) : Option (List (Option String × String)))
  guard expanded.Nodup
  pure (⟨name, scope, []⟩, empty)

def closingTag : Reader QualifiedName := do
  expect "</"
  let name ← qualifiedName
  spaces
  expect ">"
  pure name

/-! ## §4. Elements. -/

/-- The elements that are open, the innermost first, or the root element when all are closed. -/
abbrev Progress := List OpenElement ⊕ Element

def attach (element : Element) : List OpenElement → Progress
  | [] => .inr element
  | parent :: outer => .inl ({ parent with children := element :: parent.children } :: outer)

def piece (opened : OpenElement) (outer : List OpenElement) : Reader Progress := do
  if ← looksAt "</" then
    let name ← closingTag
    guard (name == opened.name)
    pure (attach (.mk opened.name.name opened.children.reverse) outer)
  else if ← looksAt "<!--" then
    comment
    pure (.inl (opened :: outer))
  else if ← skipText "<![CDATA[" then
    let _ ← upTo "]]>"
    pure (.inl (opened :: outer))
  else if ← looksAt "<?" then
    instruction
    pure (.inl (opened :: outer))
  else if ← looksAt "<" then
    let (inner, empty) ← openingTag opened.scope
    if empty then pure (attach (.mk inner.name.name []) (opened :: outer))
    else pure (.inl (inner :: opened :: outer))
  else
    characterData
    pure (.inl (opened :: outer))

/-- Reads pieces until the root element is closed. Every piece takes at least one character. -/
def content : Nat → Progress → Reader Element
  | _, .inr root => pure root
  | 0, .inl _ => failure
  | _ + 1, .inl [] => failure
  | bound + 1, .inl (opened :: outer) => do
    let progress ← piece opened outer
    content bound progress

def rootElement : Reader Element := do
  let (root, empty) ← openingTag []
  if empty then pure (.mk root.name.name [])
  else fun cs => content (cs.length + 1) (.inl [root]) cs

/-! ## §5. Documents. -/

def declarationGap : Reader Unit := do
  if ((← peek?).any isSpace) then spaces
  else guard (← looksAt "?>")

/-- The declaration at the start of a document. Its parts come in a fixed order, and their values are not
looked at. -/
def declaration : Reader Unit := do
  expect "<?xml"
  declarationGap
  guard (← looksAt "version")
  let _ ← keyValue
  declarationGap
  if ← looksAt "encoding" then
    let _ ← keyValue
    declarationGap
  if ← looksAt "standalone" then
    let _ ← keyValue
  spaces
  expect "?>"

def document : Reader Element := do
  let _ ← skipText "\ufeff"
  if ← looksAt "<?xml " then declaration
  miscellany
  spaces
  let root ← rootElement
  miscellany
  spaces
  pure root

def parse? (text : String) : Option Element := readAll? document text.toList

end MageUplift.Xml
