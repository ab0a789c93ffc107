import MageUplift.Files.Path

/-!
# Trees of files and folders

A `Node` is a file with some data or a folder of named nodes in the byte order of the names. `files` lists
every file below a node the way a folder is walked: entries in order, the content of a folder right after
its name.

A `World` is a tree with a place in it, the working folder. Its operations follow a path part by part, as
the file system does, and say why they fail.
-/

namespace MageUplift.Files

inductive FileError where
  | notFound
  | denied
  | exists
  | notAFolder
  | isAFolder
  | nameTooLong
  /-- A path cannot hold the character that ends it. -/
  | nulInPath
  /-- The bytes of a file are not UTF-8. -/
  | notText
  | full
  | other (text : String)
  deriving Repr, DecidableEq

def FileError.message : FileError → String
  | .notFound => "No such file or directory (os error 2)"
  | .denied => "Permission denied (os error 13)"
  | .exists => "File exists (os error 17)"
  | .notAFolder => "Not a directory (os error 20)"
  | .isAFolder => "Is a directory (os error 21)"
  | .nameTooLong => "File name too long (os error 36)"
  | .nulInPath => "file name contained an unexpected NUL byte"
  | .notText => "stream did not contain valid UTF-8"
  | .full => "No space left on device (os error 28)"
  | .other text => text

/-- How many bytes a name in a folder may have. -/
def nameLimit : Nat := 255

/-- How many bytes a path may have. -/
def pathLimit : Nat := 4095

/-! ## §1. Nodes. -/

inductive Node (α : Type) where
  | file (data : α)
  | folder (entries : List (String × Node α))

/-- What stands at the end of a walk. -/
inductive Leaf where
  | file
  /-- A folder whose entries cannot be listed. -/
  | closed (reason : FileError)
  deriving Repr, DecidableEq

/-- The files and folders that a walk finds, without the data of the files. -/
abbrev Survey : Type := Node Leaf

namespace Node

variable {α : Type}

def entries : Node α → List (String × Node α)
  | .file _ => []
  | .folder es => es

mutual

def files : Node α → List (List String × α)
  | .file data => [([], data)]
  | .folder es => entryFiles es

def entryFiles : List (String × Node α) → List (List String × α)
  | [] => []
  | (name, node) :: es => node.files.map (fun (path, data) => (name :: path, data)) ++ entryFiles es

end

mutual

/-- What a walk finds of a node, where `before` is the length in bytes of the path to it with a slash behind
it. A folder whose path is too long cannot be listed. -/
def survey (before : Nat) : Node α → Survey
  | .file _ => .file .file
  | .folder es =>
    if pathLimit + 1 < before then .file (.closed .nameTooLong) else .folder (entrySurveys before es)

def entrySurveys (before : Nat) : List (String × Node α) → List (String × Survey)
  | [] => []
  | (name, node) :: es => (name, node.survey (before + name.utf8ByteSize + 1)) :: entrySurveys before es

end

def get? : Node α → List String → Option (Node α)
  | node, [] => some node
  | .folder es, name :: path => (es.lookup name).bind fun node => node.get? path
  | .file _, _ :: _ => none

/-- Puts an entry in its place: over the one of the same name, else in the order of the names. -/
def insertEntry (name : String) (node : Node α) : List (String × Node α) → List (String × Node α)
  | [] => [(name, node)]
  | (k, n) :: es =>
    if name == k then (name, node) :: es
    else if name < k then (name, node) :: (k, n) :: es
    else (k, n) :: insertEntry name node es

def put : Node α → List String → Node α → Node α
  | _, [], node => node
  | target, name :: path, node =>
    let child := (target.entries.lookup name).getD (.folder [])
    .folder (insertEntry name (child.put path node) target.entries)

/-- Follows the parts of a path from a place in a tree, and gives the names that lead from the root of the
tree to where it ends. Above the root there is the root again. -/
def follow (root : Node α) : List String → List String → Except FileError (List String)
  | place, [] => .ok place
  | place, part :: parts =>
    match root.get? place with
    | none => .error .notFound
    | some (.file _) => .error .notAFolder
    | some (.folder es) =>
      if part == "" || part == "." then root.follow place parts
      else if part == ".." then root.follow place.dropLast parts
      else if nameLimit < part.utf8ByteSize then .error .nameTooLong
      else if (es.lookup part).isSome then root.follow (place ++ [part]) parts
      else .error .notFound

end Node

namespace Survey

def isFile : Survey → Bool
  | .file .file => true
  | _ => false

def isFolder (s : Survey) : Bool := !s.isFile

end Survey

/-! ## §2. Files by their paths. -/

/-- What a file holds: its text, unless its bytes are no text; whether it may be written; and how many bytes there is
room for, if that is limited. -/
structure FileData where
  text? : Option String
  readOnly : Bool := false
  room? : Option Nat := none
  deriving Repr, DecidableEq

def FileData.hasRoom (data : FileData) (text : String) : Bool := data.room?.all (text.utf8ByteSize ≤ ·)

/-- What a file holds when a text was written to it. The old text is gone before the first byte is written, so a write
that runs out of room leaves the front of the new one. -/
def FileData.written (data : FileData) (text : String) : FileData :=
  { data with text? := if data.hasRoom text then some text
      else data.room?.bind fun room => String.fromUTF8? (text.toUTF8.extract 0 room) }

structure World where
  root : Node FileData
  place : List String

namespace World

def workingFolder (w : World) : String := "/" ++ "/".intercalate w.place

/-- Where a path begins, and its parts. -/
def start (w : World) (path : String) : Except FileError (List String × List String) :=
  if path.contains '\x00' then .error .nulInPath
  else if path.isEmpty then .error .notFound
  else if pathLimit < path.utf8ByteSize then .error .nameTooLong
  else .ok (if path.startsWith "/" then [] else w.place, pathParts path)

def node (w : World) (path : String) : Except FileError (Node FileData) := do
  let (place, parts) ← w.start path
  match w.root.get? (← w.root.follow place parts) with
  | some node => .ok node
  | none => .error .notFound

def survey (w : World) (path : String) : Except FileError Survey := do
  let node ← w.node path
  .ok (node.survey (path.utf8ByteSize + if path.endsWith "/" then 0 else 1))

def readText (w : World) (path : String) : Except FileError String := do
  match ← w.node path with
  | .folder _ => .error .isAFolder
  | .file data =>
    match data.text? with
    | some text => .ok text
    | none => .error .notText

/-- The place of the file that a path names and what it holds, if it can be opened to write to it. Its folder must
exist, and a file that is missing is made. -/
def openFile (w : World) (path : String) : Except FileError (List String × FileData) := do
  let (place, parts) ← w.start path
  let place ← w.root.follow place parts.dropLast
  let name := parts.getLast?.getD ""
  match w.root.get? place with
  | none => .error .notFound
  | some (.file _) => .error .notAFolder
  | some (.folder es) =>
    if name == "" || name == "." || name == ".." then .error .isAFolder
    else if nameLimit < name.utf8ByteSize then .error .nameTooLong
    else
      match es.lookup name with
      | some (.folder _) => .error .isAFolder
      | some (.file data) => if data.readOnly then .error .denied else .ok (place ++ [name], data)
      | none => .ok (place ++ [name], { text? := none })

def writeText (w : World) (path text : String) : Except FileError Unit × World :=
  match w.openFile path with
  | .error e => (.error e, w)
  | .ok (place, data) =>
    (if data.hasRoom text then .ok () else .error .full,
      { w with root := w.root.put place (.file (data.written text)) })

def makeFolder (w : World) (place parts : List String) : Except FileError World := do
  let inner ← w.root.follow place parts.dropLast
  match w.root.get? inner, parts.getLast? with
  | none, _ => .error .notFound
  | some (.file _), _ => .error .notAFolder
  | some (.folder _), none => .error .exists
  | some (.folder es), some name =>
    if name == "." || name == ".." then .error .exists
    else if nameLimit < name.utf8ByteSize then .error .nameTooLong
    else if (es.lookup name).isSome then .error .exists
    else .ok { w with root := w.root.put (inner ++ [name]) (.folder []) }

/-- Makes the folders that are missing along some names. A file is in the way of a folder, and the folders made before
it stay. -/
def makeMissing (w : World) (place : List String) : List String → Except FileError Unit × World
  | [] => (.ok (), w)
  | name :: names =>
    if name == ".." then w.makeMissing place.dropLast names
    else if nameLimit < name.utf8ByteSize then (.error .nameTooLong, w)
    else
      let inner := place ++ [name]
      match w.root.get? inner with
      | none => { w with root := w.root.put inner (.folder []) }.makeMissing inner names
      | some (.folder _) => w.makeMissing inner names
      | some (.file _) => (.error .exists, w)

/-- Makes a folder at a path and all folders on the way to it. The path is tried as it stands first; where something on
the way is missing, the folders above the last name are made and it is tried once more. A path that is refused is right
after all if there is a folder at it. -/
def makeFolders (w : World) (path : String) : Except FileError Unit × World :=
  match w.start path with
  | .error e => (.error e, w)
  | .ok (place, parts) =>
    let names := parts.filter (· != "")
    let orThere (w : World) : Except FileError Unit × World :=
      match w.makeFolder place names, w.node path with
      | .ok made, _ => (.ok (), made)
      | .error _, .ok (.folder _) => (.ok (), w)
      | .error e, _ => (.error e, w)
    match w.makeFolder place names with
    | .error .notFound =>
      match w.makeMissing place (names.filter (· != ".")).dropLast with
      | (.error e, w) => (.error e, w)
      | (.ok (), w) => orThere w
    | _ => orThere w

end World

end MageUplift.Files
