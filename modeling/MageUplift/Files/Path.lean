import MageUplift.Text.Split

/-!
# Paths

A path is a text whose parts are separated by slashes. Empty parts and parts that are a single dot name
nothing; a part of two dots names the folder above.
-/

namespace MageUplift.Files

def pathParts (path : String) : List String := (Text.split '/' path.toList).map String.ofList

/-- A path inside another. An absolute path stands for itself, and no second slash is written after one
at the end of the folder. -/
def joinPath (folder path : String) : String :=
  if path.startsWith "/" || folder.isEmpty then path
  else if folder.endsWith "/" then folder ++ path
  else folder ++ "/" ++ path

def fileName? (path : String) : Option String :=
  match ((pathParts path).filter fun part => part != "" && part != ".").getLast? with
  | some ".." => none
  | last => last

/-- A file name cut at its last dot. A dot in front of the name does not count. -/
def splitExtension (name : String) : String × Option String :=
  let reversed := name.toList.reverse
  match Text.splitOnce? '.' reversed with
  | some (_, []) | none => (name, none)
  | some (after, before) => (String.ofList before.reverse, some (String.ofList after.reverse))

def extension? (path : String) : Option String := (fileName? path).bind fun name => (splitExtension name).2

end MageUplift.Files
