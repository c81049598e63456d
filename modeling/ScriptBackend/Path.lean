/-!
Paths of files: parts between slashes. Empty parts and single points name
nothing of their own.
-/
namespace ScriptBackend.Path

def parts (path : String) : List String :=
  path.splitOn "/"

def isStill (part : String) : Bool :=
  part = "" || part = "."

def isAbsolute (path : String) : Bool :=
  path.toList.head? = some '/'

/-- The name that a path ends in, unless it ends by going up. -/
def fileName? (path : String) : Option String :=
  match ((parts path).filter fun part => !isStill part).getLast? with
  | some ".." => none
  | name => name

/-- A file name without its last extension. A point at the beginning begins no
extension. -/
def withoutExtension (name : String) : String :=
  let before := (name.toList.reverse.dropWhile (· ≠ '.')).drop 1
  if before.isEmpty then name else String.ofList before.reverse

/-- The directory of a file, empty for a file without one. -/
def directory (path : String) : String :=
  match (parts path).dropLast with
  | [] => ""
  | first :: rest =>
    let kept := (rest.reverse.dropWhile isStill).reverse
    if first = "" && kept.isEmpty then "/" else "/".intercalate (first :: kept)

def within (directory path : String) : String :=
  if isAbsolute path || directory = "" then path
  else if directory.toList.getLast? = some '/' then directory ++ path
  else directory ++ "/" ++ path

end ScriptBackend.Path
