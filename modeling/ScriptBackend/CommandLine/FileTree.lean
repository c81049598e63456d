import ScriptBackend.CommandLine.Host

/-!
Directories held in memory, as a machine for the command line. A directory is
there when some file lies below it. The working directory is the top; nothing
but directories lies outside of it.
-/
namespace ScriptBackend.CommandLine

/-- The files below the working directory, by the names that lead to them. -/
structure FileTree where
  files : List (List String × List UInt8)

namespace FileTree

/-- A place that a path leads to: below the working directory, or outside. -/
inductive Place where
  | inside (names : List String)
  | outside
deriving DecidableEq

/-- What stands at a place. -/
inductive Entry where
  | file (contents : List UInt8)
  | directory
  | nothing

def entry (tree : FileTree) : Place → Entry
  | .outside => .directory
  | .inside names =>
    match tree.files.lookup names with
    | some contents => .file contents
    | none =>
      if names.isEmpty || tree.files.any fun file => names.isPrefixOf file.1 then .directory
      else .nothing

def longestName : Nat := 255

def longestPath : Nat := 4095

/-- The place that a part of a path leads to from another place, which must be a
directory. -/
def step (tree : FileTree) (place : Place) (part : String) : Except FileFault Place :=
  match tree.entry place with
  | .file _ => .error .notDirectory
  | .nothing => .error .missing
  | .directory =>
    if longestName < (Text.utf8 part).length then .error .nameTooLong
    else if part = "" || part = "." then .ok place
    else
      match place with
      | .outside => if part = ".." then .ok .outside else .error .missing
      | .inside names =>
        if part ≠ ".." then .ok (.inside (names ++ [part]))
        else if names.isEmpty then .ok .outside
        else .ok (.inside names.dropLast)

def start (path : String) : Except FileFault (Place × List String) :=
  if path.toList.contains '\x00' then .error .zeroInPath
  else if longestPath < (Text.utf8 path).length then .error .nameTooLong
  else if path = "" then .error .missing
  else
    .ok (if path.toList.head? = some '/' then .outside else .inside [], path.splitOn "/")

def read (tree : FileTree) (path : String) : Except FileFault (List UInt8) := do
  let (place, parts) ← start path
  match tree.entry (← parts.foldlM tree.step place) with
  | .file contents => return contents
  | .directory => throw .isDirectory
  | .nothing => throw .missing

/-- Stores contents at a place, in place of what was there. -/
def put (tree : FileTree) (names : List String) (contents : List UInt8) : FileTree :=
  ⟨(names, contents) :: tree.files.filter fun file => file.1 ≠ names⟩

/-- Writes a file into a directory that is there. A path that ends in a slash
can only be one of a directory. -/
def write (tree : FileTree) (path : String) (contents : List UInt8) :
    Except FileFault FileTree := do
  let (place, parts) ← start path
  let named := (parts.reverse.dropWhile (· = "")).reverse
  match ← named.foldlM tree.step place with
  | .outside => throw .isDirectory
  | .inside names =>
    match tree.entry (.inside names) with
    | .directory => throw .isDirectory
    | _ =>
        if named.length < parts.length then throw .isDirectory else return tree.put names contents

end FileTree

/-- What a run leaves behind: the files, and the lines of the two streams, the
last one first. -/
structure Session where
  tree : FileTree
  output : List String
  errors : List String

def Session.host : Host (StateM Session) where
  read path := return (← get).tree.read path
  write path contents := do
    match (← get).tree.write path contents with
    | .error fault => return .error fault
    | .ok tree =>
      modify fun session => { session with tree := tree }
      return .ok ()
  print line := modify fun session => { session with output := line :: session.output }
  complain line := modify fun session => { session with errors := line :: session.errors }

end ScriptBackend.CommandLine
