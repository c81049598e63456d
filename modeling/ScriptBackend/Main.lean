import ScriptBackend.CommandLine.Run

/-!
The program: the command line on the files and streams of the process.
-/
namespace ScriptBackend

open CommandLine

def faultOfError : IO.Error → FileFault
  | .noFileOrDirectory .. | .noSuchThing .. => .missing
  | .inappropriateType _ 21 _ => .isDirectory
  | .inappropriateType .. => .notDirectory
  | error => .other (toString error)

def attempt {α : Type} (action : IO α) : IO (Except FileFault α) := do
  try return .ok (← action)
  catch error => return .error (faultOfError error)

def processHost : Host IO where
  read path := attempt do return (← IO.FS.readBinFile path).toList
  write path contents := attempt (IO.FS.writeBinFile path ⟨contents.toArray⟩)
  print line := IO.println line
  complain line := IO.eprintln line

end ScriptBackend

/-- Runs the command line. -/
def main (arguments : List String) : IO UInt32 :=
  ScriptBackend.CommandLine.run ScriptBackend.processHost arguments
