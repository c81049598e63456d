import ScriptBackend.Text.Bytes

/-!
What the command line needs of the machine that it runs on: files and two
streams of lines.
-/
namespace ScriptBackend.CommandLine

/-- Why a file cannot be read or written. -/
inductive FileFault where
  /-- There is no such file. -/
  | missing
  /-- A part of the path leads through a file. -/
  | notDirectory
  | isDirectory
  | nameTooLong
  /-- The path has a character with the code zero. -/
  | zeroInPath
  /-- The contents are no text. -/
  | notText
  | other (reason : String)
deriving DecidableEq

def FileFault.message : FileFault → String
  | .missing => "No such file or directory (os error 2)"
  | .notDirectory => "Not a directory (os error 20)"
  | .isDirectory => "Is a directory (os error 21)"
  | .nameTooLong => "File name too long (os error 36)"
  | .zeroInPath => "file name contained an unexpected NUL byte"
  | .notText => "stream did not contain valid UTF-8"
  | .other reason => reason

/-- A machine whose effects are those of a monad. -/
structure Host (m : Type → Type) where
  read : String → m (Except FileFault (List UInt8))
  write : String → List UInt8 → m (Except FileFault Unit)
  /-- Adds a line to the output. -/
  print : String → m Unit
  /-- Adds a line to the errors. -/
  complain : String → m Unit

/-- The text whose bytes these are. Bytes that read leniently as a text of other
bytes are none. -/
def textOfBytes? (bytes : List UInt8) : Option String :=
  let text := String.ofList (Text.ofUtf8 bytes)
  if Text.utf8 text = bytes then some text else none

def Host.readText {m : Type → Type} [Monad m] (host : Host m) (path : String) :
    m (Except FileFault String) := do
  match ← host.read path with
  | .error fault => return .error fault
  | .ok bytes =>
    match textOfBytes? bytes with
    | some text => return .ok text
    | none => return .error .notText

end ScriptBackend.CommandLine
