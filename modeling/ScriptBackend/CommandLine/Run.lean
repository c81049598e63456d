import ScriptBackend.Assembly.Unit
import ScriptBackend.BuildConfig
import ScriptBackend.CommandLine.Arguments
import ScriptBackend.CommandLine.Host
import ScriptBackend.Instruction.Listing
import ScriptBackend.NativeDatabase.Document

/-!
A run of the command line: the configuration and the natives are read, then the
input is assembled and the script is written. The first failure ends the run
with one line about it.
-/
namespace ScriptBackend.CommandLine

variable {m : Type → Type} [Monad m]

/-- What may fail, with the line that tells of the failure. -/
abbrev Attempt (m : Type → Type) := ExceptT String m

def orFail {ε α : Type} (line : ε → String) (result : Except ε α) : Attempt m α :=
  match result with
  | .ok value => return value
  | .error fault => throw (line fault)

/-- Reads the configuration. The path of a database in it starts from the
directory of the file. -/
def readConfig (host : Host m) : Option String → Attempt m BuildConfig
  | none => return BuildConfig.default
  | some path => do
    let text ← orFail (fun fault : FileFault =>
      "Error: Failed to read config: " ++ path ++ ": " ++ fault.message) (← host.readText path)
    match BuildConfig.ofToml? text with
    | none => throw "Error: Invalid config: expected a table of settings"
    | some config =>
      return { config with database := config.database.map (Path.within (Path.directory path)) }

def readNatives (host : Host m) : Option String → Attempt m NativeDatabase
  | none => return NativeDatabase.empty
  | some path => do
    let text ← orFail (fun fault : FileFault =>
      "Error: Failed to read native database: " ++ path ++ ": " ++ fault.message)
      (← host.readText path)
    orFail (fun fault : DatabaseFault => "Error: " ++ fault.message) (NativeDatabase.ofToml text)

/-- Prints the instructions of a script, up to a fault in its code. -/
def printListing (host : Host m) (script : Script) : m Unit := do
  let disassembly := Disassembly.ofCode script.code
  disassembly.instructions.forM fun instruction => host.print instruction.listing
  disassembly.fault.forM fun fault => host.complain ("Listing stopped: " ++ fault.message)

/-- Does a job. A database that the user names comes before that of the
configuration. -/
def Job.perform (host : Host m) (job : Job) : Attempt m Unit := do
  let config ← readConfig host job.config
  let natives ← readNatives host (job.natives.or config.database)
  if job.verbose then host.print ("Assembling " ++ job.input ++ " -> " ++ job.output)
  let source ← orFail (fun fault : FileFault =>
    "Error reading '" ++ job.input ++ "': " ++ fault.message) (← host.readText job.input)
  let script ← orFail (fun fault : Assembly.Fault => job.input ++ ": " ++ fault.message)
    (Assembly.assembleText natives config.options source)
  orFail (fun fault : FileFault => "Error writing '" ++ job.output ++ "': " ++ fault.message)
    (← host.write job.output script.flat)
  if job.verbose then host.print script.summary
  if job.listing then (printListing host script : m Unit)

/-- Runs the program on its arguments and gives the exit code. -/
def run (host : Host m) (arguments : List String) : m UInt32 := do
  match Job.ofArguments arguments with
  | .error refusal =>
    refusal.message?.forM host.complain
    if refusal.showsUsage then usage.forM host.print
    return refusal.exitCode
  | .ok job =>
    match ← (job.perform host).run with
    | .ok () => return 0
    | .error line =>
      host.complain line
      return 1

end ScriptBackend.CommandLine
