import ScriptBackend.Path

/-!
The arguments of the command line: one input file, and options that may come
before and after it.
-/
namespace ScriptBackend.CommandLine

/-- What the user asks for. -/
structure Job where
  input : String
  output : String
  natives : Option String
  config : Option String
  listing : Bool
  verbose : Bool
deriving DecidableEq

/-- The job before any argument is read. -/
def Job.blank : Job := ⟨"", "", none, none, false, false⟩

/-- Why arguments give no job. -/
inductive Refusal where
  /-- There are no arguments. -/
  | noArguments
  /-- The user asks how to use the program. -/
  | help
  | missingValue (option : String)
  | unknownOption (option : String)
  | severalInputs
  | noInput
  /-- The input has no name that the output could take. -/
  | unnamedInput
deriving DecidableEq

namespace Refusal

def message? : Refusal → Option String
  | .noArguments | .help => none
  | .missingValue option => some ("Error: " ++ option ++ " requires a value")
  | .unknownOption option => some ("Error: Unknown option '" ++ option ++ "'")
  | .severalInputs => some "Error: Multiple input files specified"
  | .noInput => some "Error: No input file specified"
  | .unnamedInput => some "Error: Invalid input filename"

def showsUsage : Refusal → Bool
  | .noArguments | .help | .unknownOption _ | .noInput => true
  | .missingValue _ | .severalInputs | .unnamedInput => false

/-- The exit code. Only to ask for help is no failure. -/
def exitCode : Refusal → UInt32
  | .help => 0
  | _ => 1

end Refusal

def usage : List String := [
  "Usage: scforge [options] <input.scasm>",
  "",
  "Options:",
  "  -o, --output <file>    Output filename (default: input.sco)",
  "  --natives <file>       Native database (TOML)",
  "  --config <file>        Build configuration (TOML)",
  "  --listing              Print the assembled instructions",
  "  -v, --verbose          Verbose output",
  "  -h, --help             Show this help message"]

/-- Reads arguments one after the other. A later value of an option replaces an
earlier one. -/
def Job.read (job : Job) : List String → Except Refusal Job
  | [] => .ok job
  | argument :: rest =>
    let valued (set : String → Job) : Except Refusal Job :=
      match rest with
      | [] => .error (.missingValue argument)
      | value :: rest => (set value).read rest
    if argument = "-o" || argument = "--output" then valued fun path => { job with output := path }
    else if argument = "--natives" then valued fun path => { job with natives := some path }
    else if argument = "--config" then valued fun path => { job with config := some path }
    else if argument = "--listing" then { job with listing := true }.read rest
    else if argument = "-v" || argument = "--verbose" then { job with verbose := true }.read rest
    else if argument = "-h" || argument = "--help" then .error .help
    else if argument.toList.head? = some '-' then .error (.unknownOption argument)
    else if job.input = "" then { job with input := argument }.read rest
    else .error .severalInputs

/-- Names the output after the input where the user does not name it. -/
def Job.withOutput (job : Job) : Except Refusal Job :=
  if job.output ≠ "" then .ok job
  else
    match Path.fileName? job.input with
    | none => .error .unnamedInput
    | some name => .ok { job with output := Path.withoutExtension name ++ ".sco" }

def Job.ofArguments (arguments : List String) : Except Refusal Job := do
  if arguments.isEmpty then .error .noArguments
  let job ← Job.blank.read arguments
  if job.input = "" then .error .noInput
  job.withOutput

end ScriptBackend.CommandLine
