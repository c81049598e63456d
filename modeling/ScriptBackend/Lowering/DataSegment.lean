import ScriptBackend.Lowering.Defaults

/-!
Variables outside of frames as data segments. The words of a variable are
grouped into runs of zeros, of floats and of everything else, one directive a
run; the first carries the name of the variable as a comment.
-/
namespace ScriptBackend.Lowering

open ScriptBackend.Assembly

/-- The directives for words. -/
inductive DataKind where
  | zero
  | float
  | int
deriving DecidableEq

def DataKind.of (word : Datum) : DataKind :=
  if word.isZero then .zero
  else
    match word with
    | .float _ => .float
    | _ => .int

/-- A run of words of one kind as a directive. No section holds as many zeros as
a count cannot tell. -/
def runDirective (run : List Datum) : Directive :=
  match run.head?.map DataKind.of with
  | some .float => .floats (run.map Datum.operand)
  | some .int => .ints (run.map Datum.operand)
  | _ => .zero (UInt32.ofNatClamp run.length)

def dataDirectives (words : List Datum) : List Directive :=
  (words.splitBy fun a b => DataKind.of a == DataKind.of b).map runDirective

def variableData (setting : Setting) (declared : Variable) :
    Except CompileFault (List Datum) := do
  let words ← initialWords setting declared.ty declared.initializer
  if words.any fun word => word matches .text _ then unsupported (.textInData declared.name)
  else return words

def commentFirst (comment : String) : Code → Code
  | [] => []
  | first :: rest => commented comment first :: rest

def variableCode (setting : Setting) (id : Nat) : Except CompileFault Code := do
  let declared ← setting.declaration id
  let words ← variableData setting declared
  return commentFirst declared.name ((dataDirectives words).map Statement.ofDirective)

/-- A segment with variables; none if there are no variables. -/
def dataSegment (setting : Setting) (segment : Segment) (ids : List Nat) :
    Except CompileFault Code :=
  if ids.isEmpty then .ok []
  else do
    let data ← ids.mapM (variableCode setting)
    return .ofDirective (.segment segment) :: data.flatten

def dataSegments (setting : Setting) : Except CompileFault Code := do
  let globals ←
    match setting.program.globalsBlock with
    | some block => dataSegment setting (.globals block) setting.slots.globals
    | none => pure []
  let statics ← dataSegment setting .statics setting.slots.statics
  let arguments ← dataSegment setting .arguments setting.slots.arguments
  return globals ++ statics ++ arguments

end ScriptBackend.Lowering
