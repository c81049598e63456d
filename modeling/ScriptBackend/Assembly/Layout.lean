import ScriptBackend.Assembly.Shorthand
import ScriptBackend.Options
import ScriptBackend.Table

/-!
The layout of the code: the size of every primitive, the address it is put at,
and the address of every code label. A label is bound to the next instruction
after it, behind the padding before that instruction, or to the end of the code.
-/
namespace ScriptBackend.Assembly

/-- The longest name that a frame instruction holds: its length with the zero
byte is one byte. -/
def frameNameLimit : Nat := 254

def caseLimit : Nat := 255

/-- A fault about the number of operands of a primitive. -/
def Primitive.countFault (primitive : Primitive) (line : Line) (expected : Arity) : Fault :=
  line.fault (.operandCount primitive.opcode.mnemonic expected primitive.operands.length)

/-- Checks the number of operands. A frame instruction may leave its name out, a
branch has any number of cases. -/
def Primitive.checkCount (primitive : Primitive) (line : Line) : Except Fault Unit :=
  let found := primitive.operands.length
  match primitive.opcode.format with
  | .enter =>
    if found = 2 || found = 3 then .ok ()
    else .error (primitive.countFault line (.either 2 3))
  | format =>
    match format.count? with
    | some expected =>
      if expected = found then .ok () else .error (primitive.countFault line (.exactly expected))
    | none => .ok ()

/-- The name that a frame instruction asks for: its third operand, or the
function around it when names are wanted. -/
def Primitive.wantedName (primitive : Primitive) (line : Line) (options : Options) :
    Except Fault (Option String) :=
  match primitive.operands with
  | _ :: _ :: .text name :: _ => .ok (some name)
  | _ :: _ :: operand :: _ =>
    .error (line.fault (.invalidOperand "ENTER" (.notAFrameName operand)))
  | _ => .ok (if options.includeFunctionNames then line.scope else none)

/-- The name that a frame instruction carries. An empty name is none. -/
def Primitive.frameName (primitive : Primitive) (line : Line) (options : Options) :
    Except Fault (Option String) :=
  match primitive.wantedName line options with
  | .error fault => .error fault
  | .ok none => .ok none
  | .ok (some name) =>
    if frameNameLimit < name.utf8ByteSize then
      .error (line.fault (.capacity .frameNameLength name.utf8ByteSize frameNameLimit))
    else
      .ok (if name.isEmpty then none else some name)

def Primitive.size (primitive : Primitive) (line : Line) (options : Options) :
    Except Fault Nat := do
  primitive.checkCount line
  match primitive.opcode.fixedSize? with
  | some size => return size
  | none =>
    if primitive.opcode = .enter then
      let name ← primitive.frameName line options
      return Opcode.enterSize ((name.map String.utf8ByteSize).getD 0)
    else
      let cases := primitive.operands.length
      if caseLimit < cases then .error (line.fault (.capacity .caseCount cases caseLimit))
      else return Opcode.switchSize cases

/-- Where primitives come to lie when code ends at an address: where the first
one begins, if there is one, and where the last one ends. -/
def placeAll (line : Line) (options : Options) :
    Nat → List Primitive → Except Fault (Option Nat × Nat)
  | codeEnd, [] => .ok (none, codeEnd)
  | codeEnd, primitive :: rest => do
    let size ← primitive.size line options
    let start := Page.place codeEnd size
    let (_, last) ← placeAll line options (start + size) rest
    return (some start, last)

def Line.instruction? (line : Line) : Option (String × List Operand) :=
  match line.statement.content with
  | .instruction mnemonic operands =>
    if line.segment = .code then some (mnemonic, operands) else none
  | _ => none

def Line.pushedText? (line : Line) : Option String :=
  line.instruction?.bind fun (mnemonic, operands) => Assembly.pushedText? mnemonic operands

/-- Code labels with their addresses, in the order of their definition. -/
abbrev LabelTable := Table String Nat

/-- The result of laying out the code: the labels, the address of the first
primitive of each line that holds an instruction, and the length of the code. -/
structure Layout where
  labels : LabelTable
  addresses : Array (Option Nat)
  codeLength : Nat

/-- A layout in progress: the labels that have an address, those that wait for
the next instruction, the addresses of the lines so far, and the end of the
code. -/
structure LayoutState where
  labels : LabelTable
  pending : Table String Unit
  addresses : Array (Option Nat)
  codeEnd : Nat

namespace LayoutState

def start : LayoutState :=
  ⟨Table.empty, Table.empty, #[], 0⟩

def bind (state : LayoutState) (address : Nat) : LayoutState :=
  { state with
    labels :=
      state.pending.keys.foldl (fun labels name => labels.insertNew name address) state.labels
    pending := Table.empty }

/-- Notes the label of a code line, whose name must be new. -/
def noteLabel (state : LayoutState) (symbols : Symbols) (line : Line) :
    Except Fault LayoutState :=
  match line.label with
  | none => .ok state
  | some label =>
    if symbols.contains label || state.labels.contains label || state.pending.contains label then
      .error (line.fault (.duplicateLabel label))
    else
      .ok { state with pending := state.pending.insertNew label () }

/-- Puts the instruction of a line behind the code so far. -/
def place (state : LayoutState) (symbols : Symbols) (strings : StringPages) (options : Options)
    (line : Line) : Except Fault LayoutState :=
  match line.instruction? with
  | none => .ok { state with addresses := state.addresses.push none }
  | some (mnemonic, operands) => do
    let primitives ← expand symbols strings line mnemonic operands
    match ← placeAll line options state.codeEnd primitives with
    | (some first, last) =>
      let bound := state.bind first
      return { bound with addresses := bound.addresses.push (some first), codeEnd := last }
    | (none, last) =>
      return { state with addresses := state.addresses.push none, codeEnd := last }

/-- Lays out lines in order. The literals that their instructions push are
stored on the way; what has been stored is known also when a line is at fault. -/
def addAll (symbols : Symbols) (options : Options) :
    List Line → LayoutState → StringPages → Except Fault LayoutState × StringPages
  | [], state, strings => (.ok state, strings)
  | line :: rest, state, strings =>
    match if line.segment = .code then state.noteLabel symbols line else .ok state with
    | .error fault => (.error fault, strings)
    | .ok noted =>
      let stored :=
        match line.pushedText? with
        | some text => (strings.intern text).2
        | none => strings
      match noted.place symbols stored options line with
      | .error fault => (.error fault, stored)
      | .ok next => addAll symbols options rest next stored

end LayoutState

/-- Lays out the code of a unit. Labels after the last instruction stand for the
end of the code. The string pages come back with the literals of all
instructions looked at. -/
def layoutCode (symbols : Symbols) (options : Options) (lines : List Line)
    (strings : StringPages) : Except Fault Layout × StringPages :=
  match LayoutState.addAll symbols options lines .start strings with
  | (.error fault, stored) => (.error fault, stored)
  | (.ok state, stored) =>
    let bound := state.bind state.codeEnd
    (.ok ⟨bound.labels, bound.addresses, bound.codeEnd⟩, stored)

end ScriptBackend.Assembly
