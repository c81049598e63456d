import ScriptBackend.Assembly.Symbols
import ScriptBackend.Opcode.Lookup
import ScriptBackend.StringPages

/-!
Shorthands: mnemonics that stand for a short sequence of primitive instructions.
Which sequence it is depends on the value of the operand, so that every operand
takes the narrowest form that holds it; it never depends on where code labels
come to lie.
-/
namespace ScriptBackend.Assembly

/-- A primitive instruction whose operands may still be symbolic. -/
structure Primitive where
  opcode : Opcode
  operands : List Operand
deriving DecidableEq

def Primitive.ofInt (opcode : Opcode) (value : Int) : Primitive :=
  ⟨opcode, [.int (Int64.ofInt value)]⟩

/-- How a shorthand chooses its primitives. -/
inductive Rule where
  /-- One push for each operand. -/
  | pushConstants
  /-- The offset of a literal in the string pages, made a string. -/
  | pushText
  /-- An index of 8 or 16 bits. -/
  | index (narrow wide : Opcode)
  /-- The id of a global, of 16 or 24 bits. -/
  | globalId (narrow wide : Opcode)
  /-- An immediate operand of 8 unsigned or 16 signed bits; beyond those a push
  before instructions without operands. -/
  | immediate (narrow wide : Opcode) (general : List Opcode)
deriving DecidableEq

/-- A shorthand with its name. -/
structure Shorthand where
  mnemonic : String
  rule : Rule
deriving DecidableEq

namespace Shorthand

def all : List Shorthand := [
  ⟨"PUSH_CONST", .pushConstants⟩,
  ⟨"PUSH_STRING", .pushText⟩,
  ⟨"LOCAL", .index .localU8 .localU16⟩,
  ⟨"LOCAL_LOAD", .index .localU8Load .localU16Load⟩,
  ⟨"LOCAL_STORE", .index .localU8Store .localU16Store⟩,
  ⟨"STATIC", .index .staticU8 .staticU16⟩,
  ⟨"STATIC_LOAD", .index .staticU8Load .staticU16Load⟩,
  ⟨"STATIC_STORE", .index .staticU8Store .staticU16Store⟩,
  ⟨"GLOBAL", .globalId .globalU16 .globalU24⟩,
  ⟨"GLOBAL_LOAD", .globalId .globalU16Load .globalU24Load⟩,
  ⟨"GLOBAL_STORE", .globalId .globalU16Store .globalU24Store⟩,
  ⟨"ARRAY", .index .arrayU8 .arrayU16⟩,
  ⟨"ARRAY_LOAD", .index .arrayU8Load .arrayU16Load⟩,
  ⟨"ARRAY_STORE", .index .arrayU8Store .arrayU16Store⟩,
  ⟨"IOFFSET_CONST", .immediate .ioffsetU8 .ioffsetS16 [.ioffset]⟩,
  ⟨"IOFFSET_CONST_LOAD", .immediate .ioffsetU8Load .ioffsetS16Load [.ioffset, .load]⟩,
  ⟨"IOFFSET_CONST_STORE", .immediate .ioffsetU8Store .ioffsetS16Store [.ioffset, .store]⟩,
  ⟨"IADD_CONST", .immediate .iaddU8 .iaddS16 [.iadd]⟩,
  ⟨"IMUL_CONST", .immediate .imulU8 .imulS16 [.imul]⟩]

def hashes : List (UInt32 × Shorthand) :=
  all.map fun shorthand => (nameHash shorthand.mnemonic, shorthand)

/-- The shorthand with a given name. As for primitives only the hash of the name
is compared. -/
def named? (name : String) : Option Shorthand :=
  let hash := nameHash name
  (hashes.find? fun entry => entry.1 == hash).map Prod.snd

end Shorthand

/-- An instruction to expand: its line, its mnemonic, and what is known of names
and literals. -/
structure Expansion where
  line : Line
  mnemonic : String
  symbols : Symbols
  strings : StringPages

namespace Expansion

def fault {α : Type} (expansion : Expansion) (cause : Cause) : Except Fault α :=
  .error (expansion.line.fault cause)

def single (expansion : Expansion) : List Operand → Except Fault Operand
  | [operand] => .ok operand
  | operands => expansion.fault (.operandCount expansion.mnemonic (.exactly 1) operands.length)

/-- An integer that must be known before the code is laid out. -/
def integer (expansion : Expansion) (operand : Operand) : Except Fault Int :=
  match expansion.symbols.intOperand expansion.line operand with
  | .error fault => .error fault
  | .ok (some value) => .ok value
  | .ok none => expansion.fault (.undefinedLabel operand.render)

def pushInt (expansion : Expansion) (value : Int) : Except Fault Primitive :=
  match Opcode.compactInt? value with
  | some opcode => .ok ⟨opcode, []⟩
  | none =>
    if 0 ≤ value && value ≤ 0xFF then .ok (.ofInt .pushConstU8 value)
    else if -0x8000 ≤ value && value ≤ 0x7FFF then .ok (.ofInt .pushConstS16 value)
    else if 0 ≤ value && value ≤ 0xFFFFFF then .ok (.ofInt .pushConstU24 value)
    else if -0x80000000 ≤ value && value < 0x100000000 then .ok (.ofInt .pushConstU32 value)
    else expansion.fault (.capacity .integerConstant value 0xFFFFFFFF)

/-- The shortest push of a single-precision number. -/
def pushFloat (value : Binary32) : Primitive :=
  match Opcode.compactFloat? value with
  | some opcode => ⟨opcode, []⟩
  | none => ⟨.pushConstF, [.float value]⟩

/-- The push of one operand. A name without a value is a code label, whose
address is always pushed with 24 bits. -/
def pushOperand (expansion : Expansion) (operand : Operand) : Except Fault Primitive :=
  match operand with
  | .int value => expansion.pushInt value.toInt
  | .float value => .ok (pushFloat value)
  | .sizeOf _ => do expansion.pushInt (← expansion.integer operand)
  | .name name =>
    match expansion.symbols.value? (expansion.line.qualify name) with
    | some (.int value) => expansion.pushInt value
    | some (.float value) => .ok (pushFloat value)
    | none => .ok ⟨.pushConstU24, [operand]⟩
  | operand => expansion.fault (.invalidOperand expansion.mnemonic (.notPushable operand))

def pushOperands (expansion : Expansion) : List Operand → Except Fault (List Primitive)
  | [] => .ok []
  | operand :: rest => do
    let first ← expansion.pushOperand operand
    let others ← expansion.pushOperands rest
    return first :: others

/-- The narrower of two instructions that holds an unsigned value. -/
def unsigned (expansion : Expansion) (operands : List Operand) (narrow wide : Opcode)
    (narrowLimit wideLimit : Nat) (what : Quantity) : Except Fault (List Primitive) := do
  let value ← expansion.integer (← expansion.single operands)
  if 0 ≤ value && value ≤ narrowLimit then return [.ofInt narrow value]
  else if 0 ≤ value && value ≤ wideLimit then return [.ofInt wide value]
  else expansion.fault (.capacity what value wideLimit)

/-- An instruction with an immediate operand, or its general form. -/
def immediate (expansion : Expansion) (operands : List Operand) (narrow wide : Opcode)
    (general : List Opcode) : Except Fault (List Primitive) := do
  let value ← expansion.integer (← expansion.single operands)
  if 0 ≤ value && value ≤ 0xFF then return [.ofInt narrow value]
  else if -0x8000 ≤ value && value ≤ 0x7FFF then return [.ofInt wide value]
  else
    let push ← expansion.pushInt value
    return push :: general.map fun opcode => ⟨opcode, []⟩

/-- The push of a literal. Literals are stored before their instruction is
expanded, so only one that is too long has no offset. -/
def pushText (expansion : Expansion) (operands : List Operand) :
    Except Fault (List Primitive) := do
  match ← expansion.single operands with
  | .text text =>
    match expansion.strings.offset? text with
    | some offset =>
      let push ← expansion.pushInt offset
      return [push, ⟨.string, []⟩]
    | none => expansion.fault (.capacity .textLength text.utf8ByteSize StringPages.maxLength)
  | operand => expansion.fault (.invalidOperand expansion.mnemonic (.notAText operand))

def apply (expansion : Expansion) (rule : Rule) (operands : List Operand) :
    Except Fault (List Primitive) :=
  match rule with
  | .pushConstants =>
    if operands.isEmpty then
      expansion.fault (.operandCount expansion.mnemonic (.atLeast 1) 0)
    else
      expansion.pushOperands operands
  | .pushText => expansion.pushText operands
  | .index narrow wide => expansion.unsigned operands narrow wide 0xFF 0xFFFF .index
  | .globalId narrow wide => expansion.unsigned operands narrow wide 0xFFFF 0xFFFFFF .globalId
  | .immediate narrow wide general => expansion.immediate operands narrow wide general

end Expansion

/-- The primitives of an instruction. A primitive instruction goes before a
shorthand of the same name hash. -/
def expand (symbols : Symbols) (strings : StringPages) (line : Line) (mnemonic : String)
    (operands : List Operand) : Except Fault (List Primitive) :=
  match Opcode.named? mnemonic with
  | some opcode => .ok [⟨opcode, operands⟩]
  | none =>
    match Shorthand.named? mnemonic with
    | some shorthand => Expansion.apply ⟨line, mnemonic, symbols, strings⟩ shorthand.rule operands
    | none => .error (line.fault (.unknownInstruction mnemonic))

def pushedText? (mnemonic : String) (operands : List Operand) : Option String :=
  match operands with
  | [.text text] =>
    match Opcode.named? mnemonic, Shorthand.named? mnemonic with
    | none, some shorthand => if shorthand.rule = .pushText then some text else none
    | _, _ => none
  | _ => none

end ScriptBackend.Assembly
