import ScriptBackend.Opcode.Lookup
import ScriptBackend.Text.Digits

/-!
Instructions cut out of code bytes. The size of an instruction follows from its
first byte, or for the two variable formats from one operand byte; an
instruction is whole or it is a fault.
-/
namespace ScriptBackend

/-- Why no instruction can be read at an address. -/
inductive DecodeFault where
  /-- The address is not inside the code. -/
  | outOfBounds (address : Nat)
  /-- The byte begins no instruction. -/
  | unknownOpcode (byte : UInt8) (address : Nat)
  /-- The code ends inside the instruction. -/
  | truncated (opcode : Opcode) (address : Nat)
deriving DecidableEq

def DecodeFault.message : DecodeFault → String
  | .outOfBounds position => "Instruction address " ++ Text.decimal position ++ " out of bounds"
  | .unknownOpcode byte position =>
    "Unknown opcode 0x" ++ Text.hexLower 2 byte.toNat ++ " at " ++ Text.address position
  | .truncated opcode position => "Truncated " ++ opcode.mnemonic ++ " at " ++ Text.address position

/-- An instruction of packed code: where it begins and the bytes after its
opcode. -/
structure Instruction where
  address : Nat
  opcode : Opcode
  operandBytes : List UInt8
deriving DecidableEq

namespace Instruction

/-- The size of an instruction with a given opcode that `rest` follows. A frame
instruction tells the length of its name in its fourth operand byte, a branch
the number of its cases in the first. -/
def size? (opcode : Opcode) (rest : List UInt8) : Option Nat :=
  match opcode.fixedSize? with
  | some size => some size
  | none =>
    if opcode = .enter then rest[3]?.map (5 + ·.toNat)
    else rest[0]?.map (Opcode.switchSize ·.toNat)

def decodeFirst (address : Nat) (bytes : List UInt8) : Except DecodeFault Instruction :=
  match bytes with
  | [] => .error (.outOfBounds address)
  | byte :: rest =>
    match Opcode.ofByte? byte with
    | none => .error (.unknownOpcode byte address)
    | some opcode =>
      match size? opcode rest with
      | none => .error (.truncated opcode address)
      | some size =>
        let operandBytes := rest.take (size - 1)
        if operandBytes.length < size - 1 then .error (.truncated opcode address)
        else .ok ⟨address, opcode, operandBytes⟩

def decodeAt (code : List UInt8) (address : Nat) : Except DecodeFault Instruction :=
  decodeFirst address (code.drop address)

def bytes (instruction : Instruction) : List UInt8 :=
  instruction.opcode.toByte :: instruction.operandBytes

def size (instruction : Instruction) : Nat :=
  instruction.operandBytes.length + 1

def endAddress (instruction : Instruction) : Nat :=
  instruction.address + instruction.size

end Instruction

def instructionSizeAt (code : List UInt8) (address : Nat) : Except DecodeFault Nat :=
  (Instruction.decodeAt code address).map Instruction.size

end ScriptBackend
