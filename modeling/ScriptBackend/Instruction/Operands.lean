import ScriptBackend.Bytes
import ScriptBackend.Instruction.Basic

/-!
The operand values of decoded instructions, and the addresses that they name. A
reading takes its operand bytes apart completely, so it cannot look past the end
of its instruction.
-/
namespace ScriptBackend

/-- The operands of an instruction by their meaning. -/
inductive OperandValues where
  | none
  | bytes (values : List UInt8)
  | word (value : UInt32)
  | float (value : Binary32)
  | native (arguments returns index : Nat)
  | enter (parameters frame : Nat) (name : Option String)
  | signed16 (value : Int)
  | unsigned16 (value : Nat)
  | relative (distance : Int)
  | call (target : Nat)
  | unsigned24 (value : Nat)
  | switch (cases : List (UInt32 × Int))
deriving DecidableEq

namespace OperandValues

/-- The name stored in a frame instruction: what stands before the first zero
byte. -/
def frameName (stored : List UInt8) : Option String :=
  if stored.isEmpty then .none
  else some (String.ofList (Text.ofUtf8 (stored.takeWhile (· ≠ 0))))

def readCases : List UInt8 → Option (List (UInt32 × Int))
  | [] => some []
  | v0 :: v1 :: v2 :: v3 :: d0 :: d1 :: rest =>
    (readCases rest).map fun cases =>
      (UInt32.ofNat (Bytes.ofLittle [v0, v1, v2, v3]), Bytes.signed16 (Bytes.ofLittle [d0, d1])) ::
        cases
  | _ => .none

/-- The values that operand bytes hold, if there are exactly as many as the
format asks for. -/
def read? : OperandFormat → List UInt8 → Option OperandValues
  | .none, [] => some .none
  | .byte, [a] => some (.bytes [a])
  | .twoBytes, [a, b] => some (.bytes [a, b])
  | .threeBytes, [a, b, c] => some (.bytes [a, b, c])
  | .word, [a, b, c, d] => some (.word (UInt32.ofNat (Bytes.ofLittle [a, b, c, d])))
  | .float, [a, b, c, d] => some (.float ⟨UInt32.ofNat (Bytes.ofLittle [a, b, c, d])⟩)
  | .native, [counts, high, low] =>
    some (.native (counts.toNat / 4) (counts.toNat % 4) (256 * high.toNat + low.toNat))
  | .enter, parameters :: f0 :: f1 :: length :: stored =>
    if stored.length = length.toNat then
      some (.enter parameters.toNat (Bytes.ofLittle [f0, f1]) (frameName stored))
    else
      .none
  | .signed16, [a, b] => some (.signed16 (Bytes.signed16 (Bytes.ofLittle [a, b])))
  | .unsigned16, [a, b] => some (.unsigned16 (Bytes.ofLittle [a, b]))
  | .relative, [a, b] => some (.relative (Bytes.signed16 (Bytes.ofLittle [a, b])))
  | .call, [a, b, c] => some (.call (Bytes.ofLittle [a, b, c]))
  | .unsigned24, [a, b, c] => some (.unsigned24 (Bytes.ofLittle [a, b, c]))
  | .switch, count :: entries =>
    (readCases entries).bind fun cases =>
      if cases.length = count.toNat then some (.switch cases) else .none
  | _, _ => .none

end OperandValues

namespace Instruction

def operands? (instruction : Instruction) : Option OperandValues :=
  OperandValues.read? instruction.opcode.format instruction.operandBytes

/-- The address at a signed distance from another. Addresses are 64-bit numbers,
so a distance beyond the beginning of the code wraps around. -/
def addressAt (base : Nat) (distance : Int) : Nat :=
  ((base + distance) % 0x10000000000000000).toNat

def jumpTarget? (instruction : Instruction) : Option Nat :=
  match instruction.operands? with
  | some (.relative distance) => some (addressAt instruction.endAddress distance)
  | _ => none

def callTarget? (instruction : Instruction) : Option Nat :=
  match instruction.operands? with
  | some (.call target) => some target
  | _ => none

/-- The values and targets of the cases of a branch. A distance counts from the
end of its own entry. -/
def switchCases (instruction : Instruction) : List (UInt32 × Nat) :=
  match instruction.operands? with
  | some (.switch cases) =>
    cases.mapIdx fun i entry =>
      (entry.1, addressAt (instruction.address + Opcode.switchSize (i + 1)) entry.2)
  | _ => []

end Instruction
end ScriptBackend
