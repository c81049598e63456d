import ScriptBackend.Instruction.Operands
import ScriptBackend.Binary32.Decimal

/-!
The listing of code: one line for each instruction with its address, its first
bytes, its name and its operands, and the walk through code that finds the
instructions.
-/
namespace ScriptBackend

namespace Instruction

def commaSeparated (parts : List String) : String :=
  String.intercalate ", " parts

def operandText (instruction : Instruction) : String :=
  match instruction.operands? with
  | some (.bytes values) => " " ++ commaSeparated (values.map fun value => Text.decimal value.toNat)
  | some (.word value) => " " ++ Text.signedDecimal value.toInt32.toInt
  | some (.float value) => " " ++ value.text
  | some (.native arguments returns index) =>
    " " ++ commaSeparated [Text.decimal arguments, Text.decimal returns, Text.decimal index]
  | some (.enter parameters frame name) =>
    let quoted := name.toList.map fun text => "'" ++ text ++ "'"
    " " ++ commaSeparated (Text.decimal parameters :: Text.decimal frame :: quoted)
  | some (.signed16 value) => " " ++ Text.signedDecimal value
  | some (.unsigned16 value) => " " ++ Text.decimal value
  | some (.relative distance) =>
    " " ++ Text.address (addressAt instruction.endAddress distance)
  | some (.call target) => " " ++ Text.address target
  | some (.unsigned24 value) => " " ++ Text.address value
  | some (.switch []) => ""
  | some (.switch _) =>
    " " ++ commaSeparated (instruction.switchCases.map fun entry =>
      Text.decimal entry.1.toNat ++ ":" ++ Text.address entry.2)
  | some .none => ""
  | none => ""

/-- The line of a listing: at most eight bytes are shown. -/
def listing (instruction : Instruction) : String :=
  let shown := (instruction.bytes.take 8).map fun byte => Text.hexUpper 2 byte.toNat ++ " "
  let more := if 8 < instruction.size then "... " else ""
  Text.address instruction.address ++ " : " ++ String.join shown ++ more ++
    instruction.opcode.mnemonic ++ instruction.operandText

end Instruction

/-- The instructions of a piece of code, up to the fault at which the walk ends,
if it does. -/
structure Disassembly where
  instructions : List Instruction
  fault : Option DecodeFault
deriving DecidableEq

namespace Disassembly

/-- Walks through the code from an address on. `found` holds the instructions
before it, the last one first. -/
def walk (address : Nat) (code : List UInt8) (found : List Instruction) : Disassembly :=
  if _h : code.isEmpty then
    ⟨found.reverse, none⟩
  else
    match Instruction.decodeFirst address code with
    | .error fault => ⟨found.reverse, some fault⟩
    | .ok instruction =>
      walk instruction.endAddress (code.drop instruction.size) (instruction :: found)
termination_by code.length
decreasing_by
  cases code with
  | nil => simp at _h
  | cons => simp only [Instruction.size, List.length_drop, List.length_cons]; omega

/-- The instructions of a piece of code from its beginning. -/
def ofCode (code : List UInt8) : Disassembly :=
  walk 0 code []

end Disassembly
end ScriptBackend
