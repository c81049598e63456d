import ScriptBackend.NameHash
import ScriptBackend.Opcode.Basic
import ScriptBackend.Binary32.Rounding

/-!
Finding instructions: by the hash of their name, and by the constant they push.
-/
namespace ScriptBackend.Opcode

/-- The instructions with the hashes of their names. -/
def hashes : List (UInt32 × Opcode) :=
  all.map fun opcode => (nameHash opcode.mnemonic, opcode)

def ofHash? (hash : UInt32) : Option Opcode :=
  (hashes.find? fun entry => entry.1 == hash).map Prod.snd

/-- The instruction with a given name. Only the hash of the name is compared, so
the case of letters does not matter. -/
def named? (name : String) : Option Opcode :=
  ofHash? (nameHash name)

/-- The instruction that pushes a small integer without operands. -/
def compactInt? : Int → Option Opcode
  | -1 => some .pushConstM1
  | 0 => some .pushConst0
  | 1 => some .pushConst1
  | 2 => some .pushConst2
  | 3 => some .pushConst3
  | 4 => some .pushConst4
  | 5 => some .pushConst5
  | 6 => some .pushConst6
  | 7 => some .pushConst7
  | _ => none

/-- The numbers that have a push of their own, with that push. -/
def compactFloats : List (Binary32 × Opcode) :=
  [(.ofInt (-1), .pushConstFm1), (.ofInt 0, .pushConstF0), (.ofInt 1, .pushConstF1),
    (.ofInt 2, .pushConstF2), (.ofInt 3, .pushConstF3), (.ofInt 4, .pushConstF4),
    (.ofInt 5, .pushConstF5), (.ofInt 6, .pushConstF6), (.ofInt 7, .pushConstF7)]

/-- The instruction that pushes a small whole number without operands. Negative
zero has none, since its bits are not those of zero. -/
def compactFloat? (x : Binary32) : Option Opcode :=
  (compactFloats.find? fun entry => entry.1 == x).map Prod.snd

end ScriptBackend.Opcode
