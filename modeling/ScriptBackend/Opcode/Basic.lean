/-!
The primitive instructions of the machine: their numbers, names and operand
formats. The order of the constructors is the numbering, so the byte of an
instruction is its position.
-/
namespace ScriptBackend

/-- What follows the byte of an instruction. -/
inductive OperandFormat where
  /-- Nothing. -/
  | none
  /-- One unsigned byte. -/
  | byte
  /-- Two unsigned bytes. -/
  | twoBytes
  /-- Three unsigned bytes. -/
  | threeBytes
  /-- A 32-bit integer. -/
  | word
  /-- A single-precision number. -/
  | float
  /-- Argument and return counts packed in a byte, then the native's index, high
  byte first. -/
  | native
  /-- Parameter count, frame size, and the length and bytes of an optional name. -/
  | enter
  /-- A signed 16-bit integer. -/
  | signed16
  /-- An unsigned 16-bit integer. -/
  | unsigned16
  /-- A signed 16-bit distance from the end of the instruction to a label. -/
  | relative
  /-- An absolute 24-bit code address. -/
  | call
  /-- An unsigned 24-bit integer. -/
  | unsigned24
  /-- A case count, then for each case a 32-bit value and a signed 16-bit
  distance to its label. -/
  | switch
deriving DecidableEq, Inhabited

namespace OperandFormat

/-- The number of operand bytes, unless it depends on the operands. -/
def size? : OperandFormat → Option Nat
  | none => some 0
  | byte => some 1
  | twoBytes => some 2
  | threeBytes => some 3
  | word => some 4
  | float => some 4
  | native => some 3
  | enter => .none
  | signed16 => some 2
  | unsigned16 => some 2
  | relative => some 2
  | call => some 3
  | unsigned24 => some 3
  | switch => .none

/-- The number of operands written in source, unless it may vary. -/
def count? : OperandFormat → Option Nat
  | none => some 0
  | byte => some 1
  | twoBytes => some 2
  | threeBytes => some 3
  | word => some 1
  | float => some 1
  | native => some 3
  | enter => .none
  | signed16 => some 1
  | unsigned16 => some 1
  | relative => some 1
  | call => some 1
  | unsigned24 => some 1
  | switch => .none

end OperandFormat

/-- A primitive instruction. -/
inductive Opcode where
  | nop | iadd | isub | imul | idiv | imod | inot | ineg | ieq | ine | igt | ige | ilt | ile
  | fadd | fsub | fmul | fdiv | fmod | fneg | feq | fne | fgt | fge | flt | fle | vadd | vsub | vmul
  | vdiv | vneg | iand | ior | ixor | i2f | f2i | f2v | pushConstU8 | pushConstU8U8
  | pushConstU8U8U8 | pushConstU32 | pushConstF | dup | drop | native | enter | leave | load | store
  | storeRev | loadN | storeN | arrayU8 | arrayU8Load | arrayU8Store | localU8 | localU8Load
  | localU8Store | staticU8 | staticU8Load | staticU8Store | iaddU8 | imulU8 | ioffset | ioffsetU8
  | ioffsetU8Load | ioffsetU8Store | pushConstS16 | iaddS16 | imulS16 | ioffsetS16 | ioffsetS16Load
  | ioffsetS16Store | arrayU16 | arrayU16Load | arrayU16Store | localU16 | localU16Load
  | localU16Store | staticU16 | staticU16Load | staticU16Store | globalU16 | globalU16Load
  | globalU16Store | j | jz | ieqJz | ineJz | igtJz | igeJz | iltJz | ileJz | call | globalU24
  | globalU24Load | globalU24Store | pushConstU24 | switch | string | stringhash
  | textLabelAssignString | textLabelAssignInt | textLabelAppendString | textLabelAppendInt
  | textLabelCopy | catchFault | throwFault | callindirect | pushConstM1 | pushConst0 | pushConst1
  | pushConst2 | pushConst3 | pushConst4 | pushConst5 | pushConst6 | pushConst7 | pushConstFm1
  | pushConstF0 | pushConstF1 | pushConstF2 | pushConstF3 | pushConstF4 | pushConstF5 | pushConstF6
  | pushConstF7
deriving DecidableEq, Inhabited

namespace Opcode

/-- All primitive instructions in the order of their bytes. -/
def all : List Opcode := [
  .nop, .iadd, .isub, .imul, .idiv, .imod, .inot, .ineg, .ieq, .ine, .igt, .ige, .ilt, .ile,
  .fadd, .fsub, .fmul, .fdiv, .fmod, .fneg, .feq, .fne, .fgt, .fge, .flt, .fle, .vadd, .vsub,
  .vmul, .vdiv, .vneg, .iand, .ior, .ixor, .i2f, .f2i, .f2v, .pushConstU8, .pushConstU8U8,
  .pushConstU8U8U8, .pushConstU32, .pushConstF, .dup, .drop, .native, .enter, .leave, .load,
  .store, .storeRev, .loadN, .storeN, .arrayU8, .arrayU8Load, .arrayU8Store, .localU8,
  .localU8Load, .localU8Store, .staticU8, .staticU8Load, .staticU8Store, .iaddU8, .imulU8,
  .ioffset, .ioffsetU8, .ioffsetU8Load, .ioffsetU8Store, .pushConstS16, .iaddS16, .imulS16,
  .ioffsetS16, .ioffsetS16Load, .ioffsetS16Store, .arrayU16, .arrayU16Load, .arrayU16Store,
  .localU16, .localU16Load, .localU16Store, .staticU16, .staticU16Load, .staticU16Store,
  .globalU16, .globalU16Load, .globalU16Store, .j, .jz, .ieqJz, .ineJz, .igtJz, .igeJz, .iltJz,
  .ileJz, .call, .globalU24, .globalU24Load, .globalU24Store, .pushConstU24, .switch, .string,
  .stringhash, .textLabelAssignString, .textLabelAssignInt, .textLabelAppendString,
  .textLabelAppendInt, .textLabelCopy, .catchFault, .throwFault, .callindirect, .pushConstM1,
  .pushConst0, .pushConst1, .pushConst2, .pushConst3, .pushConst4, .pushConst5, .pushConst6,
  .pushConst7, .pushConstFm1, .pushConstF0, .pushConstF1, .pushConstF2, .pushConstF3,
  .pushConstF4, .pushConstF5, .pushConstF6, .pushConstF7]

def toByte (opcode : Opcode) : UInt8 :=
  UInt8.ofNat opcode.ctorIdx

def table : Array Opcode :=
  all.toArray

/-- The instruction that a byte begins, if there is one. -/
def ofByte? (byte : UInt8) : Option Opcode :=
  table[byte.toNat]?

def mnemonic : Opcode → String
  | nop => "NOP"
  | iadd => "IADD"
  | isub => "ISUB"
  | imul => "IMUL"
  | idiv => "IDIV"
  | imod => "IMOD"
  | inot => "INOT"
  | ineg => "INEG"
  | ieq => "IEQ"
  | ine => "INE"
  | igt => "IGT"
  | ige => "IGE"
  | ilt => "ILT"
  | ile => "ILE"
  | fadd => "FADD"
  | fsub => "FSUB"
  | fmul => "FMUL"
  | fdiv => "FDIV"
  | fmod => "FMOD"
  | fneg => "FNEG"
  | feq => "FEQ"
  | fne => "FNE"
  | fgt => "FGT"
  | fge => "FGE"
  | flt => "FLT"
  | fle => "FLE"
  | vadd => "VADD"
  | vsub => "VSUB"
  | vmul => "VMUL"
  | vdiv => "VDIV"
  | vneg => "VNEG"
  | iand => "IAND"
  | ior => "IOR"
  | ixor => "IXOR"
  | i2f => "I2F"
  | f2i => "F2I"
  | f2v => "F2V"
  | pushConstU8 => "PUSH_CONST_U8"
  | pushConstU8U8 => "PUSH_CONST_U8_U8"
  | pushConstU8U8U8 => "PUSH_CONST_U8_U8_U8"
  | pushConstU32 => "PUSH_CONST_U32"
  | pushConstF => "PUSH_CONST_F"
  | dup => "DUP"
  | drop => "DROP"
  | native => "NATIVE"
  | enter => "ENTER"
  | leave => "LEAVE"
  | load => "LOAD"
  | store => "STORE"
  | storeRev => "STORE_REV"
  | loadN => "LOAD_N"
  | storeN => "STORE_N"
  | arrayU8 => "ARRAY_U8"
  | arrayU8Load => "ARRAY_U8_LOAD"
  | arrayU8Store => "ARRAY_U8_STORE"
  | localU8 => "LOCAL_U8"
  | localU8Load => "LOCAL_U8_LOAD"
  | localU8Store => "LOCAL_U8_STORE"
  | staticU8 => "STATIC_U8"
  | staticU8Load => "STATIC_U8_LOAD"
  | staticU8Store => "STATIC_U8_STORE"
  | iaddU8 => "IADD_U8"
  | imulU8 => "IMUL_U8"
  | ioffset => "IOFFSET"
  | ioffsetU8 => "IOFFSET_U8"
  | ioffsetU8Load => "IOFFSET_U8_LOAD"
  | ioffsetU8Store => "IOFFSET_U8_STORE"
  | pushConstS16 => "PUSH_CONST_S16"
  | iaddS16 => "IADD_S16"
  | imulS16 => "IMUL_S16"
  | ioffsetS16 => "IOFFSET_S16"
  | ioffsetS16Load => "IOFFSET_S16_LOAD"
  | ioffsetS16Store => "IOFFSET_S16_STORE"
  | arrayU16 => "ARRAY_U16"
  | arrayU16Load => "ARRAY_U16_LOAD"
  | arrayU16Store => "ARRAY_U16_STORE"
  | localU16 => "LOCAL_U16"
  | localU16Load => "LOCAL_U16_LOAD"
  | localU16Store => "LOCAL_U16_STORE"
  | staticU16 => "STATIC_U16"
  | staticU16Load => "STATIC_U16_LOAD"
  | staticU16Store => "STATIC_U16_STORE"
  | globalU16 => "GLOBAL_U16"
  | globalU16Load => "GLOBAL_U16_LOAD"
  | globalU16Store => "GLOBAL_U16_STORE"
  | j => "J"
  | jz => "JZ"
  | ieqJz => "IEQ_JZ"
  | ineJz => "INE_JZ"
  | igtJz => "IGT_JZ"
  | igeJz => "IGE_JZ"
  | iltJz => "ILT_JZ"
  | ileJz => "ILE_JZ"
  | call => "CALL"
  | globalU24 => "GLOBAL_U24"
  | globalU24Load => "GLOBAL_U24_LOAD"
  | globalU24Store => "GLOBAL_U24_STORE"
  | pushConstU24 => "PUSH_CONST_U24"
  | switch => "SWITCH"
  | string => "STRING"
  | stringhash => "STRINGHASH"
  | textLabelAssignString => "TEXT_LABEL_ASSIGN_STRING"
  | textLabelAssignInt => "TEXT_LABEL_ASSIGN_INT"
  | textLabelAppendString => "TEXT_LABEL_APPEND_STRING"
  | textLabelAppendInt => "TEXT_LABEL_APPEND_INT"
  | textLabelCopy => "TEXT_LABEL_COPY"
  | catchFault => "CATCH"
  | throwFault => "THROW"
  | callindirect => "CALLINDIRECT"
  | pushConstM1 => "PUSH_CONST_M1"
  | pushConst0 => "PUSH_CONST_0"
  | pushConst1 => "PUSH_CONST_1"
  | pushConst2 => "PUSH_CONST_2"
  | pushConst3 => "PUSH_CONST_3"
  | pushConst4 => "PUSH_CONST_4"
  | pushConst5 => "PUSH_CONST_5"
  | pushConst6 => "PUSH_CONST_6"
  | pushConst7 => "PUSH_CONST_7"
  | pushConstFm1 => "PUSH_CONST_FM1"
  | pushConstF0 => "PUSH_CONST_F0"
  | pushConstF1 => "PUSH_CONST_F1"
  | pushConstF2 => "PUSH_CONST_F2"
  | pushConstF3 => "PUSH_CONST_F3"
  | pushConstF4 => "PUSH_CONST_F4"
  | pushConstF5 => "PUSH_CONST_F5"
  | pushConstF6 => "PUSH_CONST_F6"
  | pushConstF7 => "PUSH_CONST_F7"

def format : Opcode → OperandFormat
  | pushConstU8 | arrayU8 | arrayU8Load | arrayU8Store | localU8 | localU8Load | localU8Store |
  staticU8 | staticU8Load | staticU8Store | iaddU8 | imulU8 | ioffsetU8 | ioffsetU8Load |
  ioffsetU8Store | textLabelAssignString | textLabelAssignInt | textLabelAppendString |
  textLabelAppendInt => .byte
  | pushConstU8U8 | leave => .twoBytes
  | pushConstU8U8U8 => .threeBytes
  | pushConstU32 => .word
  | pushConstF => .float
  | native => .native
  | enter => .enter
  | pushConstS16 | iaddS16 | imulS16 | ioffsetS16 | ioffsetS16Load | ioffsetS16Store => .signed16
  | arrayU16 | arrayU16Load | arrayU16Store | localU16 | localU16Load | localU16Store | staticU16
  | staticU16Load | staticU16Store | globalU16 | globalU16Load | globalU16Store => .unsigned16
  | j | jz | ieqJz | ineJz | igtJz | igeJz | iltJz | ileJz => .relative
  | call => .call
  | globalU24 | globalU24Load | globalU24Store | pushConstU24 => .unsigned24
  | switch => .switch
  | _ => .none

/-- The size of an instruction with its opcode byte, unless it depends on the
operands. -/
def fixedSize? (opcode : Opcode) : Option Nat :=
  opcode.format.size?.map (· + 1)

/-- The size of an instruction that opens a frame under a name of `length`
bytes. A name is followed by a zero byte; no name takes no room. -/
def enterSize (length : Nat) : Nat :=
  5 + if length = 0 then 0 else length + 1

/-- The size of an instruction that branches over `count` cases. -/
def switchSize (count : Nat) : Nat :=
  2 + 6 * count

/-- Whether an instruction jumps to a label by distance. -/
def isJump (opcode : Opcode) : Bool :=
  opcode.format = .relative

end Opcode
end ScriptBackend
