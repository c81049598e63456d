import ScriptBackend.Assembly.Layout
import ScriptBackend.Bytes
import ScriptBackend.NativeDatabase
import ScriptBackend.NativeTable

/-!
The encoding of primitives: the bytes of each, with every label and native
resolved. Values are checked against the range of their field before they are
cut to its width.
-/
namespace ScriptBackend.Assembly

/-- What encoding needs to know: names, label addresses, natives of the target
and options. -/
structure Environment where
  symbols : Symbols
  labels : LabelTable
  source : NativeSource
  options : Options

namespace Environment

def codeLabel (environment : Environment) (line : Line) (name : String) : Except Fault Nat :=
  match environment.labels.find? (line.qualify name) with
  | some address => .ok address
  | none => .error (line.fault (.undefinedLabel name))

/-- The integer that an operand denotes. Where code labels are allowed, a name
that is no constant and no data label denotes an address. -/
def integer (environment : Environment) (line : Line) (operand : Operand) (codeLabels : Bool) :
    Except Fault Int := do
  match ← environment.symbols.intOperand line operand with
  | some value => return value
  | none =>
    match operand with
    | .name name =>
      if codeLabels then
        let address ← environment.codeLabel line name
        return address
      else
        .error (line.fault (.undefinedLabel operand.render))
    | _ => .error (line.fault (.undefinedLabel operand.render))

def ranged (environment : Environment) (line : Line) (operand : Operand) (least : Int)
    (greatest : Nat) (codeLabels : Bool) (what : Quantity) : Except Fault Int := do
  let value ← environment.integer line operand codeLabels
  if value < least || greatest < value then .error (line.fault (.capacity what value greatest))
  else return value

/-- The single-precision number that an operand denotes. Integers are converted. -/
def float (environment : Environment) (line : Line) (opcode : Opcode) (operand : Operand) :
    Except Fault Binary32 :=
  match operand with
  | .float value => .ok value
  | .int value => .ok (Binary32.ofInt value.toInt)
  | .name name =>
    match environment.symbols.value? (line.qualify name) with
    | some (.float value) => .ok value
    | some (.int value) => .ok (Binary32.ofInt value)
    | none => .error (line.fault (.undefinedLabel name))
  | operand => .error (line.fault (.invalidOperand opcode.mnemonic (.notAFloat operand)))

/-- The bytes of the distance from one address to another, which must fit 16
signed bits. -/
def distance (line : Line) (label : String) (target start : Nat) : Except Fault (List UInt8) :=
  let difference : Int := target - start
  if difference < -0x8000 || 0x8000 ≤ difference then
    .error (line.fault (.jumpOutOfRange label difference))
  else
    .ok (Bytes.littleInt 2 difference)

/-- The hash or the fixed index that the native operand of a line denotes. The
label of an included native goes before a native of the same name. -/
def native (environment : Environment) (line : Line) (opcode : Opcode) (operand : Operand) :
    Except Fault (Nat ⊕ UInt64) :=
  match operand with
  | .int hash => .ok (.inr hash.toUInt64)
  | .name name =>
    let known : Except Fault (Nat ⊕ UInt64) :=
      match environment.source.named? name with
      | some entry => .ok (.inr entry.hash)
      | none => .error (line.fault (.unknownNative name))
    match environment.symbols.data[line.qualify name]? with
    | some symbol => if symbol.segment = .natives then .ok (.inl symbol.value) else known
    | none => known
  | operand => .error (line.fault (.invalidOperand opcode.mnemonic (.notANative operand)))

/-- The index of a native, which gets an entry in the table on its first use. -/
def nativeIndex (environment : Environment) (line : Line) (opcode : Opcode) (operand : Operand)
    (natives : NativeTable) : Except Fault (Nat × NativeTable) := do
  match ← environment.native line opcode operand with
  | .inl index => return (index, natives)
  | .inr hash =>
    match natives.addOrGet hash with
    | (.ok index, natives) => return (index, natives)
    | (.error fault, _) => .error (line.fault (Cause.ofNativeTable fault))

def bytes (environment : Environment) (line : Line) : List Operand → Except Fault (List UInt8)
  | [] => .ok []
  | operand :: rest => do
    let value ← environment.ranged line operand 0 0xFF false .byteOperand
    let others ← environment.bytes line rest
    return UInt8.ofNat value.toNat :: others

/-- The bytes of the cases of a branch. `entry` is the address at which the next
entry begins. -/
def cases (environment : Environment) (line : Line) (opcode : Opcode) :
    Nat → List Operand → Except Fault (List UInt8)
  | _, [] => .ok []
  | entry, .case value label :: rest => do
    if value.toInt < leastInt32 || greatestUInt32 < value.toInt then
      .error (line.fault (.capacity .caseValue value.toInt greatestUInt32))
    let target ← environment.codeLabel line label
    let jump ← distance line label target (entry + 6)
    let others ← environment.cases line opcode (entry + 6) rest
    return Bytes.littleInt 4 value.toInt ++ jump ++ others
  | _, operand :: _ => .error (line.fault (.invalidOperand opcode.mnemonic (.notACase operand)))

/-- The bytes of a name inside a frame instruction: its length with the zero
byte, the name, the zero byte. -/
def frameNameBytes : Option String → List UInt8
  | some name =>
    let stored := Text.utf8 name
    UInt8.ofNat (stored.length + 1) :: (stored ++ [0])
  | none => [0]

/-- The operand bytes of a primitive that begins at an address. Only natives are
given entries on the way. The number of operands has been checked by its size. -/
def operandBytes (environment : Environment) (line : Line) (primitive : Primitive) (address : Nat)
    (natives : NativeTable) : Except Fault (List UInt8 × NativeTable) :=
  let pure (result : Except Fault (List UInt8)) := result.map (·, natives)
  match primitive.opcode.format, primitive.operands with
  | .none, _ => .ok ([], natives)
  | .byte, operands => pure (environment.bytes line operands)
  | .twoBytes, operands => pure (environment.bytes line operands)
  | .threeBytes, operands => pure (environment.bytes line operands)
  | .word, operand :: _ => pure do
    let value ← environment.ranged line operand leastInt32 greatestUInt32 true .operand32
    return Bytes.littleInt 4 value
  | .float, operand :: _ => pure do
    let value ← environment.float line primitive.opcode operand
    return Bytes.little 4 value.bits.toNat
  | .native, arguments :: returns :: native :: _ => do
    let arguments ← environment.ranged line arguments 0 0x3F false .argumentCount
    let returns ← environment.ranged line returns 0 0x3 false .returnCount
    let (index, natives) ← environment.nativeIndex line primitive.opcode native natives
    let counts := UInt8.ofNat (4 * arguments.toNat + returns.toNat)
    return ([counts, UInt8.ofNat (index / 256), UInt8.ofNat index], natives)
  | .enter, parameters :: frame :: _ => pure do
    let parameters ← environment.ranged line parameters 0 0xFF false .parameterCount
    let frame ← environment.ranged line frame 0 0xFFFF false .frameSize
    let name ← primitive.frameName line environment.options
    return UInt8.ofNat parameters.toNat :: (Bytes.littleInt 2 frame ++ frameNameBytes name)
  | .signed16, operand :: _ => pure do
    let value ← environment.ranged line operand (-0x8000) 0x7FFF false .operand16
    return Bytes.littleInt 2 value
  | .unsigned16, operand :: _ => pure do
    let value ← environment.ranged line operand 0 0xFFFF false .operand16
    return Bytes.littleInt 2 value
  | .relative, .name label :: _ => pure do
    let target ← environment.codeLabel line label
    distance line label target (address + 3)
  | .relative, operand :: _ =>
    .error (line.fault (.invalidOperand primitive.opcode.mnemonic (.notALabel operand)))
  | .call, operand :: _ => pure do
    let value ← environment.ranged line operand 0 0xFFFFFF true .operand24
    return Bytes.littleInt 3 value
  | .unsigned24, operand :: _ => pure do
    let value ← environment.ranged line operand 0 0xFFFFFF true .operand24
    return Bytes.littleInt 3 value
  | .switch, operands => pure do
    let entries ← environment.cases line primitive.opcode (address + 2) operands
    return UInt8.ofNat operands.length :: entries
  | _, _ => .ok ([], natives)

def encode (environment : Environment) (line : Line) (primitive : Primitive) (address : Nat)
    (natives : NativeTable) : Except Fault (List UInt8 × NativeTable) :=
  (environment.operandBytes line primitive address natives).map fun (bytes, natives) =>
    (primitive.opcode.toByte :: bytes, natives)

end Environment
end ScriptBackend.Assembly
