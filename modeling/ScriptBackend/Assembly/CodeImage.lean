import ScriptBackend.Assembly.Encoding

/-!
The code image: the bytes of all instructions of a unit, padded so that each
begins where the layout put it. Every primitive is checked against the layout
before and after it is encoded.
-/
namespace ScriptBackend.Assembly

/-- The code so far and the natives that it uses. -/
structure CodeImage where
  code : Array UInt8
  natives : NativeTable

def padding : UInt8 := Opcode.nop.toByte

def padTo (code : Array UInt8) (address : Nat) : Array UInt8 :=
  code ++ Array.replicate (address - code.size) padding

namespace CodeImage

/-- A fault if an instruction does not begin where it was laid out. -/
def checkAddress (line : Line) (expected : Option Nat) (address : Nat) : Except Fault Unit :=
  match expected with
  | some place =>
    if place = address then .ok () else .error (line.fault (.layoutMismatch place address))
  | none => .ok ()

/-- Adds the bytes of primitives. Only the first one has an address that was
laid out. -/
def addPrimitives (environment : Environment) (line : Line) :
    Option Nat → List Primitive → CodeImage → Except Fault CodeImage
  | _, [], image => .ok image
  | expected, primitive :: rest, ⟨code, natives⟩ => do
    let size ← primitive.size line environment.options
    let address := Page.place code.size size
    checkAddress line expected address
    let (bytes, natives) ← environment.encode line primitive address natives
    if bytes.length = size then
      addPrimitives environment line none rest ⟨padTo code address ++ bytes, natives⟩
    else
      .error (line.fault (.layoutMismatch (address + size) (address + bytes.length)))

def addLine (environment : Environment) (strings : StringPages) (line : Line)
    (expected : Option Nat) (image : CodeImage) : Except Fault CodeImage :=
  match line.instruction? with
  | none => .ok image
  | some (mnemonic, operands) =>
    match expand environment.symbols strings line mnemonic operands with
    | .error fault => .error fault
    | .ok primitives => addPrimitives environment line expected primitives image

/-- Adds lines in order, each with the address at which it was laid out. -/
def addAll (environment : Environment) (strings : StringPages) :
    List (Line × Option Nat) → CodeImage → Except Fault CodeImage
  | [], image => .ok image
  | (line, expected) :: rest, image =>
    match addLine environment strings line expected image with
    | .error fault => .error fault
    | .ok next => addAll environment strings rest next

end CodeImage

/-- The code of a unit under its layout. -/
def emitCode (environment : Environment) (strings : StringPages) (layout : Layout)
    (lines : List Line) (natives : NativeTable) : Except Fault CodeImage :=
  match CodeImage.addAll environment strings (lines.zip layout.addresses.toList) ⟨#[], natives⟩ with
  | .error fault => .error fault
  | .ok ⟨code, natives⟩ =>
    if layout.codeLength < code.size then
      .error ⟨0, .layoutMismatch layout.codeLength code.size⟩
    else
      .ok ⟨padTo code layout.codeLength, natives⟩

end ScriptBackend.Assembly
