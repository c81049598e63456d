import ScriptBackend.Lowering.Datum
import ScriptBackend.NativeDatabase
import ScriptBackend.Program.Slots

/-!
What the lowering of a function knows, and the statements that it is made of.
Lowering returns the code of a construct; its only state is the number of the
next label.
-/
namespace ScriptBackend.Lowering

open ScriptBackend.Assembly

abbrev Code := List Statement

/-- A program with its sizes, its slots and the natives of the target. -/
structure Setting where
  program : Program
  sizes : Sizes
  slots : Slots
  natives : NativeSource

/-- What is known inside a function. -/
structure Environment extends Setting where
  frame : Frame

/-- Lowering takes fresh label numbers and may fail. -/
abbrev Gen := StateT Nat (Except CompileFault)

def freshNumber : Gen Nat :=
  modifyGet fun next => (next, next + 1)

def unsupported {α : Type} (what : Unsupported) : Except CompileFault α :=
  .error (.unsupported what)

/-! Statements -/

def plain (mnemonic : String) : Statement :=
  .ofInstruction mnemonic []

def counted (mnemonic : String) (numbers : List Nat) : Statement :=
  .ofInstruction mnemonic (numbers.map fun number => .int (Int64.ofNat number))

def naming (mnemonic label : String) : Statement :=
  .ofInstruction mnemonic [.name label]

def commented (comment : String) (statement : Statement) : Statement :=
  { statement with comment := some comment }

def numbered (stem : String) (number : Nat) : String :=
  stem ++ Text.decimal number

/-- Pushes a run of numbers in one instruction, and a text or an address in its
own. -/
def pushRun : List Datum → Statement
  | [.text value] => .ofInstruction "PUSH_STRING" [.text value]
  | run => .ofInstruction "PUSH_CONST" (run.map Datum.operand)

/-- Pushes words. Numbers next to each other share an instruction. -/
def pushData (words : List Datum) : Code :=
  (words.splitBy fun a b => a.isNumber && b.isNumber).map pushRun

def dropWords (count : Nat) : Code :=
  List.replicate count (plain "DROP")

/-! Variables -/

def Region.mnemonic : Region → String
  | .globals => "GLOBAL"
  | .statics | .arguments => "STATIC"
  | .locals | .parameters => "LOCAL"

def Region.isInFrame : Region → Bool
  | .locals | .parameters => true
  | _ => false

namespace Setting

def declaration (setting : Setting) (id : Nat) : Except CompileFault Variable :=
  match setting.program.vars[id]? with
  | some declared => .ok declared
  | none => .error (.missingSlot ("#" ++ Text.decimal id))

/-- The place of a variable. References live in frames only. -/
def place (setting : Setting) (id : Nat) : Except CompileFault Slot := do
  let declared ← setting.declaration id
  let slot ← setting.slots.slot setting.program id
  if declared.ty.isRef && !Region.isInFrame slot.region then
    .error (.invalidStorage declared.name .reference)
  else
    return slot

/-- The code that pushes the address of a variable. A reference holds the
address already. -/
def variableAddress (setting : Setting) (id : Nat) : Except CompileFault Code := do
  let declared ← setting.declaration id
  let slot ← setting.place id
  if declared.ty.isRef then return [counted "LOCAL_LOAD" [slot.index]]
  else return [counted (Region.mnemonic slot.region) [slot.index]]

/-- The code that pushes the value of a variable which is no constant. -/
def variableLoad (setting : Setting) (id : Nat) : Except CompileFault Code := do
  let declared ← setting.declaration id
  let slot ← setting.place id
  let size ← setting.sizes.measure declared.ty.target
  let remark := commented declared.name
  if size = 1 then
    if declared.ty.isRef then return [counted "LOCAL_LOAD" [slot.index], remark (plain "LOAD")]
    else return [remark (counted (Region.mnemonic slot.region ++ "_LOAD") [slot.index])]
  else
    let address ← setting.variableAddress id
    return counted "PUSH_CONST" [size] :: address ++ [remark (plain "LOAD_N")]

def variableStore (setting : Setting) (id : Nat) : Except CompileFault Code := do
  let declared ← setting.declaration id
  let slot ← setting.place id
  let remark := commented declared.name
  if declared.ty.isRef then return [counted "LOCAL_LOAD" [slot.index], remark (plain "STORE")]
  else return [remark (counted (Region.mnemonic slot.region ++ "_STORE") [slot.index])]

def memberOffset (setting : Setting) (base : Ty) (field : String) : Except CompileFault Nat :=
  match base with
  | .vector =>
    match Text.lowerCased field with
    | "x" => .ok 0
    | "y" => .ok 1
    | "z" => .ok 2
    | _ => unsupported (.vectorField field)
  | .struct id => do
    Sizes.guarded (setting.sizes.fieldFits id field)
    match setting.sizes.field? id field with
    | some (offset, _) => return offset
    | none => unsupported (.unknownField field)
  | other => unsupported (.fieldOf field other)

end Setting

def atOffset (offset : Nat) : Code :=
  if offset = 0 then [] else [counted "IOFFSET_CONST" [offset]]

end ScriptBackend.Lowering
