import Mathlib.Data.Set.Defs
import ScriptBackend.Proofs.Lowering.StatementRules
import ScriptBackend.Proofs.Program.Mentions

/-!
Code that keeps to the frame of its function. The frame holds the variables of
the function and the scratch words. Code pushes the address of a value in the
frame, moves it to a part of the value, and reads or writes what it points to;
the types of values tell how far an access reaches.
-/
namespace ScriptBackend.Lowering

open ScriptBackend.Assembly

/-! Values in the frame -/

/-- The values that a frame holds, by their first words: the variables of the
function, and in the scratch words whatever fits into them. -/
inductive FrameValue (environment : Environment) (function : Function) : Nat → Ty → Prop where
  | variable {id first : Nat} {region : Region} {declared : Variable} (own : id ∈ function.frameIds)
      (placed : environment.slots.slots[id]? = some (some ⟨region, first⟩))
      (declaration : environment.program.vars[id]? = some declared) :
      FrameValue environment function first declared.ty
  | scratch {ty : Ty} (room : environment.sizes.of ty ≤ environment.frame.scratchWords) :
      FrameValue environment function environment.frame.scratchOffset ty

/-- Words of the frame that lie wholly in the range of one value. -/
def InRange (environment : Environment) (function : Function) (first count : Nat) : Prop :=
  ∃ origin ty, FrameValue environment function origin ty ∧ origin ≤ first ∧
    first + count ≤ origin + environment.sizes.of ty

/-- What an address on the stack points to: the type of the value there, and the
words of the frame at which the value may begin. These are none if the value is
not in the frame, and several if it is an element of an array. -/
structure Spot where
  ty : Ty
  starts : Set Nat

/-- A part of a value that stands at a fixed offset from its beginning. -/
inductive IsMember (sizes : Sizes) : Ty → Nat → Ty → Prop where
  | component {offset : Nat} (inside : offset < 3) : IsMember sizes .vector offset .float
  | field {id offset : Nat} {name : String} {ty : Ty}
      (found : sizes.field? id name = some (offset, ty)) : IsMember sizes (.struct id) offset ty

namespace Spot

def member (spot : Spot) (offset : Nat) (ty : Ty) : Spot :=
  ⟨ty, fun first => ∃ start ∈ spot.starts, first = start + offset⟩

/-- The elements of an array: its length stands in front of them. -/
def element (sizes : Sizes) (spot : Spot) (item : Ty) (length : Nat) : Spot :=
  ⟨item, fun first => ∃ start ∈ spot.starts, ∃ i < length, first = start + 1 + i * sizes.of item⟩

/-- Wherever the value may begin in the frame, it lies wholly in the range of a
value of the frame. -/
def IsSafe (environment : Environment) (function : Function) (spot : Spot) : Prop :=
  ∀ first ∈ spot.starts, InRange environment function first (environment.sizes.of spot.ty)

variable {environment : Environment} {function : Function} {spot : Spot}

theorem isSafe_value {first : Nat} {ty : Ty} (h : FrameValue environment function first ty) :
    IsSafe environment function ⟨ty, {first}⟩ := by
  intro start hStart
  rw [Set.mem_singleton_iff.mp hStart]
  exact ⟨first, ty, h, Nat.le_refl _, Nat.le_refl _⟩

theorem isSafe_outside (ty : Ty) : IsSafe environment function ⟨ty, ∅⟩ :=
  fun _ h => absurd h (Set.notMem_empty _)

end Spot

/-! Statements without addresses -/

/-- Instructions that neither touch the frame nor take an address from the stack. -/
def freeMnemonics : List String :=
  ["PUSH_CONST", "PUSH_STRING", "DUP", "DROP", "INOT", "INEG", "FNEG", "VNEG", "I2F", "F2I", "F2V",
    "IADD", "ISUB", "IMUL", "IDIV", "IMOD", "IAND", "IOR", "IXOR", "IEQ", "INE", "IGT",
    "IGE", "ILT", "ILE",
    "FADD", "FSUB", "FMUL", "FDIV", "FMOD", "FEQ", "FNE", "FGT", "FGE", "FLT", "FLE",
    "VADD", "VSUB", "VMUL", "VDIV", "J", "JZ", "ILT_JZ", "SWITCH", "CALL", "CALLINDIRECT", "NATIVE",
    "STATIC_LOAD", "STATIC_STORE", "GLOBAL_LOAD", "GLOBAL_STORE"]

/-- Whether a statement is a label or one of those instructions. -/
def isFree (statement : Statement) : Bool :=
  match statement.content with
  | .empty => true
  | .instruction mnemonic _ => freeMnemonics.contains mnemonic
  | .directive _ => false

/-- Code that keeps to the frame: it takes apart into pieces that push the
address of a value and use it. A piece whose last word is an address comes with
its spot. Where types can be relied on, every access lies wholly in the range of
a value of the frame. -/
inductive FrameCode (environment : Environment) (function : Function) (typed : Prop) :
    Option Spot → Code → Prop where
  | nil : FrameCode environment function typed none []
  | append {first second : Code} (first_code : FrameCode environment function typed none first)
      (second_code : FrameCode environment function typed none second) :
      FrameCode environment function typed none (first ++ second)
  | free {statement : Statement} (isFree : isFree statement = true) :
      FrameCode environment function typed none [statement]
  | leave : FrameCode environment function typed none [leave environment.frame]
  | comment {spot : Option Spot} {before after : Code} {statement : Statement} (comment : String)
      (code : FrameCode environment function typed spot (before ++ statement :: after)) :
      FrameCode environment function typed spot (before ++ commented comment statement :: after)
  /-- A word of the frame read or written by itself. -/
  | word {first : Nat} {ty : Ty} {mnemonic : String}
      (value : FrameValue environment function first ty)
      (single : typed → environment.sizes.of ty = 1)
      (direct : mnemonic = "LOCAL_LOAD" ∨ mnemonic = "LOCAL_STORE") :
      FrameCode environment function typed none [counted mnemonic [first]]
  /-- The address of a variable. -/
  | variable {first : Nat} {ty declared : Ty}
      (value : FrameValue environment function first declared) (same : typed → ty = declared) :
      FrameCode environment function typed (some ⟨ty, {first}⟩) [counted "LOCAL" [first]]
  /-- The address of a variable outside of the frame. -/
  | outside {region : Region} (ty : Ty) (index : Nat) (data : Region.isInFrame region = false) :
      FrameCode environment function typed (some ⟨ty, ∅⟩) [counted (Region.mnemonic region) [index]]
  /-- The address that a reference in the frame holds. -/
  | reference {first : Nat} {declared : Ty} (ty : Ty)
      (value : FrameValue environment function first declared) (isRef : declared.isRef = true) :
      FrameCode environment function typed (some ⟨ty, ∅⟩) [counted "LOCAL_LOAD" [first]]
  /-- A value without storage is copied to the scratch words. -/
  | spilled {ty : Ty} {code : Code} (value : FrameCode environment function typed none code)
      (room : environment.sizes.of ty ≤ environment.frame.scratchWords) :
      FrameCode environment function typed (some ⟨ty, {environment.frame.scratchOffset}⟩)
        (code ++ spillCode environment.frame (environment.sizes.of ty))
  | member {spot : Spot} {offset : Nat} {ty : Ty} {code : Code}
      (base : FrameCode environment function typed (some spot) code)
      (inside : typed → IsMember environment.sizes spot.ty offset ty) :
      FrameCode environment function typed (some (spot.member offset ty)) (code ++ atOffset offset)
  | element {spot : Spot} {length : Nat} {item : Ty} {index code : Code}
      (position : FrameCode environment function typed none index)
      (array : FrameCode environment function typed (some spot) code)
      (isArray : typed → spot.ty = .array item length) :
      FrameCode environment function typed (some (spot.element environment.sizes item length))
        (index ++ code ++ [counted "ARRAY" [environment.sizes.of item]])
  /-- An address that is passed on. -/
  | address {spot : Spot} {code : Code}
      (place : FrameCode environment function typed (some spot) code)
      (safe : typed → spot.IsSafe environment function) :
      FrameCode environment function typed none code
  /-- As many words read or written as the value has. -/
  | words {spot : Spot} {code : Code} {mnemonic : String}
      (place : FrameCode environment function typed (some spot) code)
      (safe : typed → spot.IsSafe environment function)
      (many : mnemonic = "LOAD_N" ∨ mnemonic = "STORE_N") :
      FrameCode environment function typed none
        (counted "PUSH_CONST" [environment.sizes.of spot.ty] :: code ++ [plain mnemonic])
  /-- A single word read or written where the address points to. -/
  | through {spot : Spot} {code : Code} {mnemonic : String}
      (place : FrameCode environment function typed (some spot) code)
      (safe : typed → spot.IsSafe environment function)
      (single : environment.sizes.of spot.ty = 1)
        (direct : mnemonic = "LOAD" ∨ mnemonic = "STORE") :
      FrameCode environment function typed none (code ++ [plain mnemonic])
  | memberWord {spot : Spot} {offset : Nat} {ty : Ty} {code : Code} {mnemonic : String}
      (base : FrameCode environment function typed (some spot) code)
      (inside : typed → IsMember environment.sizes spot.ty offset ty)
      (safe : typed → (spot.member offset ty).IsSafe environment function)
      (single : environment.sizes.of ty = 1)
      (direct : mnemonic = "IOFFSET_CONST_LOAD" ∨ mnemonic = "IOFFSET_CONST_STORE") :
      FrameCode environment function typed none (code ++ [counted mnemonic [offset]])
  | elementWord {spot : Spot} {length : Nat} {item : Ty} {index code : Code} {mnemonic : String}
      (position : FrameCode environment function typed none index)
      (array : FrameCode environment function typed (some spot) code)
      (isArray : typed → spot.ty = .array item length)
      (safe : typed → (spot.element environment.sizes item length).IsSafe environment function)
      (single : environment.sizes.of item = 1)
      (direct : mnemonic = "ARRAY_LOAD" ∨ mnemonic = "ARRAY_STORE") :
      FrameCode environment function typed none (index ++ code ++ [counted mnemonic [1]])
  /-- A text label filled or extended, up to its last byte. -/
  | text {spot : Spot} {op : Option BinaryOp} {source : Ty} {code : Code} {mnemonic : String}
      (place : FrameCode environment function typed (some spot) code)
      (safe : typed → spot.IsSafe environment function)
      (chosen : textLabelMnemonic? op source = some mnemonic) :
      FrameCode environment function typed none
        (code ++ [counted mnemonic [environment.sizes.of spot.ty * 8]])
  /-- Default words stored one by one, from the first word of a variable on. -/
  | defaults {slot : Slot} {ty : Ty} {words : List Datum} (name : String)
      (value : FrameValue environment function slot.index ty)
      (length_eq : typed → words.length = environment.sizes.of ty) :
      FrameCode environment function typed none (storeDefaults name slot words)

/-- A comment changes nothing of what code does to the frame. -/
theorem FrameCode.commented {environment : Environment} {function : Function} {typed : Prop}
    {spot : Option Spot} {statement : Statement}
    (h : FrameCode environment function typed spot [statement]) (comment : String) :
    FrameCode environment function typed spot [commented comment statement] :=
  @FrameCode.comment _ _ _ _ [] [] statement comment h

end ScriptBackend.Lowering
