import ScriptBackend.Assembly.Shorthand
import ScriptBackend.Instruction.Operands
import ScriptBackend.Proofs.Lowering.OperandStack
import ScriptBackend.Proofs.Machine.Memory

/-!
What instructions do to words. An instruction that pushes, copies, computes or
accesses memory is one motion of the stack and the memory; a shorthand stands
for the motion of its general operation, whatever the width of its operand.
-/
namespace ScriptBackend

open Assembly

/-- The positions of variables: where the frame and the statics begin, and where
the global of an id is. -/
structure Bases where
  frame : Nat
  statics : Nat
  globals : Nat → Nat

/-- How an instruction names an address. -/
inductive Location where
  | frame (index : Nat)
  | statics (index : Nat)
  | globals (id : Nat)
  /-- The address on top of the stack. -/
  | held
  /-- Some words behind the address on top. -/
  | behind (words : Int32)
  /-- As many words behind the address below as are counted on top. -/
  | counted
  /-- The item of a size in the array whose address is on top, at the index
  below. -/
  | item (size : Nat)

/-- What is done with an address. -/
inductive Access where
  | locate
  | load
  | store

/-- What an instruction does to the stack and the memory. -/
inductive Motion where
  /-- Words are pushed, the first one first. -/
  | push (words : List Word)
  | copy
  | drop
  | access (location : Location) (access : Access)
  /-- The word on top goes to the address below it, which stays. -/
  | storeKept
  /-- As many words as counted below an address are pushed from there. -/
  | loadMany
  /-- As many words go to an address as are counted below the address. -/
  | storeMany
  | change (operation : Int32 → Int32)
  | combine (operation : Int32 → Int32 → Int32)

/-- The address that a location names, and the stack without the words that name
it. -/
def Location.address? (bases : Bases) : Location → List Word → Option (Word × List Word)
  | .frame index, stack => some (addressOf (bases.frame + index), stack)
  | .statics index, stack => some (addressOf (bases.statics + index), stack)
  | .globals id, stack => some (addressOf (bases.globals id), stack)
  | .held, address :: rest => some (address, rest)
  | .behind words, address :: rest => some (address.moved words, rest)
  | .counted, words :: address :: rest => some (address.moved words.toInt, rest)
  | .item size, array :: index :: rest => some (array.item index size, rest)
  | _, _ => none

def Access.after? (address : Word) (cells : Cells) : Access → Option Cells
  | .locate => some { cells with stack := address :: cells.stack }
  | .load => some { cells with stack := cells.memory address.position :: cells.stack }
  | .store =>
    match cells.stack with
    | word :: rest => some ⟨rest, written cells.memory address.position [word]⟩
    | [] => none

namespace Motion

/-- What a motion leaves. A motion that finds too few words on the stack leaves
nothing. -/
def after? (bases : Bases) (cells : Cells) : Motion → Option Cells
  | .push words => some { cells with stack := words.reverse ++ cells.stack }
  | .access location kind =>
    (location.address? bases cells.stack).bind fun (address, rest) =>
      kind.after? address { cells with stack := rest }
  | motion =>
    match motion, cells.stack with
    | .copy, top :: rest => some { cells with stack := top :: top :: rest }
    | .drop, _ :: rest => some { cells with stack := rest }
    | .storeKept, word :: address :: rest =>
        some ⟨address :: rest, written cells.memory address.position [word]⟩
    | .loadMany, address :: count :: rest =>
      some { cells with stack :=
        (wordsAt cells.memory address.position count.bits.toNat).reverse ++ rest }
    | .storeMany, address :: count :: rest =>
      if count.bits.toNat ≤ rest.length then
        some ⟨rest.drop count.bits.toNat,
          written cells.memory address.position (rest.take count.bits.toNat).reverse⟩
      else none
    | .change operation, word :: rest =>
        some { cells with stack := .ofInt (operation word.toInt).toInt :: rest }
    | .combine operation, right :: left :: rest =>
      some { cells with stack := .ofInt (operation left.toInt right.toInt).toInt :: rest }
    | _, _ => none

/-- Whether a motion loads or stores the word at a position. -/
def Accesses (bases : Bases) (cells : Cells) (motion : Motion) (position : Nat) : Prop :=
  match motion, cells.stack with
  | .access location kind, stack =>
    kind ≠ .locate ∧
      ∃ address rest, location.address? bases stack = some (address, rest) ∧
        position = address.position
  | .storeKept, _ :: address :: _ => position = address.position
  | .loadMany, address :: count :: _ | .storeMany, address :: count :: _ =>
    address.position ≤ position ∧ position < address.position + count.bits.toNat
  | _, _ => False

/-- What motions leave one after the other. -/
def run? (bases : Bases) : List Motion → Cells → Option Cells
  | [], cells => some cells
  | motion :: rest, cells => (motion.after? bases cells).bind (run? bases rest)

section Run

variable {bases : Bases} {cells : Cells}

@[simp] theorem run?_single (motion : Motion) :
    run? bases [motion] cells = motion.after? bases cells := by
  exact Option.bind_fun_some _

/-- A distance may be pushed and then popped again. -/
theorem run?_push_counted (number : Int) (rest : List Motion) :
    run? bases (.push [.ofInt number] :: .access .counted .locate :: rest) cells =
      run? bases (.access (.behind (Int32.ofInt number)) .locate :: rest) cells := by
  obtain ⟨stack, memory⟩ := cells
  cases stack with
  | nil => rfl
  | cons address below => simp [run?, after?, Location.address?, Word.toInt_ofInt]

/-- An address may be pushed and then popped again. -/
theorem run?_locate_held (location : Location) (kind : Access) :
    run? bases [.access location .locate, .access .held kind] cells =
      (Motion.access location kind).after? bases cells := by
  rw [run?, after?, after?]
  cases location.address? bases cells.stack with
  | none => rfl
  | some found => exact run?_single _

theorem run?_push_combine (operation : Int32 → Int32 → Int32) (number : Int) :
    run? bases [.push [.ofInt number], .combine operation] cells =
      (Motion.change fun left => operation left (Int32.ofInt number)).after? bases cells := by
  obtain ⟨stack, memory⟩ := cells
  cases stack with
  | nil => rfl
  | cons word below => simp [run?, after?, Word.toInt_ofInt]

end Run

end Motion

/-! Instructions -/

def Opcode.bareMotion? : Opcode → Option Motion
  | .dup => some .copy
  | .drop => some .drop
  | .load => some (.access .held .load)
  | .store => some (.access .held .store)
  | .storeRev => some .storeKept
  | .loadN => some .loadMany
  | .storeN => some .storeMany
  | .ioffset => some (.access .counted .locate)
  | .iadd => some (.combine (· + ·))
  | .imul => some (.combine (· * ·))
  | opcode => opcode.constant?.map fun word => .push [word]

theorem Opcode.bareMotion?_of_constant {opcode : Opcode} {word : Word}
    (h : opcode.constant? = some word) :
    opcode.bareMotion? = some (.push [word]) := by
  unfold bareMotion?
  split
  all_goals first
    | cases h
    | rw [h, Option.map_some]

def Opcode.numberedMotion? (number : Int) : Opcode → Option Motion
  | .pushConstU8 | .pushConstS16 | .pushConstU24 | .pushConstU32 => some (.push [.ofInt number])
  | .localU8 | .localU16 => some (.access (.frame number.toNat) .locate)
  | .localU8Load | .localU16Load => some (.access (.frame number.toNat) .load)
  | .localU8Store | .localU16Store => some (.access (.frame number.toNat) .store)
  | .staticU8 | .staticU16 => some (.access (.statics number.toNat) .locate)
  | .staticU8Load | .staticU16Load => some (.access (.statics number.toNat) .load)
  | .staticU8Store | .staticU16Store => some (.access (.statics number.toNat) .store)
  | .globalU16 | .globalU24 => some (.access (.globals number.toNat) .locate)
  | .globalU16Load | .globalU24Load => some (.access (.globals number.toNat) .load)
  | .globalU16Store | .globalU24Store => some (.access (.globals number.toNat) .store)
  | .arrayU8 | .arrayU16 => some (.access (.item number.toNat) .locate)
  | .arrayU8Load | .arrayU16Load => some (.access (.item number.toNat) .load)
  | .arrayU8Store | .arrayU16Store => some (.access (.item number.toNat) .store)
  | .ioffsetU8 | .ioffsetS16 => some (.access (.behind (Int32.ofInt number)) .locate)
  | .ioffsetU8Load | .ioffsetS16Load => some (.access (.behind (Int32.ofInt number)) .load)
  | .ioffsetU8Store | .ioffsetS16Store => some (.access (.behind (Int32.ofInt number)) .store)
  | .iaddU8 | .iaddS16 => some (.change (· + Int32.ofInt number))
  | .imulU8 | .imulS16 => some (.change (· * Int32.ofInt number))
  | _ => none

def OperandValues.number? : OperandValues → Option Int
  | .bytes [value] => some value.toNat
  | .word value => some value.toNat
  | .signed16 value => some value
  | .unsigned16 value | .unsigned24 value => some value
  | _ => .none

/-- The motion of an instruction cut out of code. The only instruction with a
float pushes it. -/
def Instruction.motion? (instruction : Instruction) : Option Motion :=
  match instruction.operands? with
  | some .none => instruction.opcode.bareMotion?
  | some (.float value) => some (.push [.ofFloat value])
  | some values => values.number?.bind fun number => instruction.opcode.numberedMotion? number
  | none => none

/-! Shorthands -/

/-- The word that a value becomes when it is pushed. -/
def Assembly.Value.word : Value → Word
  | .int value => .ofInt value
  | .float value => .ofFloat value

def Assembly.Shorthand.numberedMotion? (shorthand : Shorthand) (number : Int) : Option Motion :=
  match shorthand.mnemonic with
  | "LOCAL" => some (.access (.frame number.toNat) .locate)
  | "LOCAL_LOAD" => some (.access (.frame number.toNat) .load)
  | "LOCAL_STORE" => some (.access (.frame number.toNat) .store)
  | "STATIC" => some (.access (.statics number.toNat) .locate)
  | "STATIC_LOAD" => some (.access (.statics number.toNat) .load)
  | "STATIC_STORE" => some (.access (.statics number.toNat) .store)
  | "GLOBAL" => some (.access (.globals number.toNat) .locate)
  | "GLOBAL_LOAD" => some (.access (.globals number.toNat) .load)
  | "GLOBAL_STORE" => some (.access (.globals number.toNat) .store)
  | "ARRAY" => some (.access (.item number.toNat) .locate)
  | "ARRAY_LOAD" => some (.access (.item number.toNat) .load)
  | "ARRAY_STORE" => some (.access (.item number.toNat) .store)
  | "IOFFSET_CONST" => some (.access (.behind (Int32.ofInt number)) .locate)
  | "IOFFSET_CONST_LOAD" => some (.access (.behind (Int32.ofInt number)) .load)
  | "IOFFSET_CONST_STORE" => some (.access (.behind (Int32.ofInt number)) .store)
  | "IADD_CONST" => some (.change (· + Int32.ofInt number))
  | "IMUL_CONST" => some (.change (· * Int32.ofInt number))
  | _ => none

def Assembly.Shorthand.motion? (shorthand : Shorthand) (values : List Value) : Option Motion :=
  match shorthand.rule, values with
  | .pushConstants, first :: rest => some (.push ((first :: rest).map Value.word))
  | .index .., [.int number] | .globalId .., [.int number] | .immediate .., [.int number] =>
    shorthand.numberedMotion? number
  | _, _ => none

end ScriptBackend
