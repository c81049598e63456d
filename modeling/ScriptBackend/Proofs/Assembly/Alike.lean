import ScriptBackend.Assembly.CodeImage
import ScriptBackend.Proofs.Assembly.Mnemonics
import ScriptBackend.Proofs.Outcome

/-!
What the code of a line depends on. Line numbers and comments appear in faults
alone, and of a mnemonic only the hash counts: two lines of one segment and one
scope that say the same have the same primitives, the same sizes and the same
bytes, or neither has any.
-/
namespace ScriptBackend.Assembly

open Outcome

/-- Lines in which the same names mean the same. -/
structure Line.Alike (line other : Line) : Prop where
  segment : other.segment = line.segment
  scope : other.scope = line.scope

section

variable {line other : Line} {symbols : Symbols} {options : Options} {strings : StringPages}

theorem Line.Alike.refl (line : Line) : line.Alike line :=
  ⟨rfl, rfl⟩

theorem Line.Alike.qualify (h : line.Alike other) (name : String) :
    other.qualify name = line.qualify name := by
  rw [Line.qualify, Line.qualify, h.scope]

/-- The name that an operand mentions where numbers are expected. -/
def Operand.mentioned? : Operand → Option String
  | .name label | .sizeOf label => some label
  | _ => none

/-- Of its line, an operand sees the full name of what it mentions. -/
theorem intOperand_agree {operand : Operand}
    (hNames : ∀ name, operand.mentioned? = some name → other.qualify name = line.qualify name) :
    Agree (symbols.intOperand line operand) (symbols.intOperand other operand) := by
  cases operand with
  | int value => exact .ok (some value.toInt)
  | name name =>
      rw [Symbols.intOperand, Symbols.intOperand, hNames name rfl]
      split
      · exact .ok _
      · exact .error _ _
      · exact .ok none
  | sizeOf label =>
      rw [Symbols.intOperand, Symbols.intOperand, hNames label rfl]
      split
      · exact .ok _
      · exact .error _ _
  | _ => exact .error _ _

theorem intOperand_alike (h : line.Alike other) (operand : Operand) :
    Agree (symbols.intOperand line operand) (symbols.intOperand other operand) :=
  intOperand_agree fun name _ => h.qualify name

/-! Expansion -/

/-- The same instruction on two lines, under the same names and literals. -/
structure Expansion.Alike (expansion second : Expansion) : Prop where
  line : expansion.line.Alike second.line
  symbols : second.symbols = expansion.symbols
  strings : second.strings = expansion.strings

namespace Expansion

variable {expansion second : Expansion} {operands : List Operand}

theorem single_alike (operands : List Operand) :
    Agree (expansion.single operands) (second.single operands) := by
  unfold single
  split
  · exact .ok _
  · exact .error _ _

theorem integer_alike (h : expansion.Alike second) (operand : Operand) :
    Agree (expansion.integer operand) (second.integer operand) := by
  have hOperand : Agree (expansion.symbols.intOperand expansion.line operand)
      (expansion.symbols.intOperand second.line operand) := intOperand_alike h.line operand
  rw [integer, integer, h.symbols]
  generalize expansion.symbols.intOperand expansion.line operand = first at hOperand
  generalize expansion.symbols.intOperand second.line operand = later at hOperand
  cases hOperand with
  | error => exact .error _ _
  | ok value =>
      cases value with
      | none => exact .error _ _
      | some value => exact .ok value

theorem pushInt_alike (value : Int) : Agree (expansion.pushInt value) (second.pushInt value) := by
  unfold pushInt
  repeat' split
  all_goals first
    | exact .ok _
    | exact .error _ _

theorem pushOperand_alike (h : expansion.Alike second) (operand : Operand) :
    Agree (expansion.pushOperand operand) (second.pushOperand operand) := by
  cases operand with
  | int value => exact pushInt_alike value.toInt
  | float value => exact .ok _
  | sizeOf label => exact (integer_alike h _).bind pushInt_alike
  | name name =>
      rw [pushOperand, pushOperand, h.symbols, h.line.qualify]
      split
      · exact pushInt_alike _
      · exact .ok _
      · exact .ok _
  | _ => exact .error _ _

theorem pushOperands_alike (h : expansion.Alike second) (operands : List Operand) :
    Agree (expansion.pushOperands operands) (second.pushOperands operands) := by
  induction operands with
  | nil => exact .ok []
  | cons operand rest ih =>
      exact (pushOperand_alike h operand).bind fun first => ih.bind fun others => .ok _

theorem pushText_alike (h : expansion.Alike second) (operands : List Operand) :
    Agree (expansion.pushText operands) (second.pushText operands) := by
  refine (single_alike operands).bind fun operand => ?_
  cases operand with
  | text text =>
      dsimp only
      rw [h.strings]
      split
      · exact (pushInt_alike _).bind fun push => .ok _
      · exact .error _ _
  | _ => exact .error _ _

theorem unsigned_alike (h : expansion.Alike second) (operands : List Operand) (narrow wide : Opcode)
    (narrowLimit wideLimit : Nat) (what : Quantity) :
    Agree (expansion.unsigned operands narrow wide narrowLimit wideLimit what)
      (second.unsigned operands narrow wide narrowLimit wideLimit what) := by
  refine (single_alike operands).bind fun operand => (integer_alike h operand).bind fun value => ?_
  repeat' split
  · exact .ok _
  · exact .ok _
  · exact .error _ _

theorem immediate_alike (h : expansion.Alike second) (operands : List Operand)
    (narrow wide : Opcode) (general : List Opcode) :
    Agree (expansion.immediate operands narrow wide general)
      (second.immediate operands narrow wide general) := by
  refine (single_alike operands).bind fun operand => (integer_alike h operand).bind fun value => ?_
  repeat' split
  · exact .ok _
  · exact .ok _
  · exact (pushInt_alike value).bind fun push => .ok _

/-- A rule gives the same primitives for the same operands, since it looks at
nothing but the values of names. -/
theorem apply_alike (h : expansion.Alike second) (rule : Rule) (operands : List Operand) :
    Agree (expansion.apply rule operands) (second.apply rule operands) := by
  cases rule with
  | pushConstants =>
      rw [apply, apply]
      split
      · exact .error _ _
      · exact pushOperands_alike h operands
  | pushText => exact pushText_alike h operands
  | index narrow wide => exact unsigned_alike h operands narrow wide _ _ _
  | globalId narrow wide => exact unsigned_alike h operands narrow wide _ _ _
  | immediate narrow wide general => exact immediate_alike h operands narrow wide general

end Expansion

/-- The case of a mnemonic and the place of the line do not matter to the
primitives of an instruction. -/
theorem expand_alike (h : line.Alike other) (mnemonic : String) (operands : List Operand) :
    Agree (expand symbols strings line mnemonic operands)
      (expand symbols strings other (Text.upperCased mnemonic) operands) := by
  have hSame : Expansion.Alike ⟨line, mnemonic, symbols, strings⟩
      ⟨other, Text.upperCased mnemonic, symbols, strings⟩ := ⟨h, rfl, rfl⟩
  rw [expand, expand, Opcode.named?_upperCased, Shorthand.named?_upperCased]
  split
  · exact .ok _
  · split
    · exact Expansion.apply_alike hSame _ operands
    · exact .error _ _

/-- Lines that resolve names alike are expanded to the same primitives, or fail
both. -/
theorem expand_agree (h : line.Alike other) (mnemonic : String) (operands : List Operand) :
    Agree (expand symbols strings line mnemonic operands)
      (expand symbols strings other mnemonic operands) :=
  (expand_alike h mnemonic operands).trans (expand_alike (.refl other) mnemonic operands).symm

theorem pushedText?_upperCased (mnemonic : String) (operands : List Operand) :
    pushedText? (Text.upperCased mnemonic) operands = pushedText? mnemonic operands := by
  unfold pushedText?
  rw [Opcode.named?_upperCased, Shorthand.named?_upperCased]

/-! Sizes -/

namespace Primitive

variable (primitive : Primitive)

theorem checkCount_alike (line other : Line) :
    Agree (primitive.checkCount line) (primitive.checkCount other) := by
  unfold checkCount
  dsimp only
  repeat' split
  all_goals first
    | exact .ok _
    | exact .error _ _

/-- A function stores the same name with its frame, as far as names are asked
for. -/
theorem wantedName_alike (h : line.Alike other) :
    Agree (primitive.wantedName line options) (primitive.wantedName other options) := by
  rw [wantedName, wantedName, h.scope]
  split
  · exact .ok _
  · exact .error _ _
  · exact .ok _

theorem frameName_alike (h : line.Alike other) :
    Agree (primitive.frameName line options) (primitive.frameName other options) := by
  have hName : Agree (primitive.wantedName line options) (primitive.wantedName other options) :=
    primitive.wantedName_alike h
  rw [frameName, frameName]
  generalize primitive.wantedName line options = first at hName
  generalize primitive.wantedName other options = later at hName
  cases hName with
  | error => exact .error _ _
  | ok name =>
      cases name with
      | none => exact .ok none
      | some name =>
          dsimp only
          split
          · exact .error _ _
          · exact .ok _

/-- A primitive has the same size on lines that resolve names alike, the name of
a frame included. -/
theorem size_alike (h : line.Alike other) :
    Agree (primitive.size line options) (primitive.size other options) := by
  refine (primitive.checkCount_alike line other).bind fun _ => ?_
  split
  · exact .ok _
  · split
    · exact (primitive.frameName_alike h).bind fun name => .ok _
    · dsimp only
      split
      · exact .error _ _
      · exact .ok _

end Primitive

theorem placeAll_alike (h : line.Alike other) (codeEnd : Nat) (primitives : List Primitive) :
    Agree (placeAll line options codeEnd primitives)
      (placeAll other options codeEnd primitives) := by
  induction primitives generalizing codeEnd with
  | nil => exact .ok _
  | cons primitive rest ih =>
      exact (primitive.size_alike h).bind fun size => (ih _).bind fun placed => .ok _

/-! Bytes -/

namespace Environment

variable (environment : Environment)

theorem codeLabel_alike (h : line.Alike other) (name : String) :
    Agree (environment.codeLabel line name) (environment.codeLabel other name) := by
  rw [codeLabel, codeLabel, h.qualify]
  split
  · exact .ok _
  · exact .error _ _

theorem integer_alike (h : line.Alike other) (operand : Operand) (codeLabels : Bool) :
    Agree (environment.integer line operand codeLabels)
      (environment.integer other operand codeLabels) := by
  refine (intOperand_alike h operand).bind fun value => ?_
  cases value with
  | some value => exact .ok value
  | none =>
      dsimp only
      split
      · split
        · exact (environment.codeLabel_alike h _).bind fun address => .ok _
        · exact .error _ _
      · exact .error _ _

theorem ranged_alike (h : line.Alike other) (operand : Operand) (least : Int) (greatest : Nat)
    (codeLabels : Bool) (what : Quantity) :
    Agree (environment.ranged line operand least greatest codeLabels what)
      (environment.ranged other operand least greatest codeLabels what) := by
  refine (environment.integer_alike h operand codeLabels).bind fun value => ?_
  split
  · exact .error _ _
  · exact .ok value

theorem float_alike (h : line.Alike other) (opcode : Opcode) (operand : Operand) :
    Agree (environment.float line opcode operand) (environment.float other opcode operand) := by
  cases operand with
  | name name =>
      rw [float, float, h.qualify]
      split
      · exact .ok _
      · exact .ok _
      · exact .error _ _
  | int value => exact .ok _
  | float value => exact .ok _
  | _ => exact .error _ _

theorem distance_alike (line other : Line) (label : String) (target start : Nat) :
    Agree (distance line label target start) (distance other label target start) := by
  unfold distance
  dsimp only
  split
  · exact .error _ _
  · exact .ok _

theorem native_alike (h : line.Alike other) (opcode : Opcode) (operand : Operand) :
    Agree (environment.native line opcode operand) (environment.native other opcode operand) := by
  cases operand with
  | name name =>
      rw [native, native, h.qualify]
      split
      · split
        · exact .ok _
        · split
          · exact .ok _
          · exact .error _ _
      · split
        · exact .ok _
        · exact .error _ _
  | int value => exact .ok _
  | _ => exact .error _ _

/-- The native of an instruction gets the same index, and the table grows by the
same hash. -/
theorem nativeIndex_alike (h : line.Alike other) (opcode : Opcode) (operand : Operand)
    (natives : NativeTable) :
    Agree (environment.nativeIndex line opcode operand natives)
      (environment.nativeIndex other opcode operand natives) := by
  refine (environment.native_alike h opcode operand).bind fun found => ?_
  cases found with
  | inl index => exact .ok _
  | inr hash =>
      dsimp only
      split
      · exact .ok _
      · exact .error _ _

theorem bytes_alike (h : line.Alike other) (operands : List Operand) :
    Agree (environment.bytes line operands) (environment.bytes other operands) := by
  induction operands with
  | nil => exact .ok []
  | cons operand rest ih =>
      exact (environment.ranged_alike h operand _ _ _ _).bind fun value =>
        ih.bind fun others => .ok _

theorem cases_alike (h : line.Alike other) (opcode : Opcode) (entry : Nat)
    (operands : List Operand) :
    Agree (environment.cases line opcode entry operands)
      (environment.cases other opcode entry operands) := by
  induction operands generalizing entry with
  | nil => exact .ok []
  | cons operand rest ih =>
      cases operand with
      | case value label =>
          rw [Environment.cases, Environment.cases]
          split
          · exact .error _ _
          · exact (environment.codeLabel_alike h label).bind fun target =>
              (distance_alike line other label target _).bind fun jump =>
                (ih _).bind fun others => .ok _
      | _ => exact .error _ _

/-- Each format reads its operands one by one. -/
theorem operandBytes_alike (h : line.Alike other) (primitive : Primitive) (address : Nat)
    (natives : NativeTable) :
    Agree (environment.operandBytes line primitive address natives)
      (environment.operandBytes other primitive address natives) := by
  unfold operandBytes
  dsimp only
  split
  · exact .ok _
  · exact (environment.bytes_alike h _).map _
  · exact (environment.bytes_alike h _).map _
  · exact (environment.bytes_alike h _).map _
  · exact ((environment.ranged_alike h _ _ _ _ _).bind fun value => .ok _).map _
  · exact ((environment.float_alike h _ _).bind fun value => .ok _).map _
  · exact (environment.ranged_alike h _ _ _ _ _).bind fun arguments =>
      (environment.ranged_alike h _ _ _ _ _).bind fun returns =>
        (environment.nativeIndex_alike h _ _ natives).bind fun found => .ok _
  · exact ((environment.ranged_alike h _ _ _ _ _).bind fun parameters =>
      (environment.ranged_alike h _ _ _ _ _).bind fun frame =>
        (primitive.frameName_alike h).bind fun name => .ok _).map _
  · exact ((environment.ranged_alike h _ _ _ _ _).bind fun value => .ok _).map _
  · exact ((environment.ranged_alike h _ _ _ _ _).bind fun value => .ok _).map _
  · exact ((environment.codeLabel_alike h _).bind fun target =>
      distance_alike line other _ target _).map _
  · exact .error _ _
  · exact ((environment.ranged_alike h _ _ _ _ _).bind fun value => .ok _).map _
  · exact ((environment.ranged_alike h _ _ _ _ _).bind fun value => .ok _).map _
  · exact ((environment.cases_alike h _ _ _).bind fun entries => .ok _).map _
  · exact .ok _

/-- A primitive is encoded to the same bytes on lines that resolve names alike,
or fails on both. -/
theorem encode_alike (h : line.Alike other) (primitive : Primitive) (address : Nat)
    (natives : NativeTable) :
    Agree (environment.encode line primitive address natives)
      (environment.encode other primitive address natives) :=
  (environment.operandBytes_alike h primitive address natives).map _

end Environment

namespace CodeImage

variable {environment : Environment}

theorem checkAddress_alike (line other : Line) (expected : Option Nat) (address : Nat) :
    Agree (checkAddress line expected address) (checkAddress other expected address) := by
  unfold checkAddress
  repeat' split
  all_goals first
    | exact .ok _
    | exact .error _ _

/-- Primitives are encoded alike wherever they were expected. -/
theorem addPrimitives_alike (h : line.Alike other) (expected : Option Nat)
    (primitives : List Primitive) (image : CodeImage) :
    Agree (addPrimitives environment line expected primitives image)
      (addPrimitives environment other expected primitives image) := by
  induction primitives generalizing expected image with
  | nil => exact .ok image
  | cons primitive rest ih =>
      refine (primitive.size_alike h).bind
          fun size => (checkAddress_alike line other _ _).bind fun _ =>
        (environment.encode_alike h primitive _ _).bind fun encoded => ?_
      dsimp only
      split
      · exact ih _ _
      · exact .error _ _

end CodeImage
end
end ScriptBackend.Assembly
