import ScriptBackend.Proofs.Assembly.DataWords

/-!
Symbols count by their answers. Tables that give every name the same meaning
lead to the same primitives, addresses, bytes and words, in whatever order they
have been filled.
-/
namespace ScriptBackend.Assembly

/-- Symbols that give every name the same meaning. -/
structure Symbols.Same (symbols others : Symbols) : Prop where
  constants : ∀ name : String, others.constants[name]? = symbols.constants[name]?
  data : ∀ name : String, others.data[name]? = symbols.data[name]?

namespace Symbols.Same

variable {symbols others : Symbols}

theorem refl (symbols : Symbols) : symbols.Same symbols :=
  ⟨fun _ => rfl, fun _ => rfl⟩

theorem value? (h : symbols.Same others) (name : String) :
    others.value? name = symbols.value? name := by
  rw [Symbols.value?, Symbols.value?, h.constants, h.data]

theorem contains (h : symbols.Same others) (name : String) :
    others.contains name = symbols.contains name := by
  simp only [Symbols.contains, Std.TreeMap.contains_eq_isSome_getElem?, h.constants, h.data]

theorem intOperand (h : symbols.Same others) (line : Line) (operand : Operand) :
    others.intOperand line operand = symbols.intOperand line operand := by
  unfold Symbols.intOperand
  simp only [h.value?, h.data]

theorem evaluate (h : symbols.Same others) (pending : PendingWord) :
    pending.evaluate others = pending.evaluate symbols := by
  have hFloat : floatOperand? others pending.line pending.operand =
      floatOperand? symbols pending.line pending.operand := by
    unfold floatOperand?
    simp only [h.value?]
  rw [PendingWord.evaluate, PendingWord.evaluate, hFloat, h.intOperand]

end Symbols.Same

/-! Expansion -/

namespace Expansion

variable {symbols others : Symbols} {line : Line} {mnemonic : String} {strings : StringPages}

theorem integer_same (h : symbols.Same others) (operand : Operand) :
    integer ⟨line, mnemonic, others, strings⟩ operand =
      integer ⟨line, mnemonic, symbols, strings⟩ operand := by
  rw [integer, integer, h.intOperand]
  rfl

theorem pushOperand_same (h : symbols.Same others) (operand : Operand) :
    pushOperand ⟨line, mnemonic, others, strings⟩ operand =
      pushOperand ⟨line, mnemonic, symbols, strings⟩ operand := by
  cases operand with
  | sizeOf label =>
      rw [pushOperand, pushOperand, integer_same h]
      rfl
  | name name =>
      rw [pushOperand, pushOperand, h.value?]
      rfl
  | _ => rfl

theorem pushOperands_same (h : symbols.Same others) (operands : List Operand) :
    pushOperands ⟨line, mnemonic, others, strings⟩ operands =
      pushOperands ⟨line, mnemonic, symbols, strings⟩ operands := by
  induction operands with
  | nil => rfl
  | cons operand rest ih => rw [pushOperands, pushOperands, pushOperand_same h, ih]

theorem apply_same (h : symbols.Same others) (rule : Rule) (operands : List Operand) :
    apply ⟨line, mnemonic, others, strings⟩ rule operands =
      apply ⟨line, mnemonic, symbols, strings⟩ rule operands := by
  have hInteger : integer ⟨line, mnemonic, others, strings⟩ =
      integer ⟨line, mnemonic, symbols, strings⟩ :=
    funext (integer_same h)
  cases rule with
  | pushConstants =>
      rw [apply, apply, pushOperands_same h]
      rfl
  | pushText => rfl
  | index narrow wide =>
      rw [apply, apply, unsigned, unsigned, hInteger]
      rfl
  | globalId narrow wide =>
      rw [apply, apply, unsigned, unsigned, hInteger]
      rfl
  | immediate narrow wide general =>
      rw [apply, apply, immediate, immediate, hInteger]
      rfl

end Expansion

section

variable {symbols others : Symbols}

/-- Expanding an instruction looks at symbols by their values only, so tables
with the same values give the same primitives. -/
theorem expand_same (h : symbols.Same others) (strings : StringPages) (line : Line)
    (mnemonic : String) (operands : List Operand) :
    expand others strings line mnemonic operands =
      expand symbols strings line mnemonic operands := by
  unfold expand
  simp only [Expansion.apply_same h]

/-! Layout -/

theorem LayoutState.addAll_same (h : symbols.Same others) (options : Options) (lines : List Line)
    (state : LayoutState) (strings : StringPages) :
    addAll others options lines state strings = addAll symbols options lines state strings := by
  have hNote : ∀ state line, noteLabel state others line =
      noteLabel state symbols line := fun state line => by
    unfold noteLabel
    simp only [h.contains]
  have hPlace : ∀ state strings line, place state others strings options line =
      place state symbols strings options line := fun state strings line => by
    unfold place
    simp only [expand_same h]
  induction lines generalizing state strings with
  | nil => rfl
  | cons line rest ih => simp only [addAll, hNote, hPlace, ih]

/-- The layout looks at symbols by their values only. -/
theorem layoutCode_same (h : symbols.Same others) (options : Options) (lines : List Line)
    (strings : StringPages) :
    layoutCode others options lines strings = layoutCode symbols options lines strings := by
  rw [layoutCode, layoutCode, LayoutState.addAll_same h]

end

/-! Bytes -/

namespace Environment

variable {first second : Environment} {line : Line} {operand : Operand}

/-- Environments that know the same names and natives. Labels may lie elsewhere,
and other names of functions may be wanted. -/
structure Like (first second : Environment) : Prop where
  symbols : first.symbols.Same second.symbols
  source : second.source = first.source

/-- An operand has the same value in both environments, unless it is a label of
the code that one of them moves. -/
theorem Like.integer (h : Like first second) {codeLabels : Bool}
    (hLabel : codeLabels = true → ∀ name, operand = .name name →
      second.labels.find? (line.qualify name) = first.labels.find? (line.qualify name)) :
    second.integer line operand codeLabels = first.integer line operand codeLabels := by
  unfold Environment.integer
  rw [h.symbols.intOperand]
  cases operand with
  | name name =>
      cases codeLabels with
      | true => simp only [codeLabel, hLabel rfl name rfl]
      | false => rfl
  | _ => rfl

theorem Like.ranged (h : Like first second) {least : Int} {greatest : Nat}
    {codeLabels : Bool} {what : Quantity}
    (hLabel : codeLabels = true → ∀ name, operand = .name name →
      second.labels.find? (line.qualify name) = first.labels.find? (line.qualify name)) :
    second.ranged line operand least greatest codeLabels what =
      first.ranged line operand least greatest codeLabels what := by
  rw [Environment.ranged, h.integer hLabel, Environment.ranged]

theorem Like.bytes (h : Like first second) (operands : List Operand) :
    second.bytes line operands = first.bytes line operands := by
  induction operands with
  | nil => rfl
  | cons operand rest ih => rw [Environment.bytes, h.ranged (by simp), ih, Environment.bytes]

theorem Like.float (h : Like first second) (opcode : Opcode) :
    second.float line opcode operand = first.float line opcode operand := by
  unfold Environment.float
  simp only [h.symbols.value?]

/-- A native gets the same index, whether it is named, numbered or looked up. -/
theorem Like.nativeIndex (h : Like first second) (opcode : Opcode) (natives : NativeTable) :
    second.nativeIndex line opcode operand natives =
      first.nativeIndex line opcode operand natives := by
  simp only [Environment.nativeIndex, Environment.native, h.symbols.data, h.source]

end Environment

/-- Formats that hold the distance to a label, or the name of a function. -/
def isRelocated (format : OperandFormat) : Bool :=
  format = .relative || format = .switch || format = .enter

/-- Formats of one number, which may be the address of a label. -/
def holdsAddress (format : OperandFormat) : Bool :=
  format = .word || format = .call || format = .unsigned24

namespace Environment

variable {first second : Environment} {line : Line} {primitive : Primitive} {natives : NativeTable}

/-- Operand bytes without a label and without a name do not depend on the layout. -/
theorem Like.operandBytes (h : Like first second) {address other : Nat}
    (hFormat : isRelocated primitive.opcode.format = false)
    (hLabel : ∀ name rest, primitive.operands = .name name :: rest →
      holdsAddress primitive.opcode.format = true →
      second.labels.find? (line.qualify name) = first.labels.find? (line.qualify name)) :
    second.operandBytes line primitive other natives =
      first.operandBytes line primitive address natives := by
  obtain ⟨opcode, operands⟩ := primitive
  dsimp only at hFormat hLabel
  unfold Environment.operandBytes
  dsimp only
  have hNumber : ∀ {operand : Operand} {least greatest what},
      second.ranged line operand least greatest false what =
        first.ranged line operand least greatest false what :=
    h.ranged fun hFalse => by cases hFalse
  -- where labels are allowed, the operand is the only one
  have hAddress : ∀ {operand : Operand} {rest least greatest what}, operands = operand :: rest →
      holdsAddress opcode.format = true →
      second.ranged line operand least greatest true what =
        first.ranged line operand least greatest true what := by
    intro operand rest least greatest what hOperands hKind
    exact h.ranged fun _ name hName => hLabel name rest (hName ▸ hOperands) hKind
  cases hKind : opcode.format with
  | none => rfl
  | byte | twoBytes | threeBytes => simp only [h.bytes]
  | word | call | unsigned24 =>
      cases operands with
      | nil => rfl
      | cons operand rest => simp only [hAddress rfl (by rw [hKind]; rfl)]
  | float =>
      cases operands with
      | nil => rfl
      | cons operand rest => simp only [h.float]
  | native =>
      rcases operands with _ | ⟨arguments, _ | ⟨returns, _ | ⟨name, rest⟩⟩⟩
      · rfl
      · rfl
      · rfl
      · simp only [hNumber, h.nativeIndex]
  | signed16 | unsigned16 =>
      cases operands with
      | nil => rfl
      | cons operand rest => simp only [hNumber]
  | relative | switch | enter =>
      rw [hKind] at hFormat
      cases hFormat

theorem cases_same (hLabels : second.labels = first.labels) (opcode : Opcode) (entry : Nat)
    (operands : List Operand) :
    second.cases line opcode entry operands = first.cases line opcode entry operands := by
  induction operands generalizing entry with
  | nil => rfl
  | cons operand rest ih =>
      cases operand with
      | case value label => simp only [Environment.cases, codeLabel, hLabels, ih]
      | _ => rfl

/-- Under the same labels and options all operand bytes are the same. -/
theorem Like.operandBytes_same (h : Like first second) (hLabels : second.labels = first.labels)
    (hOptions : second.options = first.options) (address : Nat) :
    second.operandBytes line primitive address natives =
      first.operandBytes line primitive address natives := by
  by_cases hFormat : isRelocated primitive.opcode.format = false
  · exact h.operandBytes hFormat fun _ _ _ _ => by rw [hLabels]
  · obtain ⟨opcode, operands⟩ := primitive
    have hNumber : ∀ {operand : Operand} {least greatest what},
        second.ranged line operand least greatest false what =
          first.ranged line operand least greatest false what :=
      h.ranged fun hFalse => by cases hFalse
    unfold Environment.operandBytes
    dsimp only at hFormat ⊢
    cases hKind : opcode.format with
    | relative =>
        cases operands with
        | nil => rfl
        | cons operand rest => cases operand <;> simp only [codeLabel, hLabels]
    | switch => simp only [cases_same hLabels]
    | enter =>
        rcases operands with _ | ⟨parameters, _ | ⟨frame, rest⟩⟩
        · rfl
        · rfl
        · simp only [hNumber, hOptions]
    | _ => exact absurd (by rw [hKind]; rfl) hFormat

end Environment

namespace CodeImage

variable {first second : Environment} {strings : StringPages}

/-- Primitives are encoded alike where symbols, labels and options agree. -/
theorem addPrimitives_same (h : first.Like second) (hLabels : second.labels = first.labels)
    (hOptions : second.options = first.options) (line : Line) (expected : Option Nat)
    (primitives : List Primitive) (image : CodeImage) :
    addPrimitives second line expected primitives image =
      addPrimitives first line expected primitives image := by
  induction primitives generalizing expected image with
  | nil => rfl
  | cons primitive rest ih =>
      simp only [addPrimitives, Environment.encode,
        h.operandBytes_same hLabels hOptions, hOptions, ih]

theorem addAll_same (h : first.Like second) (hLabels : second.labels = first.labels)
    (hOptions : second.options = first.options) (lines : List (Line × Option Nat))
    (image : CodeImage) :
    addAll second strings lines image = addAll first strings lines image := by
  induction lines generalizing image with
  | nil => rfl
  | cons head rest ih =>
      obtain ⟨line, expected⟩ := head
      simp only [addAll, addLine, expand_same h.symbols, addPrimitives_same h hLabels hOptions, ih]

end CodeImage

/-- A unit is emitted to the same code where symbols, labels and options agree. -/
theorem emitCode_same {first second : Environment} (h : first.Like second)
    (hLabels : second.labels = first.labels)
    (hOptions : second.options = first.options) (strings : StringPages) (layout : Layout)
    (lines : List Line) (natives : NativeTable) :
    emitCode second strings layout lines natives = emitCode first strings layout lines natives := by
  rw [emitCode, emitCode, CodeImage.addAll_same h hLabels hOptions]

/-! Words -/

theorem Symbols.Same.wordDenotes {symbols others : Symbols} (h : symbols.Same others)
    {labels : LabelTable} {source : Option WordSource} {word : Word} :
    WordDenotes others labels source word ↔ WordDenotes symbols labels source word := by
  cases source with
  | none => exact Iff.rfl
  | some source => simp only [WordDenotes, WordSource.Denotes, h.evaluate]

end ScriptBackend.Assembly
