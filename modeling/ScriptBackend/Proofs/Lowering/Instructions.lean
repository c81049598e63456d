import ScriptBackend.Proofs.Assembly.Limits
import ScriptBackend.Proofs.Assembly.Mnemonics
import ScriptBackend.Proofs.Lowering.Data
import ScriptBackend.Proofs.Lowering.StatementRules

/-!
Every instruction that generators emit is one that the assembler takes: its name
is known, its operands are of the kinds that its format asks for, and the labels
it names are defined in the code around it.
-/
namespace ScriptBackend.Lowering

open ScriptBackend.Assembly

/-- A statement of code: a label, or an instruction that suits. -/
def SuitsStatement (names : Names) (statement : Statement) : Prop :=
  match statement.content with
  | .empty => True
  | .instruction mnemonic operands => Suited names mnemonic operands
  | .directive _ => False

/-- Code in which every statement suits. -/
def SuitsCode (names : Names) (code : Code) : Prop :=
  ∀ statement ∈ code, SuitsStatement names statement

/-- The names that code mentions are there: the functions of the program, the
labels that the code defines and the natives that it calls. -/
structure Provides (setting : Setting) (names : Names) (code : Code) : Prop where
  functions : ∀ id name, setting.program.functionName? id = some name → names.isLabel name
  labels : ∀ label ∈ definedLabels code, names.isLabel label
  natives : ∀ statement ∈ code, ∀ name, calledNative? statement = some (Text.upperCased name) →
    (setting.natives.named? name).isSome → names.isNative (Text.upperCased name)

/-! Instructions of operators -/

/-- The instruction of a family for an operator, if it has one. -/
def Family.opcode? : Family → BinaryOp → Option Opcode
  | .int, .add => some .iadd
  | .int, .sub => some .isub
  | .int, .mul => some .imul
  | .int, .div => some .idiv
  | .int, .mod => some .imod
  | .int, .bitAnd => some .iand
  | .int, .bitOr => some .ior
  | .int, .bitXor => some .ixor
  | .int, .eq => some .ieq
  | .int, .ne => some .ine
  | .int, .gt => some .igt
  | .int, .ge => some .ige
  | .int, .lt => some .ilt
  | .int, .le => some .ile
  | .float, .add => some .fadd
  | .float, .sub => some .fsub
  | .float, .mul => some .fmul
  | .float, .div => some .fdiv
  | .float, .mod => some .fmod
  | .float, .eq => some .feq
  | .float, .ne => some .fne
  | .float, .gt => some .fgt
  | .float, .ge => some .fge
  | .float, .lt => some .flt
  | .float, .le => some .fle
  | .vector, .add => some .vadd
  | .vector, .sub => some .vsub
  | .vector, .mul => some .vmul
  | .vector, .div => some .vdiv
  | _, _ => none

/-- Each operator of a family has the mnemonic of an opcode. -/
theorem Family.mnemonic?_eq (family : Family) (op : BinaryOp) :
    family.mnemonic? op = (family.opcode? op).map Opcode.mnemonic := by
  cases family <;> cases op <;> rfl

theorem Family.format_of_opcode? {family : Family} {op : BinaryOp} {opcode : Opcode}
    (h : family.opcode? op = some opcode) : opcode.format = .none := by
  cases family <;> cases op <;> cases h <;> rfl

theorem operation_ok {op : BinaryOp} {left right : Ty} {family : Family} {mnemonic : String}
    (h : operation op left right = .ok (family, mnemonic)) :
    family = Family.ofOperands left right ∧ family.mnemonic? op = some mnemonic := by
  unfold operation at h
  dsimp only at h
  split at h
  · next found hFound =>
      cases h
      exact ⟨rfl, hFound⟩
  · cases h

/-- An operator is lowered to the instruction that its family has for it. -/
theorem exists_opcode_of_operation {op : BinaryOp} {left right : Ty} {family : Family}
    {mnemonic : String} (h : operation op left right = .ok (family, mnemonic)) :
    ∃ opcode, family.opcode? op = some opcode ∧ opcode.mnemonic = mnemonic := by
  obtain ⟨_, hMnemonic⟩ := operation_ok h
  rw [Family.mnemonic?_eq] at hMnemonic
  exact Option.map_eq_some_iff.mp hMnemonic

section Statements

variable {names : Names}

@[simp] theorem suitsCode_nil : SuitsCode names [] := by
  intro statement h
  cases h

@[simp] theorem suitsCode_cons (statement : Statement) (rest : Code) :
    SuitsCode names (statement :: rest) ↔ SuitsStatement names statement ∧ SuitsCode names rest :=
  List.forall_mem_cons

@[simp] theorem suitsCode_append (first second : Code) :
    SuitsCode names (first ++ second) ↔ SuitsCode names first ∧ SuitsCode names second :=
  List.forall_mem_append

@[simp] theorem suits_ofLabel (label : String) : SuitsStatement names (.ofLabel label) :=
  trivial

@[simp] theorem suits_commented (comment : String) (statement : Statement) :
    SuitsStatement names (commented comment statement) ↔ SuitsStatement names statement :=
  Iff.rfl

theorem suits_plain (opcode : Opcode) (h : opcode.format = .none) :
    SuitsStatement names (plain opcode.mnemonic) :=
  Suited.primitive (Opcode.named?_mnemonic opcode) (Expansion.suits_bare h)

theorem suits_byte (opcode : Opcode) (h : opcode.format = .byte) (number : Nat) :
    SuitsStatement names (counted opcode.mnemonic [number]) := by
  refine Suited.primitive (Opcode.named?_mnemonic opcode) ?_
  simp [Primitive.Suits, h]

/-- Whether a name is that of a shorthand that takes an integer. -/
def isCounted (mnemonic : String) : Bool :=
  Shorthand.all.any fun shorthand => shorthand.mnemonic == mnemonic && shorthand.rule.takesInteger

theorem suits_counted {mnemonic : String} (h : isCounted mnemonic = true) (number : Nat) :
    SuitsStatement names (counted mnemonic [number]) := by
  obtain ⟨shorthand, hAll, hShorthand⟩ := List.any_eq_true.mp h
  rw [Bool.and_eq_true, beq_iff_eq] at hShorthand
  obtain ⟨rfl, hTakes⟩ := hShorthand
  obtain ⟨hOpcode, hNamed⟩ := Shorthand.named?_mnemonic hAll
  exact Suited.integer hOpcode hNamed hTakes rfl

/-- A jump suits the assembler when its label is one of the unit. -/
theorem suits_jump (opcode : Opcode) (h : opcode.format = .relative) {label : String}
    (hLabel : names.isLabel label) : SuitsStatement names (naming opcode.mnemonic label) := by
  refine Suited.primitive (Opcode.named?_mnemonic opcode) ?_
  simpa [Primitive.Suits, h] using hLabel

theorem suits_call {label : String} (hLabel : names.isLabel label) :
    SuitsStatement names (naming "CALL" label) :=
  Suited.primitive (Opcode.named?_mnemonic .call) hLabel

/-- Operands of a push suit when each of them is a number, a name of the unit or
a known constant. -/
theorem suits_push {operands : List Operand} (hSome : operands ≠ [])
    (h : ∀ operand ∈ operands, operand.IsPushable names) :
    SuitsStatement names (.ofInstruction "PUSH_CONST" operands) := by
  have hAll : ⟨"PUSH_CONST", .pushConstants⟩ ∈ Shorthand.all := by simp [Shorthand.all]
  obtain ⟨hOpcode, hShorthand⟩ := Shorthand.named?_mnemonic hAll
  exact Suited.pushes hOpcode hShorthand rfl hSome h

theorem suits_pushCount (number : Nat) : SuitsStatement names (counted "PUSH_CONST" [number]) :=
  suits_push (by simp) (by simp [Operand.IsPushable])

theorem suits_pushText (text : String) :
    SuitsStatement names (.ofInstruction "PUSH_STRING" [.text text]) := by
  have hAll : ⟨"PUSH_STRING", .pushText⟩ ∈ Shorthand.all := by simp [Shorthand.all]
  obtain ⟨hOpcode, hShorthand⟩ := Shorthand.named?_mnemonic hAll
  exact Suited.text hOpcode hShorthand rfl rfl

end Statements

/-! Pieces of code -/

section Pieces

variable {setting : Setting} {names : Names} {code later : Code}

theorem definedLabels_subset (h : code ⊆ later) : definedLabels code ⊆ definedLabels later := by
  intro label hLabel
  obtain ⟨statement, hStatement, hOwn⟩ := List.mem_filterMap.mp hLabel
  exact List.mem_filterMap.mpr ⟨statement, h hStatement, hOwn⟩

/-- What is there for code is there for every part of it. -/
theorem Provides.mono (h : Provides setting names later) (hPart : code ⊆ later) :
    Provides setting names code where
  functions := h.functions
  labels := fun label hLabel => h.labels label (definedLabels_subset hPart hLabel)
  natives := fun statement hStatement => h.natives statement (hPart hStatement)

/-- In a run of numbers every word is a number, unless the run is a single word. -/
theorem isNumber_of_isChain {run : List Datum}
    (hChain : run.IsChain fun a b => (a.isNumber && b.isNumber) = true) {word : Datum}
    (hWord : word ∈ run) : word.isNumber = true ∨ run = [word] := by
  induction run with
  | nil => cases hWord
  | cons first rest ih =>
      cases rest with
      | nil => exact .inr (by rw [List.mem_singleton.mp hWord])
      | cons second others =>
          obtain ⟨hBoth, hRest⟩ := List.isChain_cons_cons.mp hChain
          rw [Bool.and_eq_true] at hBoth
          left
          rcases List.mem_cons.mp hWord with rfl | hLater
          · exact hBoth.1
          · rcases ih hRest hLater with hNumber | hSingle
            · exact hNumber
            · cases hSingle
              exact hBoth.2

/-- A run of data suits as one push. It is not empty, and names of functions are
labels of the unit. -/
theorem suits_pushRun {program : Program} {run : List Datum} (hSome : run ≠ [])
    (hChain : run.IsChain fun a b => (a.isNumber && b.isNumber) = true)
    (hKnown : ∀ word ∈ run, word.IsKnown program)
    (hFunctions : ∀ id name, program.functionName? id = some name → names.isLabel name) :
    SuitsStatement names (pushRun run) := by
  unfold pushRun
  split
  · exact suits_pushText _
  · next hNoText =>
      refine suits_push (by simpa using hSome) fun operand hOperand => ?_
      obtain ⟨word, hWord, rfl⟩ := List.mem_map.mp hOperand
      cases word with
      | int value => trivial
      | float value => trivial
      | text value =>
          rcases isNumber_of_isChain hChain hWord with hNumber | hSingle
          · cases hNumber
          · exact absurd hSingle (hNoText value)
      | address function =>
          obtain ⟨id, hName⟩ := hKnown _ hWord function rfl
          exact hFunctions id function hName

/-- Data that the program knows suits when pushed, since the functions that it
names are in the unit. -/
theorem suits_pushData {words : List Datum} (hKnown : ∀ word ∈ words, word.IsKnown setting.program)
    (hProvides : Provides setting names code) : SuitsCode names (pushData words) := by
  intro statement hStatement
  obtain ⟨run, hRun, rfl⟩ := List.mem_map.mp hStatement
  refine suits_pushRun (List.ne_nil_of_mem_splitBy hRun) (List.isChain_of_mem_splitBy hRun)
    (fun word hWord => hKnown word ?_) hProvides.functions
  rw [← List.flatten_splitBy (fun a b => a.isNumber && b.isNumber) words]
  exact List.mem_flatten.mpr ⟨run, hRun, hWord⟩

theorem suits_dropWords (count : Nat) : SuitsCode names (dropWords count) := by
  intro statement hStatement
  rw [List.eq_of_mem_replicate hStatement]
  exact suits_plain .drop rfl

theorem suits_atOffset (offset : Nat) : SuitsCode names (atOffset offset) := by
  unfold atOffset
  split
  · exact suitsCode_nil
  · simpa using suits_counted (by decide) offset

theorem suits_componentConversion (ty : Ty) : SuitsCode names (componentConversion ty) := by
  have hFloat : SuitsStatement names (plain "I2F") := suits_plain .i2f rfl
  unfold componentConversion
  split <;> simp [hFloat]

theorem suits_widening (family : Family) (operand : Ty) :
    SuitsCode names (family.widening operand) := by
  have hFloat : SuitsStatement names (plain "I2F") := suits_plain .i2f rfl
  have hVector : SuitsStatement names (plain "F2V") := suits_plain .f2v rfl
  unfold Family.widening
  split <;> split <;> simp [hFloat, hVector]

theorem suits_conversion {sizes : Sizes} {source target : Ty}
    (h : conversion sizes source target = .ok code) : SuitsCode names code := by
  have hFloat : SuitsStatement names (plain "I2F") := suits_plain .i2f rfl
  have hInt : SuitsStatement names (plain "F2I") := suits_plain .f2i rfl
  have hVector : SuitsStatement names (plain "F2V") := suits_plain .f2v rfl
  unfold conversion at h
  split at h
  iterate 4
    cases h
    simp [hFloat, hInt, hVector]
  obtain ⟨rfl, _⟩ := unchanged_ok h
  exact suitsCode_nil

/-- An operator is lowered to an instruction without operands. -/
theorem suits_operation {op : BinaryOp} {left right : Ty} {family : Family} {mnemonic : String}
    (h : operation op left right = .ok (family, mnemonic)) :
    SuitsStatement names (plain mnemonic) := by
  obtain ⟨opcode, hOpcode, rfl⟩ := exists_opcode_of_operation h
  exact suits_plain opcode (Family.format_of_opcode? hOpcode)

theorem suits_negation (ty : Ty) :
    SuitsStatement names (plain ((Family.ofTy ty).letter ++ "NEG")) := by
  cases Family.ofTy ty with
  | int => exact suits_plain .ineg rfl
  | float => exact suits_plain .fneg rfl
  | vector => exact suits_plain .vneg rfl

theorem suits_decision (op : BinaryOp) {finish : String} (h : names.isLabel finish) :
    SuitsCode names (decision op finish) := by
  have hDup : SuitsStatement names (plain "DUP") := suits_plain .dup rfl
  have hNot : SuitsStatement names (plain "INOT") := suits_plain .inot rfl
  have hDrop : SuitsStatement names (plain "DROP") := suits_plain .drop rfl
  have hJump : SuitsStatement names (naming "JZ" finish) := suits_jump .jz rfl h
  unfold decision
  split <;> simp [hDup, hNot, hDrop, hJump]

theorem suits_spillCode (frame : Frame) (size : Nat) : SuitsCode names (spillCode frame size) := by
  have hStore : SuitsStatement names (plain "STORE_N") := suits_plain .storeN rfl
  have hLocal : ∀ slot, SuitsStatement names (counted "LOCAL" [slot]) := suits_counted (by decide)
  have hWord : ∀ slot, SuitsStatement names (counted "LOCAL_STORE" [slot]) :=
    suits_counted (by decide)
  unfold spillCode
  split <;> simp [hStore, hLocal, hWord, suits_pushCount]

theorem isCounted_mnemonic (region : Region) : isCounted (Region.mnemonic region) = true := by
  cases region <;> decide

theorem isCounted_load (region : Region) :
    isCounted (Region.mnemonic region ++ "_LOAD") = true := by
  cases region <;> decide

theorem isCounted_store (region : Region) :
    isCounted (Region.mnemonic region ++ "_STORE") = true := by
  cases region <;> decide

theorem suits_variableAddress {id : Nat} (h : setting.variableAddress id = .ok code) :
    SuitsCode names code := by
  obtain ⟨declared, _, h⟩ := Outcome.bind_eq_ok.mp h
  obtain ⟨slot, _, h⟩ := Outcome.bind_eq_ok.mp h
  split at h
  · cases h
    simpa using suits_counted (by decide) _
  · cases h
    simpa using suits_counted (isCounted_mnemonic slot.region) _

/-- The code that loads a variable suits, in whatever region the variable lives. -/
theorem suits_variableLoad {id : Nat} (h : setting.variableLoad id = .ok code) :
    SuitsCode names code := by
  have hLoad : SuitsStatement names (plain "LOAD") := suits_plain .load rfl
  have hWords : SuitsStatement names (plain "LOAD_N") := suits_plain .loadN rfl
  obtain ⟨declared, slot, _, _, hLoads⟩ := variableLoad_loads h
  cases hLoads with
  | through single isRef => simpa [hLoad] using suits_counted (by decide) _
  | word single isValue => simpa using suits_counted (isCounted_load slot.region) _
  | words several address_code =>
      simp [suits_pushCount, suits_variableAddress address_code, hWords]

/-- The code that stores a variable suits, in whatever region the variable lives. -/
theorem suits_variableStore {id : Nat} (h : setting.variableStore id = .ok code) :
    SuitsCode names code := by
  have hStore : SuitsStatement names (plain "STORE") := suits_plain .store rfl
  obtain ⟨declared, _, h⟩ := Outcome.bind_eq_ok.mp h
  obtain ⟨slot, _, h⟩ := Outcome.bind_eq_ok.mp h
  dsimp only at h
  split at h
  · cases h
    simpa [hStore] using suits_counted (by decide) _
  · cases h
    simpa using suits_counted (isCounted_store slot.region) _

/-- A call of a native suits if the native is there. -/
theorem suits_nativeCall {native : NativeSignature} {call : Statement}
    (h : nativeCall setting native = .ok call)
    (hNatives : ∀ name, calledNative? call = some (Text.upperCased name) →
      (setting.natives.named? name).isSome → names.isNative (Text.upperCased name)) :
    SuitsStatement names call := by
  obtain ⟨_, _, hFound, rfl⟩ := nativeCall_ok h
  exact Suited.primitive (Opcode.named?_mnemonic .native) (hNatives native.name rfl hFound)

end Pieces
end ScriptBackend.Lowering
