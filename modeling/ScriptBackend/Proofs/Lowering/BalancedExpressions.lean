import ScriptBackend.Proofs.Lowering.LabelUse
import ScriptBackend.Proofs.Lowering.SizedExpressions
import ScriptBackend.Proofs.Lowering.StackShapes

/-!
The code of an expression leaves exactly the words of its type on the stack,
whichever way the machine goes through it, and reads nothing below them.
-/
namespace ScriptBackend.Lowering

open ScriptBackend.Assembly

/-- What goes into a function of a signature and comes out of it. -/
def Setting.interface (setting : Setting) (parameters : List Ty) (result : Ty) : Interface :=
  ⟨totalWords setting.sizes.of parameters, setting.sizes.of result⟩

/-- Lines that fit a program: calls are taken to do what the signature of the
function says, or that of the pointer it is called through, a function leaves
with its results on the stack and nothing else, and the stack has one shape at
all labels of the program. -/
structure ShapedLine.Fits (setting : Setting) (base : Shape) (line : ShapedLine) : Prop where
  call : ∀ name, line.statement.content = .instruction "CALL" [.name name] →
    ∃ function parameters, function ∈ setting.program.functions ∧ function.name = name ∧
      parameterTypes setting function = .ok parameters ∧
      line.called = setting.interface parameters function.result
  callThrough : line.statement.content = .instruction "CALLINDIRECT" [] →
    ∃ prototype ∈ setting.program.prototypes,
      line.called = setting.interface prototype.parameters prototype.result
  leave : transfer line.statement = .leave → ∃ results,
    effect? line.called line.statement = some (.exchange results 0) ∧
      line.shape.length = results + base.length
  label : ∀ label, line.statement.label = some label → isUserLabel label = true → line.shape = base

/-- Code that turns a shape of the stack into another with lines that fit. -/
abbrev Keeps (setting : Setting) (base : Shape) (promised : LabelShapes) (code : Code)
    (before after : Shape) : Prop :=
  Balanced (ShapedLine.Fits setting base) promised [] code before after

section Statements

variable {setting : Setting} {base : Shape} {promised : LabelShapes} {shape : Shape}
  {statement : Statement} {takes gives : Nat}

/-- Whether a statement has no label and neither calls a function of the program
nor returns from one. -/
def isQuiet (statement : Statement) : Bool :=
  statement.label.isNone &&
    match statement.content with
    | .instruction mnemonic _ =>
        mnemonic != "CALL" && mnemonic != "CALLINDIRECT" && mnemonic != "LEAVE"
    | _ => true

/-- An instruction that neither jumps nor stands at a label fits wherever its
stack is, since nothing else leads there. -/
theorem fits_of_isQuiet (h : isQuiet statement = true) (shape : Shape) (called : Interface) :
    ShapedLine.Fits setting base ⟨statement, shape, called⟩ := by
  rw [isQuiet, Bool.and_eq_true] at h
  refine ⟨fun name hContent => ?_, fun hContent => ?_, fun hLeave => ?_, fun label hLabel => ?_⟩
  · dsimp only at hContent
    rw [hContent] at h
    simp at h
  · dsimp only at hContent
    rw [hContent] at h
    simp at h
  · obtain ⟨operands, hContent⟩ := content_of_leave hLeave
    dsimp only at hContent
    rw [hContent] at h
    simp at h
  · dsimp only at hLabel
    rw [hLabel] at h
    simp at h

/-- A label of the program stands where the stack is as everywhere in the
program. -/
theorem fits_label {label : String} (h : isUserLabel label = true → shape = base) :
    ShapedLine.Fits setting base ⟨.ofLabel label, shape, default⟩ where
  call := fun name hName => by cases hName
  callThrough := fun hThrough => by cases hThrough
  leave := fun hLeave => by cases hLeave
  label := fun other hOther hUser => by
    cases hOther
    exact h hUser

/-- A label that lowering made up may stand anywhere. -/
theorem fits_marked {number : Nat} {label : String} (h : Marked number label) :
    ShapedLine.Fits setting base ⟨.ofLabel label, shape, default⟩ :=
  fits_label fun hUser => by
    rw [h.made] at hUser
    cases hUser

/-- A statement that takes some words and leaves others. -/
theorem keeps_exchange (hQuiet : isQuiet statement = true) (hTransfer : transfer statement = .pass)
    (hEffect : effect? default statement = some (.exchange takes gives)) (taken : Shape)
    (hTaken : taken.length = takes) :
    Keeps setting base promised [statement] (taken ++ shape) (unknown gives ++ shape) := by
  refine Balanced.single statement default (fits_of_isQuiet hQuiet _ _)
    ⟨_, _, hEffect, .exchange shape hTaken, ?_⟩
  rw [hTransfer]

theorem isQuiet_plain {opcode : Opcode} (hTraffic : opcode.traffic? = some (takes, gives)) :
    isQuiet (plain opcode.mnemonic) = true := by
  have hCall : opcode.mnemonic ≠ "CALL" :=
    Opcode.mnemonic_ne .call (by rintro rfl; cases hTraffic)
  have hIndirect : opcode.mnemonic ≠ "CALLINDIRECT" :=
    Opcode.mnemonic_ne .callindirect (by rintro rfl; cases hTraffic)
  have hLeave : opcode.mnemonic ≠ "LEAVE" :=
    Opcode.mnemonic_ne .leave (by rintro rfl; cases hTraffic)
  simp [isQuiet, plain, Statement.ofInstruction, hCall, hIndirect, hLeave]

/-- An instruction without operands takes as many words as its opcode says and
gives unknown ones for them. -/
theorem keeps_plain (opcode : Opcode) (hFormat : opcode.format = .none)
    (hTraffic : opcode.traffic? = some (takes, gives)) (taken : Shape)
    (hTaken : taken.length = takes) :
    Keeps setting base promised [plain opcode.mnemonic] (taken ++ shape) (unknown gives ++ shape) :=
  keeps_exchange (isQuiet_plain hTraffic) (transfer_plain hFormat)
    ((effect_primitive opcode []).trans (opcodeEffect_of_traffic hTraffic [])) taken hTaken

theorem isQuiet_shorthand {shorthand : Shorthand} (h : shorthand ∈ Shorthand.all)
    (operands : List Operand) : isQuiet (.ofInstruction shorthand.mnemonic operands) = true := by
  have hAll : ∀ shorthand ∈ Shorthand.all,
      (shorthand.mnemonic != "CALL" && shorthand.mnemonic != "CALLINDIRECT" &&
        shorthand.mnemonic != "LEAVE") = true := by decide
  exact hAll shorthand h

/-- An instruction with a number has the traffic of its mnemonic, whatever the
number is. -/
theorem keeps_counted {mnemonic : String} (hTraffic : hasTraffic mnemonic takes gives = true)
    (number : Nat) (taken : Shape) (hTaken : taken.length = takes) :
    Keeps setting base promised [counted mnemonic [number]] (taken ++ shape)
      (unknown gives ++ shape) := by
  have hEffect : effect? default (counted mnemonic [number]) = some (.exchange takes gives) :=
    effect_counted hTraffic number
  obtain ⟨shorthand, hAll, hShorthand⟩ := List.any_eq_true.mp hTraffic
  simp only [Bool.and_eq_true, beq_iff_eq] at hShorthand
  obtain ⟨rfl, _⟩ := hShorthand
  exact keeps_exchange (isQuiet_shorthand hAll _) (transfer_shorthand hAll _) hEffect taken hTaken

/-- A comment changes nothing. -/
theorem ShapedLine.Fits.commented {called : Interface}
    (h : ShapedLine.Fits setting base ⟨statement, shape, called⟩)
    (comment : String) : ShapedLine.Fits setting base
      ⟨commented comment statement, shape, called⟩ where
  call := h.call
  callThrough := h.callThrough
  leave := fun hLeave => by
    dsimp only at hLeave ⊢
    rw [transfer_commented] at hLeave
    rw [effect_commented]
    exact h.leave hLeave
  label := h.label

theorem Keeps.commented {after : Shape} (h : Keeps setting base promised [statement] shape after)
    (comment : String) : Keeps setting base promised [commented comment statement] shape after := by
  obtain ⟨listing, hCode, hFits, _, hChecks⟩ := h
  obtain ⟨line, rfl, hLine⟩ := List.map_eq_singleton_iff.mp hCode
  subst hLine
  refine ⟨[⟨Lowering.commented comment line.statement, line.shape, line.called⟩], rfl, ?_,
    List.nil_subset _, fun known hKnown hPromised => ?_⟩
  · intro other hOther
    rw [List.mem_singleton.mp hOther]
    exact ShapedLine.Fits.commented (hFits line (by simp)) comment
  · cases hChecks known hKnown hPromised with
    | cons follows others =>
        have hCommented := Listing.Checks.cons (follows.commented comment) others
        exact hCommented

/-! Pushes -/

def countWord (size : Nat) : Word :=
  .ofInt (Int64.ofNat size).toInt

theorem countWord_toNat {size : Nat} (h : size < wordLimit) :
    (countWord size).bits.toNat = size := by
  have hSize : size < 2 ^ 32 := h
  have hInt : (Int64.ofNat size).toInt = size := Int64.toInt_ofNat_of_lt (by omega)
  rw [countWord, hInt, Word.ofInt]
  simp only [UInt64.toNat_ofNat']
  omega

theorem counts_ofNat {size : Nat} (h : size < 0x8000000000000000) :
    counts (Int64.ofNat size) = size := by
  have hInt : (Int64.ofNat size).toInt = size := Int64.toInt_ofNat_of_lt h
  rw [counts, hInt]
  rfl

theorem keeps_push (operands : List Operand) :
    Keeps setting base promised [.ofInstruction "PUSH_CONST" operands] shape
      (unknown operands.length ++ shape) := by
  have hForget := Effect.Turns.forget (operands.map pushed).reverse shape
  rw [List.length_reverse, List.length_map] at hForget
  exact .single _ default (fits_of_isQuiet rfl _ _) ⟨_, _, effect_push operands, hForget, rfl⟩

/-- A count that is pushed is known on the stack, where loads and stores of many
words read it. -/
theorem keeps_pushCount (size : Nat) :
    Keeps setting base promised [counted "PUSH_CONST" [size]] shape
      (some (countWord size) :: shape) :=
  .single _ default (fits_of_isQuiet rfl _ _) ⟨_, _, effect_push _, .push _ shape, rfl⟩

theorem keeps_pushRun (run : List Datum) :
    Keeps setting base promised [pushRun run] shape (unknown run.length ++ shape) := by
  unfold pushRun
  split
  · exact keeps_exchange rfl rfl (effect_pushText _) [] rfl
  · rw [← List.length_map Datum.operand]
    exact keeps_push _

theorem keeps_pushRuns (runs : List (List Datum)) :
    Keeps setting base promised (runs.map pushRun) shape
      (unknown runs.flatten.length ++ shape) := by
  induction runs generalizing shape with
  | nil => exact .nil shape
  | cons run rest ih =>
      rw [List.flatten_cons, List.length_append, ← unknown_append]
      exact (keeps_pushRun run).append ih

/-- The words of a value are pushed in runs, and lie on the stack one for each
datum. -/
theorem keeps_pushData (words : List Datum) :
    Keeps setting base promised (pushData words) shape (unknown words.length ++ shape) := by
  have hWords : (words.splitBy fun a b => a.isNumber && b.isNumber).flatten = words :=
    List.flatten_splitBy _ words
  rw [← congrArg List.length hWords]
  exact keeps_pushRuns _

/-! Instructions that move as many words as the stack says -/

/-- Loading takes an address and a known count, and gives as many words as the
count says. -/
theorem keeps_loadMany {size : Nat} (hSmall : size < wordLimit) (address : Option Word) :
    Keeps setting base promised [plain "LOAD_N"] (address :: some (countWord size) :: shape)
      (unknown size ++ shape) := by
  have hTurns := Effect.Turns.loadMany address (countWord size) shape
  rw [countWord_toNat hSmall] at hTurns
  exact .single _ default (fits_of_isQuiet rfl _ _) ⟨_, _, effect_primitive .loadN [], hTurns, rfl⟩

/-- Storing takes an address, a known count and as many words as the count says. -/
theorem keeps_storeMany {size : Nat} (hSmall : size < wordLimit) (address : Option Word) :
    Keeps setting base promised [plain "STORE_N"]
      (address :: some (countWord size) :: (unknown size ++ shape)) shape := by
  have hLength : (unknown size).length = (countWord size).bits.toNat := by
    rw [countWord_toNat hSmall, unknown, List.length_replicate]
  exact .single _ default (fits_of_isQuiet rfl _ _)
    ⟨_, _, effect_primitive .storeN [], .storeMany hLength, rfl⟩

/-! Jumps -/

/-- A jump needs the stack that its label promises. Behind it any stack may be
assumed, since control does not come there. -/
theorem keeps_jump {label : String} {after : Shape} (h : (label, shape) ∈ promised) :
    Keeps setting base promised [naming "J" label] shape after := by
  have hTurns : Effect.Turns (.exchange 0 0) ([] ++ shape) (unknown 0 ++ shape) :=
    .exchange shape rfl
  exact .single _ default (fits_of_isQuiet rfl _ _) ⟨_, _, effect_primitive .j _, hTurns, h⟩

/-- A test takes the tested word, and its label must promise the stack without
it. -/
theorem keeps_test {label : String} (h : (label, shape) ∈ promised) (word : Option Word) :
    Keeps setting base promised [naming "JZ" label] (word :: shape) shape := by
  have hTurns : Effect.Turns (.exchange 1 0) ([word] ++ shape) (unknown 0 ++ shape) :=
    .exchange shape rfl
  exact .single _ default (fits_of_isQuiet rfl _ _) ⟨_, _, effect_primitive .jz _, hTurns, rfl, h⟩

/-- The test at the head of a counted loop takes limit and counter at once. -/
theorem keeps_limit {label : String} (h : (label, shape) ∈ promised) (limit count : Option Word) :
    Keeps setting base promised [naming "ILT_JZ" label] (limit :: count :: shape) shape := by
  have hTurns : Effect.Turns (.exchange 2 0) ([limit, count] ++ shape) (unknown 0 ++ shape) :=
    .exchange shape rfl
  exact .single _ default (fits_of_isQuiet rfl _ _) ⟨_, _,
    effect_primitive .iltJz _, hTurns, rfl, h⟩

/-! Pieces of the code of expressions -/

theorem keeps_dropWords (count : Nat) :
    Keeps setting base promised (dropWords count) (unknown count ++ shape) shape := by
  induction count with
  | zero => exact .nil shape
  | succ count ih =>
      have hDrop : Keeps setting base promised [plain "DROP"] (none :: (unknown count ++ shape))
          (unknown count ++ shape) := keeps_plain .drop rfl rfl [none] rfl
      exact hDrop.append ih

/-- An offset is added to the address on top, or left out when it is zero. -/
theorem keeps_atOffset (offset : Nat) :
    Keeps setting base promised (atOffset offset) (none :: shape) (none :: shape) := by
  unfold atOffset
  split
  · exact .nil _
  · have hTraffic : hasTraffic "IOFFSET_CONST" 1 1 = true := by decide
    exact keeps_counted hTraffic offset [none] rfl

theorem keeps_componentConversion (ty : Ty) :
    Keeps setting base promised (componentConversion ty) (none :: shape) (none :: shape) := by
  unfold componentConversion
  split
  · exact .nil _
  · exact keeps_plain .i2f rfl rfl [none] rfl

/-- Widening makes the words of an operand those of the family. -/
theorem keeps_widening {family : Family} {operand : Ty} (hOperand : IsOperand setting.sizes operand)
    (hVector : operand = .vector → family = .vector) :
    Keeps setting base promised (family.widening operand)
      (unknown (setting.sizes.of operand) ++ shape) (unknown family.words ++ shape) := by
  have hFloat : Keeps setting base promised [plain "I2F"] (none :: shape) (none :: shape) :=
    keeps_plain .i2f rfl rfl [none] rfl
  have hSpread : Keeps setting base promised [plain "F2V"] (none :: shape) (unknown 3 ++ shape) :=
    keeps_plain .f2v rfl rfl [none] rfl
  rcases hOperand with rfl | hOne
  · rw [hVector rfl]
    exact .nil _
  · have hOther := ne_vector_of_one hOne
    rw [hOne]
    cases family with
    | int => exact .nil _
    | float =>
        by_cases hInt : operand = .int
        · have hCode : Family.float.widening operand = [plain "I2F"] := by
            simp [Family.widening, hInt]
          exact hCode ▸ hFloat
        · have hCode : Family.float.widening operand = [] := by simp [Family.widening, hInt]
          exact hCode ▸ .nil _
    | vector =>
        by_cases hInt : operand = .int
        · have hCode : Family.vector.widening operand = [plain "I2F"] ++ [plain "F2V"] := by
            simp [Family.widening, hInt]
          exact hCode ▸ hFloat.append hSpread
        · have hCode : Family.vector.widening operand = [plain "F2V"] := by
            simp [Family.widening, hInt, hOther]
          exact hCode ▸ hSpread

/-- A conversion makes the words of one type those of another. -/
theorem keeps_conversion {source target : Ty} {code : Code}
    (h : conversion setting.sizes source target = .ok code) :
    Keeps setting base promised code (unknown (setting.sizes.of source) ++ shape)
      (unknown (setting.sizes.of target) ++ shape) := by
  have hFloat : Keeps setting base promised [plain "I2F"] (none :: shape) (none :: shape) :=
    keeps_plain .i2f rfl rfl [none] rfl
  have hInt : Keeps setting base promised [plain "F2I"] (none :: shape) (none :: shape) :=
    keeps_plain .f2i rfl rfl [none] rfl
  have hSpread : Keeps setting base promised [plain "F2V"] (none :: shape) (unknown 3 ++ shape) :=
    keeps_plain .f2v rfl rfl [none] rfl
  unfold conversion at h
  split at h
  · cases h
    exact hFloat
  · cases h
    exact hInt
  · cases h
    exact hSpread
  · cases h
    exact hFloat.append hSpread
  · obtain ⟨rfl, hSame⟩ := unchanged_ok h
    have hSize : setting.sizes.of source = setting.sizes.of target := by
      rcases hSame with rfl | ⟨hSource, hTarget⟩
      · rfl
      · rw [hSource, hTarget]
    rw [hSize]
    exact .nil _

/-- A decision leaves the value at the end of the chain, and nothing where the
chain goes on. -/
theorem keeps_decision (op : BinaryOp) {finish : String} (h : (finish, none :: shape) ∈ promised) :
    Keeps setting base promised (decision op finish) (none :: shape) shape := by
  have hDup : Keeps setting base promised [plain "DUP"] (none :: shape) (none :: none :: shape) :=
    keeps_plain .dup rfl rfl [none] rfl
  have hNot : Keeps setting base promised [plain "INOT"] (none :: none :: shape)
      (none :: none :: shape) := keeps_plain .inot rfl rfl [none] rfl
  have hDrop : Keeps setting base promised [plain "DROP"] (none :: shape) shape :=
    keeps_plain .drop rfl rfl [none] rfl
  have hEnd := (keeps_test h none).append hDrop
  unfold decision
  split
  · exact hDup.append (hNot.append hEnd)
  · exact hDup.append hEnd

/-- A number or a vector is negated in place, with as many words as before. -/
theorem keeps_negation {ty : Ty} (hOperand : IsOperand setting.sizes ty) :
    Keeps setting base promised [plain ((Family.ofTy ty).letter ++ "NEG")]
      (unknown (setting.sizes.of ty) ++ shape) (unknown (setting.sizes.of ty) ++ shape) := by
  rcases hOperand with rfl | hOne
  · exact keeps_plain .vneg rfl rfl (unknown 3) rfl
  · rw [hOne]
    cases hFamily : Family.ofTy ty with
    | int => exact keeps_plain .ineg rfl rfl [none] rfl
    | float => exact keeps_plain .fneg rfl rfl [none] rfl
    | vector =>
        unfold Family.ofTy at hFamily
        split at hFamily
        · cases hFamily
        · cases hOne
        · cases hFamily

theorem Family.ofOperands_of_left {left : Ty} (right : Ty) (h : left = .vector) :
    Family.ofOperands left right = .vector := by
  unfold Family.ofOperands
  rw [if_pos (.inl h)]

theorem Family.ofOperands_of_right {right : Ty} (left : Ty) (h : right = .vector) :
    Family.ofOperands left right = .vector := by
  unfold Family.ofOperands
  rw [if_pos (.inr h)]

/-- The instruction of an operator takes two values of its family. -/
theorem keeps_operation {family : Family} {op : BinaryOp} {mnemonic : String}
    (h : family.mnemonic? op = some mnemonic) :
    Keeps setting base promised [plain mnemonic]
      (unknown family.words ++ (unknown family.words ++ shape))
      (unknown (if op.isLogical then 1 else family.words) ++ shape) := by
  rw [Family.mnemonic?_eq] at h
  obtain ⟨opcode, hOpcode, rfl⟩ := Option.map_eq_some_iff.mp h
  have hTraffic : opcode.traffic? =
      some (family.words + family.words, if op.isLogical then 1 else family.words) := by
    cases family <;> cases op <;> cases hOpcode <;> rfl
  rw [unknown_append]
  exact keeps_plain opcode (Family.format_of_opcode? hOpcode) hTraffic _ (by simp [unknown])

/-! Variables -/

theorem hasTraffic_mnemonic (region : Region) : hasTraffic (Region.mnemonic region) 0 1 = true := by
  cases region <;> decide

theorem hasTraffic_load (region : Region) :
    hasTraffic (Region.mnemonic region ++ "_LOAD") 0 1 = true := by
  cases region <;> decide

theorem hasTraffic_store (region : Region) :
    hasTraffic (Region.mnemonic region ++ "_STORE") 1 0 = true := by
  cases region <;> decide

theorem keeps_localLoad (index : Nat) :
    Keeps setting base promised [counted "LOCAL_LOAD" [index]] shape (none :: shape) := by
  have hTraffic : hasTraffic "LOCAL_LOAD" 0 1 = true := by decide
  exact keeps_counted hTraffic index [] rfl

/-- The address of a variable is one word, in whatever region the variable lives. -/
theorem keeps_variableAddress {id : Nat} {code : Code} (h : setting.variableAddress id = .ok code) :
    Keeps setting base promised code shape (none :: shape) := by
  obtain ⟨declared, _, h⟩ := Outcome.bind_eq_ok.mp h
  obtain ⟨slot, _, h⟩ := Outcome.bind_eq_ok.mp h
  split at h
  · cases h
    exact keeps_localLoad _
  · cases h
    exact keeps_counted (hasTraffic_mnemonic slot.region) slot.index [] rfl

/-- A variable is loaded as the words of its type. One word is loaded directly,
more of them by a count. -/
theorem keeps_variableLoad {id : Nat} {declared : Variable} {code : Code}
    (hDeclared : setting.declaration id = .ok declared)
    (hSmall : setting.sizes.of declared.ty.target < wordLimit)
    (h : setting.variableLoad id = .ok code) :
    Keeps setting base promised code shape
      (unknown (setting.sizes.of declared.ty.target) ++ shape) := by
  obtain ⟨found, slot, hFound, _, hLoads⟩ := variableLoad_loads h
  rw [hDeclared] at hFound
  cases hFound
  cases hLoads with
  | through single isRef =>
      rw [single]
      have hLoad : Keeps setting base promised [plain "LOAD"] (none :: shape) (none :: shape) :=
        keeps_plain .load rfl rfl [none] rfl
      exact (keeps_localLoad slot.index).append (hLoad.commented _)
  | word single isValue =>
      rw [single]
      have hLoad : Keeps setting base promised
          [counted (Region.mnemonic slot.region ++ "_LOAD") [slot.index]] shape (none :: shape) :=
        keeps_counted (hasTraffic_load slot.region) slot.index [] rfl
      exact hLoad.commented _
  | words several address_code =>
      have hLoad : Keeps setting base promised [plain "LOAD_N"]
          (none :: some (countWord (setting.sizes.of declared.ty.target)) :: shape)
          (unknown (setting.sizes.of declared.ty.target) ++ shape) := keeps_loadMany hSmall none
      exact ((keeps_pushCount _).append (keeps_variableAddress address_code)).append
        (hLoad.commented _)

/-- A variable of one word is stored directly and takes that word. -/
theorem keeps_variableStore {id : Nat} {code : Code} (h : setting.variableStore id = .ok code) :
    Keeps setting base promised code (none :: shape) shape := by
  obtain ⟨declared, _, h⟩ := Outcome.bind_eq_ok.mp h
  obtain ⟨slot, _, h⟩ := Outcome.bind_eq_ok.mp h
  dsimp only at h
  split at h
  · cases h
    have hStore : Keeps setting base promised [plain "STORE"] (none :: none :: shape) shape :=
      keeps_plain .store rfl rfl [none, none] rfl
    exact (keeps_localLoad slot.index).append (hStore.commented _)
  · cases h
    have hStore : Keeps setting base promised
        [counted (Region.mnemonic slot.region ++ "_STORE") [slot.index]] (none :: shape) shape :=
      keeps_counted (hasTraffic_store slot.region) slot.index [none] rfl
    exact hStore.commented _

/-- Spilling replaces a value by its address. -/
theorem keeps_spillCode {frame : Frame} {size : Nat} (hSmall : size < wordLimit) :
    Keeps setting base promised (spillCode frame size) (unknown size ++ shape) (none :: shape) := by
  have hLocal : ∀ shape, Keeps setting base promised [counted "LOCAL" [frame.scratchOffset]] shape
      (none :: shape) := fun shape =>
    keeps_counted (hasTraffic_mnemonic .locals) frame.scratchOffset [] rfl
  unfold spillCode
  split
  · next hOne =>
      have hStore : Keeps setting base promised [counted "LOCAL_STORE" [frame.scratchOffset]]
          (unknown size ++ shape) shape := by
        rw [hOne]
        exact keeps_counted (hasTraffic_store .locals) frame.scratchOffset [none] rfl
      exact (hStore.commented _).append (hLocal shape)
  · have hStore : Keeps setting base promised [plain "STORE_N"]
        (none :: some (countWord size) :: (unknown size ++ shape)) shape :=
          keeps_storeMany hSmall none
    exact (((keeps_pushCount size).append (hLocal _)).append (hStore.commented _)).append
      (hLocal shape)

/-! Calls -/

/-- A call takes the words of its arguments and gives those of its result, as
the types of the function say. -/
theorem keeps_call {id : Nat} {function : Function} {parameters : List Ty}
    (hDeclared : setting.program.functions[id]? = some function)
    (hTyped : parameterTypes setting function = .ok parameters) :
    Keeps setting base promised [naming "CALL" function.name]
      (unknown (totalWords setting.sizes.of parameters) ++ shape)
      (unknown (setting.sizes.of function.result) ++ shape) := by
  refine .single _ (setting.interface parameters function.result) ⟨fun name hName => ?_, ?_, ?_, ?_⟩
    ⟨_, _, effect_primitive .call _, .exchange shape (by simp [unknown, Setting.interface]), rfl⟩
  · cases hName
    exact ⟨function, parameters, Array.mem_of_getElem? hDeclared, rfl, hTyped, rfl⟩
  · intro hThrough
    simp [naming, Statement.ofInstruction] at hThrough
  · intro hNative
    cases hNative
  · intro label hLabel
    cases hLabel

/-- A call by address takes the address besides, and the prototype says what the
callee takes and gives. -/
theorem keeps_callIndirect {id : Nat} {prototype : Prototype}
    (hDeclared : setting.program.prototypes[id]? = some prototype) (pointer : Option Word) :
    Keeps setting base promised [plain "CALLINDIRECT"]
      (pointer :: (unknown (totalWords setting.sizes.of prototype.parameters) ++ shape))
      (unknown (setting.sizes.of prototype.result) ++ shape) := by
  have hTurns : Effect.Turns (.exchange (totalWords setting.sizes.of prototype.parameters + 1)
        (setting.sizes.of prototype.result))
      ((pointer :: unknown (totalWords setting.sizes.of prototype.parameters)) ++ shape)
      (unknown (setting.sizes.of prototype.result) ++ shape) := .exchange shape (by simp [unknown])
  refine .single _ (setting.interface prototype.parameters prototype.result)
    ⟨fun name hName => ?_, fun _ => ?_, ?_, ?_⟩ ⟨_, _,
      effect_primitive .callindirect _, hTurns, rfl⟩
  · simp [plain, Statement.ofInstruction] at hName
  · exact ⟨prototype, Array.mem_of_getElem? hDeclared, rfl⟩
  · intro hNative
    cases hNative
  · intro label hLabel
    cases hLabel

/-- The instruction for a native carries the counts of words, which are those of
its signature. -/
theorem keeps_nativeCall {native : NativeSignature} {call : Statement}
    (h : nativeCall setting native = .ok call) :
    Keeps setting base promised [call]
      (unknown (totalWords setting.sizes.of native.parameters) ++ shape)
      (unknown (setting.sizes.of native.result) ++ shape) := by
  obtain ⟨hArguments, hReturns, _, rfl⟩ := nativeCall_ok h
  have hTakes := counts_ofNat (Nat.lt_of_le_of_lt hArguments (by decide))
  have hGives := counts_ofNat (Nat.lt_of_le_of_lt hReturns (by decide))
  have hEffect : effect? default (.ofInstruction "NATIVE"
        [.int (Int64.ofNat (totalWords setting.sizes.of native.parameters)),
          .int (Int64.ofNat (setting.sizes.of native.result)),
          .name (Text.upperCased native.name)]) =
      some (.exchange (totalWords setting.sizes.of native.parameters)
        (setting.sizes.of native.result)) := by
    refine (effect_primitive .native _).trans ?_
    rw [opcodeEffect?, hTakes, hGives]
  exact keeps_exchange rfl rfl hEffect _ List.length_replicate

end Statements
/-! Tasks -/

/-- The words that code for a task leaves. -/
def Task.words (sizes : Sizes) : Task → Nat
  | .value e | .node e => sizes.of e.ty
  | .operand .. | .source _ | .stored _ | .place _ => 1
  | .arguments parameters _ => totalWords sizes.of parameters

/-- The labels that are promised to code for a task. A chain ends with its value
on the stack. -/
def Task.promised (shape : Shape) : Task → LabelShapes
  | .operand _ finish _ => [(finish, none :: shape)]
  | _ => []

/-- Tasks for sized expressions. -/
def Task.IsSized (setting : Setting) : Task → Prop
  | .value e | .stored e | .place e => Sized setting e
  | .node e => Sized setting e ∧ knownWords? setting e = none
  | .operand op _ e => Sized setting e ∧ setting.sizes.of e.ty = 1 ∧ op.isShortCircuit = true
  | .source e => Sized setting e ∧ setting.sizes.of e.ty < wordLimit
  | .arguments parameters passed =>
    (∀ e ∈ passed, Sized setting e) ∧ Passes setting.sizes parameters passed

section Tasks

variable {environment : Environment} {base : Shape}

/-- The words of an expression known at compile time are as many as its type has. -/
theorem length_of_knownWords? {e : Expr} {words : List Datum}
    (hSized : Sized environment.toSetting e)
    (h : knownWords? environment.toSetting e = some words) :
    words.length = environment.sizes.of e.ty := by
  unfold knownWords? at h
  split at h
  · exact hSized.length_fold h
  · cases h

/-- A literal that is a single datum has a type of one word. -/
theorem one_of_literal? {e : Expr} {word : Datum} (hSized : Sized environment.toSetting e)
    (h : Expr.literal? e = some word) : environment.sizes.of e.ty = 1 := by
  cases hSized <;> first | assumption | cases h

/-- A variable whose value is not known at compile time is stored. -/
theorem stored_of_unknown {info : Info} {id : Nat}
    (hSized : Sized environment.toSetting (.var info id))
    (hUnknown : knownWords? environment.toSetting (.var info id) = none) :
    ∃ declared, environment.declaration id = .ok declared ∧ declared.storage ≠ .constant ∧
      environment.sizes.of info.ty = environment.sizes.of declared.ty.target ∧
      environment.sizes.of info.ty < wordLimit := by
  cases hSized with
  | constant known folds length_eq =>
      have hKnown : (Expr.var info id).isConstant = true := known
      rw [knownWords?, if_pos hKnown, folds] at hUnknown
      cases hUnknown
  | «variable» declaration storage size_eq small =>
      exact ⟨_, declaration, storage, size_eq, small⟩

theorem prototypeOf_ok {setting : Setting} {ty : Ty} {prototype : Prototype}
    (h : prototypeOf setting ty = .ok prototype) :
    ∃ id, ty = .functionPointer id ∧ setting.program.prototypes[id]? = some prototype := by
  unfold prototypeOf at h
  split at h
  · split at h
    · next found hFound =>
        cases h
        exact ⟨_, rfl, hFound⟩
    · cases h
  · cases h

/-- Code of expressions leaves the words of its task, on all ways through it. -/
theorem Emits.keeps {task : Task} {n m : Nat} {code : Code} (h : Emits environment task n code m)
    (hSized : task.IsSized environment.toSetting) (shape : Shape) :
    Keeps environment.toSetting base (task.promised shape) code shape
      (unknown (task.words environment.sizes) ++ shape) := by
  have hElement : ∀ size shape, Keeps environment.toSetting base [] [counted "ARRAY" [size]]
      (none :: none :: shape) (none :: shape) := fun size shape => by
    have hTraffic : hasTraffic "ARRAY" 2 1 = true := by decide
    exact keeps_counted hTraffic size [none, none] rfl
  induction h generalizing shape with
  | known n words_eq =>
      rw [Task.words, ← length_of_knownWords? hSized words_eq]
      exact keeps_pushData _
  | computed unknown node ih => exact ih ⟨hSized, unknown⟩ shape
  | literal n word_eq =>
      rw [Task.words, one_of_literal? hSized.1 word_eq]
      exact keeps_pushData [_]
  | @vector info x y z n₀ n₁ n₂ n₃ first second third x_code y_code z_code x_ih y_ih z_ih =>
      obtain ⟨hSized, _⟩ := hSized
      cases hSized with
      | vector three x_sized x_one y_sized y_one z_sized z_one =>
          have hX := x_ih x_sized shape
          have hY := y_ih y_sized (none :: shape)
          have hZ := z_ih z_sized (none :: none :: shape)
          have hWords : Task.words environment.sizes (.node (.vector info x y z)) = 3 := three
          rw [Task.words, x_one] at hX
          rw [Task.words, y_one] at hY
          rw [Task.words, z_one] at hZ
          rw [hWords]
          exact ((hX.append (keeps_componentConversion x.ty)).append
            (hY.append (keeps_componentConversion y.ty))).append
              (hZ.append (keeps_componentConversion z.ty))
  | constant declaration storage initialized inlined ih =>
      obtain ⟨declared, hDeclared, hStorage, _⟩ := stored_of_unknown hSized.1 hSized.2
      rw [declaration] at hDeclared
      cases hDeclared
      exact absurd storage hStorage
  | @«variable» info id declared code n declaration storage load =>
      obtain ⟨found, hFound, _, hSize, hSmall⟩ := stored_of_unknown hSized.1 hSized.2
      rw [declaration] at hFound
      cases hFound
      have hWords : Task.words environment.sizes (.node (.var info id)) =
          environment.sizes.of declared.ty.target := hSize
      rw [hWords]
      exact keeps_variableLoad declaration (hSize ▸ hSmall) load
  | @functionRef info id name n named =>
      obtain ⟨hSized, _⟩ := hSized
      cases hSized with
      | functionRef one =>
          have hWords : Task.words environment.sizes (.node (.functionRef info id)) = 1 := one
          rw [hWords]
          exact keeps_push [_]
  | @neg info operand n m code operand_code ih =>
      obtain ⟨hSized, _⟩ := hSized
      cases hSized with
      | neg size_eq operand_sized isOperand =>
          have hWords : Task.words environment.sizes (.node (.neg info operand)) =
              environment.sizes.of operand.ty := size_eq
          rw [hWords]
          exact (ih operand_sized shape).append (keeps_negation isOperand)
  | @not info operand n m code operand_code ih =>
      obtain ⟨hSized, _⟩ := hSized
      cases hSized with
      | not one operand_sized operand_one =>
          have hOperand := ih operand_sized shape
          have hWords : Task.words environment.sizes (.node (.not info operand)) = 1 := one
          rw [Task.words, operand_one] at hOperand
          rw [hWords]
          exact hOperand.append (keeps_plain .inot rfl rfl [none] rfl)
  | @shortCircuit info op left right n middle m first second short left_code right_code left_ih
      right_ih =>
      obtain ⟨hSized, _⟩ := hSized
      cases hSized with
      | shortCircuit short one left_sized left_one right_sized right_one =>
          have hWords : Task.words environment.sizes (.node (.binary info op left right)) = 1 := one
          rw [hWords]
          have hEnd : Balanced (ShapedLine.Fits environment.toSetting base)
              [(chainEnd op n, none :: shape)]
              [(chainEnd op n, none :: shape)] [.ofLabel (chainEnd op n)] (none :: shape)
              (none :: shape) := .label (fits_marked (marked_chainEnd op n))
          exact Balanced.close ((((left_ih ⟨left_sized, left_one, short⟩ shape).append
            (keeps_decision op (List.mem_singleton_self _))).append
              (right_ih ⟨right_sized, right_one, short⟩ shape)).append hEnd)
      | binary long => rw [long] at short; cases short
  | @binary info op left right n middle m family mnemonic first second long chosen
      left_code right_code left_ih right_ih =>
      obtain ⟨hSized, _⟩ := hSized
      cases hSized with
      | shortCircuit short => rw [long] at short; cases short
      | binary _ size_eq left_sized left_operand right_sized right_operand =>
          obtain ⟨rfl, hMnemonic⟩ := operation_ok chosen
          have hWords : Task.words environment.sizes (.node (.binary info op left right)) =
              if op.isLogical then 1 else (Family.ofOperands left.ty right.ty).words := size_eq
          rw [hWords]
          exact ((((left_ih left_sized shape).append
            (keeps_widening left_operand (Family.ofOperands_of_left right.ty))).append
              ((right_ih right_sized _).append
                (keeps_widening right_operand (Family.ofOperands_of_right left.ty)))).append
                  (keeps_operation hMnemonic))
  | @memberWord info base field offset n m code single placed base_code ih =>
      obtain ⟨hSized, _⟩ := hSized
      cases hSized with
      | member small base_sized base_small =>
          have hWords : Task.words environment.sizes (.node (.member info base field)) = 1 := single
          have hTraffic : hasTraffic "IOFFSET_CONST_LOAD" 1 1 = true := by decide
          rw [hWords]
          exact (ih ⟨base_sized, base_small⟩ shape).append
            (keeps_counted hTraffic offset [none] rfl)
  | @memberWords info base field offset n m code several placed base_code ih =>
      obtain ⟨hSized, _⟩ := hSized
      cases hSized with
      | member small base_sized base_small =>
          exact (((keeps_pushCount _).append (ih ⟨base_sized, base_small⟩ _)).append
            (keeps_atOffset offset)).append (keeps_loadMany small none)
  | @indexWord info array position n middle m index code single position_code array_code position_ih
      array_ih =>
      obtain ⟨hSized, _⟩ := hSized
      cases hSized with
      | index small array_sized array_small position_sized position_one =>
          have hWords : Task.words environment.sizes (.node (.index info array position)) = 1 :=
            single
          have hTraffic : hasTraffic "ARRAY_LOAD" 2 1 = true := by decide
          have hPosition := position_ih position_sized shape
          rw [Task.words, position_one] at hPosition
          rw [hWords]
          exact (hPosition.append (array_ih ⟨array_sized, array_small⟩ _)).append
            (keeps_counted hTraffic 1 [none, none] rfl)
  | @indexWords info array position n middle m index code several position_code
      array_code position_ih array_ih =>
      obtain ⟨hSized, _⟩ := hSized
      cases hSized with
      | index small array_sized array_small position_sized position_one =>
          have hPosition := position_ih position_sized
            (some (countWord (environment.sizes.of info.ty)) :: shape)
          rw [Task.words, position_one] at hPosition
          exact (((keeps_pushCount _).append hPosition).append
            (array_ih ⟨array_sized, array_small⟩ _)).append
              ((hElement _ _).append (keeps_loadMany small none))
  | @call info id n m function passed parameters code declared typed count arguments_code ih =>
      obtain ⟨hSized, _⟩ := hSized
      cases hSized with
      | call declared' typed' size_eq passed_sized passes =>
          rw [declared] at declared'
          cases declared'
          rw [typed] at typed'
          cases typed'
          have hWords : Task.words environment.sizes (.node (.call info id passed)) =
              environment.sizes.of function.result := size_eq
          rw [hWords]
          exact (ih ⟨passed_sized, passes⟩ shape).append (keeps_call declared typed)
  | @callNative info id n m native passed call code declared count arguments_code call_eq ih =>
      obtain ⟨hSized, _⟩ := hSized
      cases hSized with
      | callNative declared' size_eq passed_sized passes =>
          rw [declared] at declared'
          cases declared'
          have hWords : Task.words environment.sizes (.node (.callNative info id passed)) =
              environment.sizes.of native.result := size_eq
          rw [hWords]
          exact (ih ⟨passed_sized, passes⟩ shape).append (keeps_nativeCall call_eq)
  | @callThrough info target passed prototype n middle m code pointer typed count arguments_code
      target_code arguments_ih target_ih =>
      obtain ⟨hSized, _⟩ := hSized
      cases hSized with
      | callThrough typed' size_eq target_sized passed_sized passes =>
          rw [typed] at typed'
          cases typed'
          obtain ⟨id, hTarget, hDeclared⟩ := prototypeOf_ok typed
          have hPointer := target_ih target_sized
            (unknown (totalWords environment.sizes.of prototype.parameters) ++ shape)
          have hOne : Task.words environment.sizes (.value target) = 1 :=
            congrArg environment.sizes.of hTarget
          have hWords : Task.words environment.sizes (.node (.callThrough info target passed)) =
              environment.sizes.of prototype.result := size_eq
          rw [hOne] at hPointer
          rw [hWords]
          exact ((arguments_ih ⟨passed_sized, passes⟩ shape).append hPointer).append
            (keeps_callIndirect hDeclared none)
  | @convert info operand n m code change operand_code change_eq ih =>
      obtain ⟨hSized, _⟩ := hSized
      cases hSized with
      | convert operand_sized folded =>
          exact (ih operand_sized shape).append (keeps_conversion change_eq)
  | chain same left_code right_code left_ih right_ih =>
      obtain ⟨hSized, _, hShort⟩ := hSized
      cases hSized with
      | shortCircuit short one left_sized left_one right_sized right_one =>
          exact ((left_ih ⟨left_sized, left_one, hShort⟩ shape).append
            (keeps_decision _ (List.mem_singleton_self _))).append
              (right_ih ⟨right_sized, right_one, hShort⟩ shape)
      | binary long =>
          rw [beq_iff_eq.mp same, hShort] at long
          cases long
  | @operand op finish e n m code other value_code ih =>
      obtain ⟨hSized, hOne, _⟩ := hSized
      have hValue := ih hSized shape
      rw [Task.words, hOne] at hValue
      exact hValue.mono (List.nil_subset _)
  | stored kept base_code ih => exact ih hSized.1 shape
  | spilled unkept room base_code ih =>
      obtain ⟨hSized, hSmall⟩ := hSized
      exact (ih hSized shape).append (keeps_spillCode hSmall)
  | storedMember placed base_code ih =>
      cases hSized with
      | member small base_sized base_small =>
          exact (ih ⟨base_sized, base_small⟩ shape).append (keeps_atOffset _)
  | storedIndex position_code array_code position_ih array_ih =>
      cases hSized with
      | index small array_sized array_small position_sized position_one =>
          have hPosition := position_ih position_sized shape
          rw [Task.words, position_one] at hPosition
          exact (hPosition.append (array_ih ⟨array_sized, array_small⟩ _)).append (hElement _ _)
  | storedVariable n address => exact keeps_variableAddress address
  | placeMember placed base_code ih =>
      cases hSized with
      | member small base_sized base_small => exact (ih base_sized shape).append (keeps_atOffset _)
  | placeIndex position_code array_code position_ih array_ih =>
      cases hSized with
      | index small array_sized array_small position_sized position_one =>
          have hPosition := position_ih position_sized shape
          rw [Task.words, position_one] at hPosition
          exact (hPosition.append (array_ih array_sized _)).append (hElement _ _)
  | placeVariable n address => exact keeps_variableAddress address
  | noArguments parameters n =>
      cases hSized.2
      exact .nil _
  | byAddress passes first_code rest_code first_ih rest_ih =>
      obtain ⟨hSized, hPasses⟩ := hSized
      rw [List.forall_mem_cons] at hSized
      cases hPasses with
      | cons hFirst hRest =>
          have hAddress := first_ih hSized.1 shape
          rw [Task.words, totalWords, Sizes.of_isRef passes, ← unknown_append]
          exact hAddress.append (rest_ih ⟨hSized.2, hRest⟩ _)
  | byValue passes first_code rest_code first_ih rest_ih =>
      obtain ⟨hSized, hPasses⟩ := hSized
      rw [List.forall_mem_cons] at hSized
      cases hPasses with
      | cons hFirst hRest =>
          have hValue := first_ih hSized.1 shape
          rw [Task.words, hFirst passes] at hValue
          rw [Task.words, totalWords, ← unknown_append]
          exact hValue.append (rest_ih ⟨hSized.2, hRest⟩ _)

variable {promised : LabelShapes} {e : Expr} {n m : Nat} {code : Code}

/-- The code of a value leaves the words of the value. -/
theorem Emits.keeps_value (h : Emits environment (.value e) n code m)
    (hSized : Sized environment.toSetting e) (shape : Shape) :
    Keeps environment.toSetting base promised code shape
      (unknown (environment.sizes.of e.ty) ++ shape) :=
  (h.keeps hSized shape).mono (List.nil_subset _)

/-- The code of a value of a single word leaves that word. -/
theorem Emits.keeps_word (h : Emits environment (.value e) n code m)
    (hSized : Sized environment.toSetting e)
    (hOne : environment.sizes.of e.ty = 1) (shape : Shape) :
    Keeps environment.toSetting base promised code shape (none :: shape) := by
  have hValue : Keeps environment.toSetting base promised code shape
      (unknown (environment.sizes.of e.ty) ++ shape) := h.keeps_value hSized shape
  rwa [hOne] at hValue

/-- The code of a place leaves its address. -/
theorem Emits.keeps_place (h : Emits environment (.place e) n code m)
    (hSized : Sized environment.toSetting e) (shape : Shape) :
    Keeps environment.toSetting base promised code shape (none :: shape) :=
  (h.keeps hSized shape).mono (List.nil_subset _)

end Tasks
end ScriptBackend.Lowering
