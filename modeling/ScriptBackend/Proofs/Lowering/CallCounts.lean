import ScriptBackend.Proofs.Lowering.BalancedExpressions
import ScriptBackend.Proofs.Lowering.FrameAccesses

/-!
How often calls are made. Code has one instruction for each call of the
expressions that it is made for, as every part of an expression is lowered once;
an assignment that combines its target with a value is the one place where an
expression is lowered twice.
-/
namespace ScriptBackend

mutual

/-- How many calls an expression holds. -/
def Expr.calls : Expr → Nat
  | .vector _ x y z => x.calls + y.calls + z.calls
  | .neg _ operand | .not _ operand | .convert _ operand => operand.calls
  | .binary _ _ left right => left.calls + right.calls
  | .member _ base _ => base.calls
  | .index _ array position => array.calls + position.calls
  | .call _ _ passed | .callNative _ _ passed => argumentCalls passed + 1
  | .callThrough _ target passed => target.calls + argumentCalls passed + 1
  | _ => 0

def argumentCalls : List Expr → Nat
  | [] => 0
  | first :: rest => first.calls + argumentCalls rest

end

namespace Lowering

open Assembly

def isCallMnemonic (mnemonic : String) : Bool :=
  mnemonic == "CALL" || mnemonic == "NATIVE" || mnemonic == "CALLINDIRECT"

def isCall (statement : Statement) : Bool :=
  match statement.content with
  | .instruction mnemonic _ => isCallMnemonic mnemonic
  | _ => false

/-- How many instructions of code call. -/
def callCount (code : Code) : Nat :=
  code.countP isCall

section Counts

variable {code : Code}

@[simp] theorem callCount_nil : callCount [] = 0 := rfl

@[simp] theorem callCount_append (first second : Code) :
    callCount (first ++ second) = callCount first + callCount second :=
  List.countP_append

/-- Calls are counted statement by statement. -/
theorem callCount_cons (statement : Statement) (rest : Code) :
    callCount (statement :: rest) = (if isCall statement then 1 else 0) + callCount rest := by
  rw [callCount, List.countP_cons, Nat.add_comm]
  rfl

@[simp] theorem callCount_plain (mnemonic : String) (rest : Code) :
    callCount (plain mnemonic :: rest) =
      (if isCallMnemonic mnemonic then 1 else 0) + callCount rest :=
  callCount_cons _ rest

@[simp] theorem callCount_counted (mnemonic : String) (numbers : List Nat) (rest : Code) :
    callCount (counted mnemonic numbers :: rest) =
      (if isCallMnemonic mnemonic then 1 else 0) + callCount rest :=
  callCount_cons _ rest

@[simp] theorem callCount_naming (mnemonic label : String) (rest : Code) :
    callCount (naming mnemonic label :: rest) =
      (if isCallMnemonic mnemonic then 1 else 0) + callCount rest :=
  callCount_cons _ rest

@[simp] theorem callCount_commented (comment : String) (statement : Statement) (rest : Code) :
    callCount (commented comment statement :: rest) = callCount (statement :: rest) := by
  rw [callCount_cons, callCount_cons]
  rfl

@[simp] theorem callCount_label (label : String) (rest : Code) :
    callCount (.ofLabel label :: rest) = callCount rest := by
  rw [callCount_cons]
  exact Nat.zero_add _

/-- Code that consists of other instructions does not call. -/
theorem callCount_eq_zero (h : ∀ statement ∈ code, isCall statement = false) :
    callCount code = 0 := by
  rw [callCount, List.countP_eq_zero]
  intro statement hStatement
  rw [h statement hStatement]
  exact Bool.false_ne_true

@[simp] theorem callCount_pushData (words : List Datum) : callCount (pushData words) = 0 := by
  refine callCount_eq_zero fun statement hStatement => ?_
  obtain ⟨run, _, rfl⟩ := List.mem_map.mp hStatement
  unfold pushRun
  split <;> rfl

@[simp] theorem callCount_atOffset (offset : Nat) : callCount (atOffset offset) = 0 := by
  unfold atOffset
  split <;> simp [isCallMnemonic]

@[simp] theorem callCount_componentConversion (ty : Ty) :
    callCount (componentConversion ty) = 0 := by
  unfold componentConversion
  split <;> simp [isCallMnemonic]

@[simp] theorem callCount_widening (family : Family) (operand : Ty) :
    callCount (family.widening operand) = 0 := by
  unfold Family.widening
  split <;> split <;> simp [isCallMnemonic]

@[simp] theorem callCount_decision (op : BinaryOp) (finish : String) :
    callCount (decision op finish) = 0 := by
  unfold decision
  split <;> simp [isCallMnemonic]

@[simp] theorem callCount_spillCode (frame : Frame) (size : Nat) :
    callCount (spillCode frame size) = 0 := by
  unfold spillCode
  split <;> simp [isCallMnemonic]

theorem callCount_conversion {sizes : Sizes} {source target : Ty}
    (h : conversion sizes source target = .ok code) :
    callCount code = 0 := by
  unfold conversion at h
  split at h
  iterate 4
    cases h
    simp [isCallMnemonic]
  obtain ⟨rfl, _⟩ := unchanged_ok h
  rfl

/-- No operator of a family has the mnemonic of a call. -/
theorem isCallMnemonic_operation {op : BinaryOp} {left right : Ty} {family : Family}
    {mnemonic : String}
    (h : operation op left right = .ok (family, mnemonic)) : isCallMnemonic mnemonic = false := by
  obtain ⟨opcode, hOpcode, rfl⟩ := exists_opcode_of_operation h
  cases family <;> cases op <;> cases hOpcode <;> decide

theorem isCallMnemonic_neg (family : Family) : isCallMnemonic (family.letter ++ "NEG") = false := by
  cases family <;> decide

/-- The code of a native call is one instruction that calls. -/
theorem isCall_nativeCall {setting : Setting} {native : NativeSignature} {statement : Statement}
    (h : nativeCall setting native = .ok statement) : isCall statement = true := by
  obtain ⟨_, _, _, rfl⟩ := nativeCall_ok h
  rfl

theorem isCallMnemonic_region (region : Region) :
    isCallMnemonic (Region.mnemonic region) = false ∧
    isCallMnemonic (Region.mnemonic region ++ "_LOAD") = false ∧
      isCallMnemonic (Region.mnemonic region ++ "_STORE") = false := by
  cases region <;> decide

section Variables

variable {setting : Setting} {id : Nat}

theorem callCount_variableAddress (h : setting.variableAddress id = .ok code) :
    callCount code = 0 := by
  obtain ⟨declared, _, h⟩ := Outcome.bind_eq_ok.mp h
  obtain ⟨slot, _, h⟩ := Outcome.bind_eq_ok.mp h
  split at h <;> cases h
  · rfl
  · simp [isCallMnemonic_region]

/-- Variables are loaded without calls, in whatever region they live. -/
theorem callCount_variableLoad (h : setting.variableLoad id = .ok code) : callCount code = 0 := by
  obtain ⟨declared, slot, _, _, hLoads⟩ := variableLoad_loads h
  cases hLoads with
  | through single isRef => rfl
  | word single isValue => simp [isCallMnemonic_region]
  | words several address_code => simp [callCount_variableAddress address_code, isCallMnemonic]

theorem callCount_variableStore (h : setting.variableStore id = .ok code) : callCount code = 0 := by
  obtain ⟨declared, _, h⟩ := Outcome.bind_eq_ok.mp h
  obtain ⟨slot, _, h⟩ := Outcome.bind_eq_ok.mp h
  dsimp only at h
  split at h <;> cases h
  · rfl
  · simp [isCallMnemonic_region]

end Variables

end Counts

/-- An expression that folds holds no calls. -/
theorem calls_of_foldWith {functionName? : Nat → Option String}
    {constant? : Nat → Option (List Datum)} :
    ∀ (e : Expr) (folded : List Datum),
      foldWith functionName? constant? e = some folded → e.calls = 0 := by
  intro e folded h
  cases e with
  | vector info x y z =>
      simp only [foldWith, Option.bind_eq_bind, Option.bind_eq_some_iff] at h
      obtain ⟨_, hFirst, _, _, _, _, _, hSecond, _, _, _, _, _, hThird, _⟩ := h
      simp [Expr.calls, calls_of_foldWith x _ hFirst, calls_of_foldWith y _ hSecond,
        calls_of_foldWith z _ hThird]
  | neg info operand =>
      obtain ⟨_, hOperand, _⟩ := Option.bind_eq_some_iff.mp h
      exact calls_of_foldWith operand _ hOperand
  | not info operand =>
      simp only [foldWith, Option.bind_eq_bind, Option.bind_eq_some_iff] at h
      obtain ⟨_, hOperand, _⟩ := h
      exact calls_of_foldWith operand _ hOperand
  | binary info op left right =>
      simp only [foldWith, Option.bind_eq_bind, Option.bind_eq_some_iff] at h
      obtain ⟨_, hLeft, _, _, _, hRight, _⟩ := h
      simp [Expr.calls, calls_of_foldWith left _ hLeft, calls_of_foldWith right _ hRight]
  | convert info operand =>
      simp only [foldWith, Option.bind_eq_bind, Option.bind_eq_some_iff] at h
      obtain ⟨_, hOperand, _⟩ := h
      exact calls_of_foldWith operand _ hOperand
  | member info base field => cases h
  | index info array position => cases h
  | call info id passed => cases h
  | callNative info id passed => cases h
  | callThrough info target passed => cases h
  | _ => rfl

/-- An expression whose words are known at compile time holds no call. -/
theorem calls_of_knownWords? {setting : Setting} {e : Expr} {words : List Datum}
    (h : knownWords? setting e = some words) : e.calls = 0 := by
  unfold knownWords? at h
  split at h
  · exact calls_of_foldWith e words h
  · cases h

def Task.calls : Task → Nat
  | .value e | .node e | .operand _ _ e | .source e | .stored e | .place e => e.calls
  | .arguments _ passed => argumentCalls passed

/-- A program whose constants are defined without calls. -/
def CallFreeConstants (program : Program) : Prop :=
  ∀ declared ∈ program.vars, declared.storage = .constant →
    ∀ e, declared.initializer = some e → e.calls = 0

section Emitted

variable {environment : Environment} {n m : Nat} {code : Code}

theorem calls_of_literal? {e : Expr} {word : Datum} (h : Expr.literal? e = some word) :
    e.calls = 0 := by
  cases e <;> first | rfl | cases h

/-- Code calls as often as there are calls in what it is for. -/
theorem Emits.callCount_eq (hConstants : CallFreeConstants environment.program) {task : Task}
    (h : Emits environment task n code m) : callCount code = task.calls := by
  induction h with
  | known _ words_eq => simp [Task.calls, calls_of_knownWords? words_eq]
  | computed _ _ ih => exact ih
  | literal _ word_eq => simp [Task.calls, calls_of_literal? word_eq]
  | vector _ _ _ first second third =>
      simp [Task.calls, Expr.calls, first, second, third]
      omega
  | constant declaration storage initialized _ ih =>
      have hMem := Array.mem_of_getElem? (declaration_ok declaration)
      exact ih.trans (hConstants _ hMem storage _ initialized)
  | «variable» _ _ _ load => exact callCount_variableLoad load
  | functionRef => rfl
  | neg _ ih => simp [Task.calls, Expr.calls, isCallMnemonic_neg, ih]
  | not _ ih => simp [Task.calls, Expr.calls, isCallMnemonic, ih]
  | shortCircuit _ _ _ first second => simp [Task.calls, Expr.calls, first, second]
  | binary _ chosen _ _ first second =>
      simp [Task.calls, Expr.calls, isCallMnemonic_operation chosen, first, second]
  | memberWord _ _ _ ih => simp [Task.calls, Expr.calls, isCallMnemonic, ih]
  | memberWords _ _ _ ih => simp [Task.calls, Expr.calls, isCallMnemonic, ih]
  | indexWord _ _ _ position array =>
      simp [Task.calls, Expr.calls, isCallMnemonic, position, array]
      omega
  | indexWords _ _ _ position array =>
      simp [Task.calls, Expr.calls, isCallMnemonic, position, array]
      omega
  | call _ _ _ _ ih => simp [Task.calls, Expr.calls, isCallMnemonic, ih]
  | callNative _ _ _ call_eq ih =>
      simp [Task.calls, Expr.calls, callCount_cons, isCall_nativeCall call_eq, ih]
  | callThrough _ _ _ _ passed target =>
      simp [Task.calls, Expr.calls, isCallMnemonic, passed, target]
      omega
  | convert _ change_eq ih => simp [Task.calls, Expr.calls, callCount_conversion change_eq, ih]
  | chain _ _ _ first second => simp [Task.calls, Expr.calls, first, second]
  | operand _ _ ih => exact ih
  | stored _ _ ih => exact ih
  | spilled _ _ _ ih => simp [Task.calls, ih]
  | storedMember _ _ ih => simp [Task.calls, Expr.calls, ih]
  | storedIndex _ _ position array =>
      simp [Task.calls, Expr.calls, isCallMnemonic, position, array]
      omega
  | storedVariable _ address => exact callCount_variableAddress address
  | placeMember _ _ ih => simp [Task.calls, Expr.calls, ih]
  | placeIndex _ _ position array =>
      simp [Task.calls, Expr.calls, isCallMnemonic, position, array]
      omega
  | placeVariable _ address => exact callCount_variableAddress address
  | noArguments => rfl
  | byAddress _ _ _ first rest => simp [Task.calls, argumentCalls, first, rest]
  | byValue _ _ _ first rest => simp [Task.calls, argumentCalls, first, rest]

/-- The code that stores a value calls as often as the place does. -/
theorem Stores.callCount_eq (hConstants : CallFreeConstants environment.program) {target : Expr}
    (h : Stores environment target n code m) : callCount code = target.calls := by
  cases h with
  | words _ place => simp [place.callCount_eq hConstants, Task.calls, isCallMnemonic]
  | «variable» _ _ stored => exact callCount_variableStore stored
  | member _ _ place => simp [place.callCount_eq hConstants, Task.calls, Expr.calls, isCallMnemonic]
  | index _ position_code place =>
      simp [position_code.callCount_eq hConstants, place.callCount_eq hConstants,
        Task.calls, Expr.calls, isCallMnemonic]
      omega

theorem isCallMnemonic_textLabel {op : Option BinaryOp} {source : Ty} {mnemonic : String}
    (h : textLabelMnemonic? op source = some mnemonic) : isCallMnemonic mnemonic = false := by
  unfold textLabelMnemonic? at h
  split at h <;> cases h <;> decide

/-- Whether an assignment reads its target besides storing to it. -/
def readsTarget (target : Expr) (op : Option BinaryOp) (source : Expr) : Bool :=
  op.isSome && !fillsTextLabel target.ty source.ty

/-- The value of a compound assignment holds the calls of its target besides
those of its source. -/
theorem calls_assignedValue (target : Expr) (op : Option BinaryOp) (source : Expr) :
    (assignedValue target op source).calls =
      (if op.isSome then target.calls else 0) + source.calls := by
  cases op with
  | none => exact (Nat.zero_add _).symm
  | some op => rfl

/-- The code of an assignment calls once for each call of its target and its
source. If it combines the target with the source, the target is evaluated to be
read and again to be stored to, and its calls are made twice. -/
theorem assign_callCount (hConstants : CallFreeConstants environment.program) {target source : Expr}
    {op : Option BinaryOp} (h : (assign environment target op source).run n = .ok (code, m)) :
    callCount code =
      (if readsTarget target op source then target.calls + target.calls else target.calls) +
        source.calls := by
  cases assign_assigns h with
  | text fills chosen source_code target_code =>
      have hOnce : readsTarget target op source = false := by simp [readsTarget, fills]
      simp only [callCount_append, source_code.callCount_eq hConstants,
        target_code.callCount_eq hConstants, callCount_counted, isCallMnemonic_textLabel chosen,
        callCount_nil, Task.calls, hOnce]
      simp only [Bool.false_eq_true, if_false]
      omega
  | value other source_code stores =>
      have hReads : readsTarget target op source = op.isSome := by simp [readsTarget, other]
      rw [callCount_append, source_code.callCount_eq hConstants, stores.callCount_eq hConstants,
        hReads, Task.calls, calls_assignedValue]
      split <;> omega

end Emitted

/-- Inside of a function that counts up an item of an array, at an index that
another function returns. -/
def countingEnvironment : Environment where
  program := ⟨"p", none, none, #[], #[], #[⟨"a", .array .int 4, .placed .locals, none⟩],
    #[⟨"MAIN", [], .void, []⟩, ⟨"F", [], .int, []⟩], #[]⟩
  sizes := ⟨#[], #[], #[]⟩
  slots := ⟨#[some ⟨.locals, 2⟩], #[⟨0, 5, 0, 0, #[0]⟩, ⟨0, 0, 1, 0, #[]⟩], [], [], [], 0, 0, 0⟩
  natives := NativeDatabase.empty
  frame := ⟨0, 5, 0, 0, #[0]⟩

def countedItem : Expr :=
  .elementOf (.ofVariable countingEnvironment.program 0) (.callOf countingEnvironment.program 1 [])

/-- The index is called for twice. -/
theorem assign_callCount_twice :
    CallFreeConstants countingEnvironment.program ∧ countedItem.calls = 1 ∧
    ∃ code, (assign countingEnvironment countedItem (some .add) (.ofInt 1)).run 0 = .ok (code, 0) ∧
      callCount code = 2 := by
  have hConstants : CallFreeConstants countingEnvironment.program := by
    intro declared hDeclared hStorage
    rw [List.mem_singleton.mp (Array.mem_toList_iff.mpr hDeclared)] at hStorage
    cases hStorage
  have hCode : ∃ code, (assign countingEnvironment countedItem (some .add) (.ofInt 1)).run 0 =
      .ok (code, 0) :=
    ⟨_, rfl⟩
  obtain ⟨code, hCode⟩ := hCode
  exact ⟨hConstants, rfl, code, hCode, assign_callCount hConstants hCode⟩

end Lowering
end ScriptBackend
