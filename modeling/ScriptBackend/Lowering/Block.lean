import ScriptBackend.Lowering.Defaults
import ScriptBackend.Lowering.Value

/-!
Statements as code. Control flow uses local labels with fresh numbers, so nested
constructs share none. A break leaves the innermost loop or selection, a
continue goes on with the innermost loop.
-/
namespace ScriptBackend.Lowering

open ScriptBackend.Assembly

/-! Assignments -/

def store (environment : Environment) (target : Expr) : Gen Code := do
  let size ← environment.sizes.measure target.ty
  if size ≠ 1 then
    let code ← environment.address target
    return counted "PUSH_CONST" [size] :: code ++ [plain "STORE_N"]
  else
    match target with
    | .var _ id => environment.variableStore id
    | .member _ base field => do
      let offset ← environment.memberOffset base.ty field
      let code ← environment.address base
      return code ++ [counted "IOFFSET_CONST_STORE" [offset]]
    | .index _ array position => do
      let index ← environment.value position
      let code ← environment.address array
      return index ++ code ++ [counted "ARRAY_STORE" [1]]
    | _ => unsupported .storeToValue

/-- The instruction that fills or extends a text label from a value. -/
def textLabelMnemonic? (op : Option BinaryOp) (source : Ty) : Option String :=
  match op, source with
  | none, .string => some "TEXT_LABEL_ASSIGN_STRING"
  | none, .int => some "TEXT_LABEL_ASSIGN_INT"
  | some .add, .string => some "TEXT_LABEL_APPEND_STRING"
  | some .add, .int => some "TEXT_LABEL_APPEND_INT"
  | _, _ => none

/-- Fills or extends a text label. The instruction takes the size of the buffer
in bytes. -/
def assignTextLabel (environment : Environment) (target : Expr) (op : Option BinaryOp)
    (source : Expr) : Gen Code := do
  match textLabelMnemonic? op source.ty with
  | none => unsupported (.textLabelFrom source.ty target.ty)
  | some mnemonic =>
    let bytes := (← environment.sizes.measure target.ty) * 8
    Sizes.guarded (bytes < UInt32.size)
    let content ← environment.value source
    let place ← environment.address target
    return content ++ place ++ [counted mnemonic [bytes]]

/-- Whether an assignment goes to a text label from something else. -/
def fillsTextLabel (target source : Ty) : Bool :=
  match target with
  | .textLabel _ => source ≠ target
  | _ => false

/-- Assigns a value to a place, combined with the value there if an operator is
given. -/
def assign (environment : Environment) (target : Expr) (op : Option BinaryOp) (source : Expr) :
    Gen Code :=
  if fillsTextLabel target.ty source.ty then assignTextLabel environment target op source
  else do
    let content ←
      match op with
      | none => environment.value source
      | some op => environment.value (.combined op target source)
    let place ← store environment target
    return content ++ place

/-! Declarations of locals -/

def storeWord (offset : Nat) (word : Datum) : Code :=
  plain "DUP" :: atOffset offset ++ pushData [word] ++ [plain "STORE_REV", plain "DROP"]

def storeWords : Nat → List Datum → Code
  | _, [] => []
  | offset, word :: rest =>
    (if word.isZero then [] else storeWord offset word) ++ storeWords (offset + 1) rest

/-- Stores the defaults of a variable. The frame is zero at first, so that zeros
need no code. -/
def storeDefaults (name : String) (slot : Slot) (words : List Datum) : Code :=
  if words.all Datum.isZero then []
  else
    commented ("defaults of " ++ name) (counted "LOCAL" [slot.index]) ::
      storeWords 0 words ++ [plain "DROP"]

def declare (environment : Environment) (id : Nat) : Gen Code := do
  let declared ← environment.declaration id
  let slot ← environment.slots.slot environment.program id
  if declared.ty.isRef then
    match declared.initializer with
    | none => unsupported (.referenceWithoutTarget declared.name)
    | some target =>
      let code ← environment.address target
      return code ++ [counted "LOCAL_STORE" [slot.index]]
  else
    match declared.initializer with
    | some e => assign environment (.ofVariable environment.program id) none e
    | none =>
      let words ← defaultWords environment.toSetting declared.ty
      return storeDefaults declared.name slot words

/-! Control flow -/

/-- Where breaks and continues go. -/
structure Targets where
  break? : Option String
  continue? : Option String

def jumpTo (fault : CompileFault) (target : Option String) : Except CompileFault Code :=
  match target with
  | some label => .ok [naming "J" label]
  | none => .error fault

def userLabel (name : String) : String :=
  ".label_" ++ name

def leave (frame : Frame) : Statement :=
  counted "LEAVE" [frame.parameterWords, frame.resultWords]

def caseLabel (number position : Nat) (value : Option Int32) : String :=
  match value with
  | some _ => numbered (numbered ".switch_" number ++ "_case_") position
  | none => numbered ".switch_" number ++ "_default"

def caseLabels (number : Nat) (values : List (Option Int32)) : List String :=
  values.mapIdx (caseLabel number)

/-- Chooses a case by the value on the stack, the default if no case has it, or
the end. -/
def selection (values : List (Option Int32)) (labels : List String) (finish : String) : Code :=
  let entries := (values.zip labels).filterMap fun (value, label) =>
    value.map fun found => Operand.case found.toInt64 label
  let fallback := ((values.zip labels).find? fun (value, _) => value.isNone).map Prod.snd
  [.ofInstruction "SWITCH" entries, naming "J" (fallback.getD finish)]

mutual

/-- The code of a statement. -/
def statement (environment : Environment) (targets : Targets) : Stmt → Gen Code
  | .declare id => declare environment id
  | .assign target op source => assign environment target op source
  | .branch arms otherwise => do
    let number ← freshNumber
    let finish := numbered ".endif_" number
    let elseLabel := numbered ".else_" number
    let last := if otherwise.isEmpty then finish else elseLabel
    let tested ← armsCode environment targets number finish last 1 arms
    let rest ← block environment targets #[] otherwise
    let marked := if otherwise.isEmpty then [] else .ofLabel elseLabel :: rest.toList
    return tested ++ marked ++ [.ofLabel finish]
  | .loop condition body => do
    let number ← freshNumber
    let start := numbered ".while_" number
    let finish := numbered ".endwhile_" number
    let test ← environment.value condition
    let code ← block environment ⟨some finish, some start⟩ #[] body
    return .ofLabel start :: test ++ naming "JZ" finish :: code.toList ++
      [naming "J" start, .ofLabel finish]
  | .countUp limit counter body => do
    let number ← freshNumber
    let start := numbered ".repeat_" number
    let step := numbered ".repeat_continue_" number
    let finish := numbered ".endrepeat_" number
    let reset ← assign environment counter none (.ofInt 0)
    let count ← environment.value counter
    let bound ← environment.value limit
    let code ← block environment ⟨some finish, some step⟩ #[] body
    let advance ← assign environment counter (some .add) (.ofInt 1)
    return reset ++ .ofLabel start :: count ++ bound ++ naming "ILT_JZ" finish :: code.toList ++
      .ofLabel step :: advance ++ [naming "J" start, .ofLabel finish]
  | .select scrutinee cases => do
    let number ← freshNumber
    let finish := numbered ".endswitch_" number
    let values := cases.map Prod.fst
    let labels := caseLabels number values
    let code ← environment.value scrutinee
    let bodies ← casesCode environment { targets with break? := some finish } labels cases
    return code ++ selection values labels finish ++ bodies ++ [.ofLabel finish]
  | .breakOut => jumpTo .breakOutsideConstruct targets.break?
  | .continueLoop => jumpTo .continueOutsideLoop targets.continue?
  | .goto name => return [naming "J" (userLabel name)]
  | .label name => return [.ofLabel (userLabel name)]
  | .ret none => return [leave environment.frame]
  | .ret (some e) => do return (← environment.value e) ++ [leave environment.frame]
  | .evaluate e => do
    let code ← environment.value e
    return code ++ dropWords (← environment.sizes.measure e.ty)

/-- The code of statements, behind the code before them. -/
def block (environment : Environment) (targets : Targets) (before : Array Statement) :
    List Stmt → Gen (Array Statement)
  | [] => pure before
  | first :: rest => do
    let code ← statement environment targets first
    block environment targets (before ++ code) rest

/-- The code of arms. An arm whose condition fails leads to the next, the last
one to `last`. -/
def armsCode (environment : Environment) (targets : Targets) (number : Nat)
    (finish last : String) (position : Nat) : List (Expr × List Stmt) → Gen Code
  | [] => pure []
  | (condition, body) :: rest => do
    let next :=
      if rest.isEmpty then last else numbered (numbered ".elif_" number ++ "_") position
    let test ← environment.value condition
    let code ← block environment targets #[] body
    let others ← armsCode environment targets number finish last (position + 1) rest
    let skip := if next = finish then [] else [naming "J" finish]
    let mark := if rest.isEmpty then [] else [.ofLabel next]
    return test ++ naming "JZ" next :: code.toList ++ skip ++ mark ++ others

/-- The bodies of cases with their labels. One falls through to the next. -/
def casesCode (environment : Environment) (targets : Targets) (labels : List String) :
    List (Option Int32 × List Stmt) → Gen Code
  | [] => pure []
  | (_, body) :: rest => do
    let code ← block environment targets #[] body
    let others ← casesCode environment targets labels.tail rest
    return .ofLabel (labels.headD "") :: code.toList ++ others

end

end ScriptBackend.Lowering
