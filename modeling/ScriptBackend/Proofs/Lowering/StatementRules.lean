import ScriptBackend.Lowering.Compiled
import ScriptBackend.Proofs.Lowering.Rules

/-!
The rules for statements, bodies and functions, on top of those for expressions.
Generators of bodies put their code behind the code before them; in the rules a
body has code of its own.
-/
namespace ScriptBackend.Lowering

open ScriptBackend.Assembly

/-- The code that stores the value on the stack in a place. -/
inductive Stores (environment : Environment) : Expr → Nat → Code → Nat → Prop where
  | words {target : Expr} {n m : Nat} {code : Code}
      (several : environment.sizes.of target.ty ≠ 1)
      (place : Emits environment (.place target) n code m) :
      Stores environment target n
        (counted "PUSH_CONST" [environment.sizes.of target.ty] :: code ++ [plain "STORE_N"]) m
  | variable {info : Info} {id : Nat} {code : Code} (n : Nat)
      (single : environment.sizes.of info.ty = 1)
      (stored : environment.variableStore id = .ok code) :
      Stores environment (.var info id) n code n
  | member {info : Info} {base : Expr} {field : String} {offset n m : Nat} {code : Code}
      (single : environment.sizes.of info.ty = 1)
      (placed : environment.memberOffset base.ty field = .ok offset)
      (place : Emits environment (.place base) n code m) :
      Stores environment (.member info base field) n
        (code ++ [counted "IOFFSET_CONST_STORE" [offset]]) m
  | index {info : Info} {array position : Expr} {n middle m : Nat} {index code : Code}
      (single : environment.sizes.of info.ty = 1)
      (position_code : Emits environment (.value position) n index middle)
      (place : Emits environment (.place array) middle code m) :
      Stores environment (.index info array position) n
        (index ++ code ++ [counted "ARRAY_STORE" [1]]) m

def assignedValue (target : Expr) (op : Option BinaryOp) (source : Expr) : Expr :=
  match op with
  | none => source
  | some op => .combined op target source

/-- The code of an assignment. -/
inductive Assigns (environment : Environment) :
    Expr → Option BinaryOp → Expr → Nat → Code → Nat → Prop where
  | text {target source : Expr} {op : Option BinaryOp} {mnemonic : String} {n middle m : Nat}
      {content place : Code} (fills : fillsTextLabel target.ty source.ty = true)
      (chosen : textLabelMnemonic? op source.ty = some mnemonic)
      (source_code : Emits environment (.value source) n content middle)
      (target_code : Emits environment (.place target) middle place m) :
      Assigns environment target op source n
        (content ++ place ++ [counted mnemonic [environment.sizes.of target.ty * 8]]) m
  | value {target source : Expr} {op : Option BinaryOp} {n middle m : Nat} {content place : Code}
      (other : fillsTextLabel target.ty source.ty = false)
      (source_code : Emits environment (.value (assignedValue target op source)) n content middle)
      (stores : Stores environment target middle place m) :
      Assigns environment target op source n (content ++ place) m

/-- The code of the declaration of a local. -/
inductive Declares (environment : Environment) : Nat → Nat → Code → Nat → Prop where
  | reference {id n m : Nat} {declared : Variable} {slot : Slot} {target : Expr} {code : Code}
      (declaration : environment.declaration id = .ok declared)
      (placed : environment.slots.slot environment.program id = .ok slot)
      (isRef : declared.ty.isRef = true) (initialized : declared.initializer = some target)
      (target_code : Emits environment (.place target) n code m) :
      Declares environment id n (code ++ [counted "LOCAL_STORE" [slot.index]]) m
  | initialized {id n m : Nat} {declared : Variable} {e : Expr} {code : Code}
      (declaration : environment.declaration id = .ok declared)
      (isValue : declared.ty.isRef = false) (initialized : declared.initializer = some e)
      (assigns : Assigns environment (.ofVariable environment.program id) none e n code m) :
      Declares environment id n code m
  | defaults {id : Nat} {declared : Variable} {slot : Slot} {words : List Datum} (n : Nat)
      (declaration : environment.declaration id = .ok declared)
      (placed : environment.slots.slot environment.program id = .ok slot)
      (isValue : declared.ty.isRef = false) (uninitialized : declared.initializer = none)
      (words_eq : defaultWords environment.toSetting declared.ty = .ok words) :
      Declares environment id n (storeDefaults declared.name slot words) n

/-- What code of statements can be for. -/
inductive Part where
  | statement (s : Stmt)
  | block (statements : List Stmt)
  /-- The arms of a branch from a position on, with its number, its end and the
  label behind the last of them. -/
  | arms (number : Nat) (finish last : String) (position : Nat) (arms : List (Expr × List Stmt))
  /-- Cases of a selection with their labels. -/
  | cases (labels : List String) (cases : List (Option Int32 × List Stmt))

/-- The label to which an arm leads when its condition fails. -/
def nextArm (number : Nat) (last : String) (position : Nat) (rest : List (Expr × List Stmt)) :
    String :=
  if rest.isEmpty then last else armLabel number position

/-- The code behind the body of an arm: it leaves the branch, unless the end
comes next. -/
def armEnd (number : Nat) (finish last : String) (position : Nat) (rest : List (Expr × List Stmt)) :
    Code :=
  (if nextArm number last position rest = finish then [] else [naming "J" finish]) ++
    if rest.isEmpty then [] else [.ofLabel (nextArm number last position rest)]

def afterArms (number : Nat) (otherwise : List Stmt) : String :=
  if otherwise.isEmpty then numbered ".endif_" number else numbered ".else_" number

/-- The code for a part of a body, and the numbers that its labels take. -/
inductive Generates (environment : Environment) : Targets → Part → Nat → Code → Nat → Prop where
  | declare {targets : Targets} {id n m : Nat} {code : Code}
      (declares : Declares environment id n code m) :
      Generates environment targets (.statement (.declare id)) n code m
  | assign {targets : Targets} {target source : Expr} {op : Option BinaryOp}
      {n m : Nat} {code : Code} (assigns : Assigns environment target op source n code m) :
      Generates environment targets (.statement (.assign target op source)) n code m
  | branch {targets : Targets} {arms : List (Expr × List Stmt)} {otherwise : List Stmt}
      {n middle m : Nat} {tested rest : Code}
      (arms_code : Generates environment targets
        (.arms n (numbered ".endif_" n) (afterArms n otherwise) 1 arms) (n + 1) tested middle)
      (otherwise_code : Generates environment targets (.block otherwise) middle rest m) :
      Generates environment targets (.statement (.branch arms otherwise)) n
        (tested ++ (if otherwise.isEmpty then [] else .ofLabel (numbered ".else_" n) :: rest) ++
          [.ofLabel (numbered ".endif_" n)]) m
  | loop {targets : Targets} {condition : Expr} {body : List Stmt} {n middle m : Nat}
      {test code : Code} (condition_code : Emits environment (.value condition) (n + 1) test middle)
      (body_code : Generates environment
        ⟨some (numbered ".endwhile_" n), some (numbered ".while_" n)⟩ (.block body) middle code m) :
      Generates environment targets (.statement (.loop condition body)) n
        (.ofLabel (numbered ".while_" n) :: test ++ naming "JZ" (numbered ".endwhile_" n) :: code ++
          [naming "J" (numbered ".while_" n), .ofLabel (numbered ".endwhile_" n)]) m
  | countUp {targets : Targets} {limit counter : Expr} {body : List Stmt} {n n₁ n₂ n₃ n₄ m : Nat}
      {reset count bound code advance : Code}
      (reset_code : Assigns environment counter none (.ofInt 0) (n + 1) reset n₁)
      (counter_code : Emits environment (.value counter) n₁ count n₂)
      (limit_code : Emits environment (.value limit) n₂ bound n₃)
      (body_code : Generates environment
        ⟨some (numbered ".endrepeat_" n), some (numbered ".repeat_continue_" n)⟩ (.block body)
        n₃ code n₄)
      (advance_code : Assigns environment counter (some .add) (.ofInt 1) n₄ advance m) :
      Generates environment targets (.statement (.countUp limit counter body)) n
        (reset ++ .ofLabel (numbered ".repeat_" n) :: count ++ bound ++
          naming "ILT_JZ" (numbered ".endrepeat_" n) :: code ++
          .ofLabel (numbered ".repeat_continue_" n) :: advance ++
          [naming "J" (numbered ".repeat_" n), .ofLabel (numbered ".endrepeat_" n)]) m
  | select {targets : Targets} {scrutinee : Expr} {cases : List (Option Int32 × List Stmt)}
      {n middle m : Nat} {code bodies : Code}
      (scrutinee_code : Emits environment (.value scrutinee) (n + 1) code middle)
      (cases_code : Generates environment { targets with break? := some (numbered ".endswitch_" n) }
        (.cases (caseLabels n (cases.map Prod.fst)) cases) middle bodies m) :
      Generates environment targets (.statement (.select scrutinee cases)) n
        (code ++ selection (cases.map Prod.fst) (caseLabels n (cases.map Prod.fst))
            (numbered ".endswitch_" n) ++
          bodies ++ [.ofLabel (numbered ".endswitch_" n)]) m
  | breakOut {targets : Targets} {label : String} (n : Nat) (target : targets.break? = some label) :
      Generates environment targets (.statement .breakOut) n [naming "J" label] n
  | continueLoop {targets : Targets} {label : String} (n : Nat)
      (target : targets.continue? = some label) :
      Generates environment targets (.statement .continueLoop) n [naming "J" label] n
  | goto (targets : Targets) (name : String) (n : Nat) :
      Generates environment targets (.statement (.goto name)) n [naming "J" (userLabel name)] n
  | label (targets : Targets) (name : String) (n : Nat) :
      Generates environment targets (.statement (.label name)) n [.ofLabel (userLabel name)] n
  | ret (targets : Targets) (n : Nat) :
      Generates environment targets (.statement (.ret none)) n [leave environment.frame] n
  | retValue {targets : Targets} {e : Expr} {n m : Nat} {code : Code}
      (value_code : Emits environment (.value e) n code m) :
      Generates environment targets (.statement (.ret (some e))) n
        (code ++ [leave environment.frame]) m
  | evaluate {targets : Targets} {e : Expr} {n m : Nat} {code : Code}
      (value_code : Emits environment (.value e) n code m) :
      Generates environment targets (.statement (.evaluate e)) n
        (code ++ dropWords (environment.sizes.of e.ty)) m
  | nil (targets : Targets) (n : Nat) : Generates environment targets (.block []) n [] n
  | cons {targets : Targets} {first : Stmt} {rest : List Stmt} {n middle m : Nat}
      {code others : Code}
      (first_code : Generates environment targets (.statement first) n code middle)
      (rest_code : Generates environment targets (.block rest) middle others m) :
      Generates environment targets (.block (first :: rest)) n (code ++ others) m
  | noArms (targets : Targets) (number : Nat) (finish last : String) (position n : Nat) :
      Generates environment targets (.arms number finish last position []) n [] n
  | arm {targets : Targets} {number position : Nat} {finish last : String} {condition : Expr}
      {body : List Stmt} {rest : List (Expr × List Stmt)} {n n₁ n₂ m : Nat}
        {test code others : Code}
      (condition_code : Emits environment (.value condition) n test n₁)
      (body_code : Generates environment targets (.block body) n₁ code n₂)
      (rest_code : Generates environment targets (.arms number finish last (position + 1) rest)
        n₂ others m) :
      Generates environment targets
        (.arms number finish last position ((condition, body) :: rest)) n
        (test ++ naming "JZ" (nextArm number last position rest) :: code ++
          armEnd number finish last position rest ++ others) m
  | noCases (targets : Targets) (labels : List String) (n : Nat) :
      Generates environment targets (.cases labels []) n [] n
  | case {targets : Targets} {labels : List String} {value : Option Int32} {body : List Stmt}
      {rest : List (Option Int32 × List Stmt)} {n middle m : Nat} {code others : Code}
      (body_code : Generates environment targets (.block body) n code middle)
      (rest_code : Generates environment targets (.cases labels.tail rest) middle others m) :
      Generates environment targets (.cases labels ((value, body) :: rest)) n
        (.ofLabel (labels.headD "") :: code ++ others) m

section Generators

variable {environment : Environment} {n m : Nat} {code : Code}

/-- Each way to store a value is one of the rules. -/
theorem store_stores {target : Expr} (h : (store environment target).run n = .ok (code, m)) :
    Stores environment target n code m := by
  obtain ⟨size, hSize, h⟩ := run_lift_bind_eq_ok.mp h
  obtain rfl := Sizes.of_eq_of_measure hSize
  split at h
  · next hSeveral =>
      obtain ⟨place, _, hPlace, h⟩ := run_bind_eq_ok.mp h
      obtain ⟨rfl, rfl⟩ := run_pure_eq_ok.mp h
      exact .words hSeveral (environment.address_emits hPlace)
  · next hSingle =>
      have hSize := Decidable.not_not.mp hSingle
      split at h
      · obtain ⟨hStored, rfl⟩ := run_lift_eq_ok.mp h
        exact .variable _ hSize hStored
      · obtain ⟨offset, hOffset, h⟩ := run_lift_bind_eq_ok.mp h
        obtain ⟨place, _, hPlace, h⟩ := run_bind_eq_ok.mp h
        obtain ⟨rfl, rfl⟩ := run_pure_eq_ok.mp h
        exact .member hSize hOffset (environment.address_emits hPlace)
      · obtain ⟨index, _, hIndex, h⟩ := run_bind_eq_ok.mp h
        obtain ⟨place, _, hPlace, h⟩ := run_bind_eq_ok.mp h
        obtain ⟨rfl, rfl⟩ := run_pure_eq_ok.mp h
        exact .index hSize (environment.value_emits hIndex) (environment.address_emits hPlace)
      · cases (run_lift_eq_ok.mp h).1

/-- Each way to lower an assignment is one of the rules. -/
theorem assign_assigns {target source : Expr} {op : Option BinaryOp}
    (h : (assign environment target op source).run n = .ok (code, m)) :
    Assigns environment target op source n code m := by
  unfold assign at h
  split at h
  · next hFills =>
      unfold assignTextLabel at h
      split at h
      · cases (run_lift_eq_ok.mp h).1
      · next mnemonic hMnemonic =>
          obtain ⟨size, hSize, h⟩ := run_lift_bind_eq_ok.mp h
          obtain rfl := Sizes.of_eq_of_measure hSize
          obtain ⟨_, _, h⟩ := run_lift_bind_eq_ok.mp h
          obtain ⟨content, _, hContent, h⟩ := run_bind_eq_ok.mp h
          obtain ⟨place, _, hPlace, h⟩ := run_bind_eq_ok.mp h
          obtain ⟨rfl, rfl⟩ := run_pure_eq_ok.mp h
          exact .text hFills hMnemonic (environment.value_emits hContent)
            (environment.address_emits hPlace)
  · next hOther =>
      have hOther := Bool.eq_false_iff.mpr hOther
      cases op with
      | none =>
          obtain ⟨content, _, hContent, h⟩ := run_bind_eq_ok.mp h
          obtain ⟨place, _, hPlace, h⟩ := run_bind_eq_ok.mp h
          obtain ⟨rfl, rfl⟩ := run_pure_eq_ok.mp h
          exact .value hOther (environment.value_emits hContent) (store_stores hPlace)
      | some op =>
          obtain ⟨content, _, hContent, h⟩ := run_bind_eq_ok.mp h
          obtain ⟨place, _, hPlace, h⟩ := run_bind_eq_ok.mp h
          obtain ⟨rfl, rfl⟩ := run_pure_eq_ok.mp h
          exact .value hOther (environment.value_emits hContent) (store_stores hPlace)

/-- Each way to lower a declaration is one of the rules. -/
theorem declare_declares {id : Nat} (h : (declare environment id).run n = .ok (code, m)) :
    Declares environment id n code m := by
  obtain ⟨declared, hDeclared, h⟩ := run_lift_bind_eq_ok.mp h
  obtain ⟨slot, hSlot, h⟩ := run_lift_bind_eq_ok.mp h
  split at h
  · next hRef =>
      split at h
      · cases (run_lift_eq_ok.mp h).1
      · next target hTarget =>
          obtain ⟨place, _, hPlace, h⟩ := run_bind_eq_ok.mp h
          obtain ⟨rfl, rfl⟩ := run_pure_eq_ok.mp h
          exact .reference hDeclared hSlot hRef hTarget (environment.address_emits hPlace)
  · next hValue =>
      have hValue := Bool.eq_false_iff.mpr hValue
      split at h
      · next e hInitialized => exact .initialized hDeclared hValue hInitialized (assign_assigns h)
      · next hUninitialized =>
          obtain ⟨words, hWords, h⟩ := run_lift_bind_eq_ok.mp h
          obtain ⟨rfl, rfl⟩ := run_pure_eq_ok.mp h
          exact .defaults _ hDeclared hSlot hValue hUninitialized hWords

mutual

/-- Each way to lower a statement is one of the rules. The cases follow the
recursion of the lowering. -/
theorem statement_generates (targets : Targets) :
    ∀ (s : Stmt) (n : Nat) (code : Code) (m : Nat),
      (statement environment targets s).run n = .ok (code, m) →
      Generates environment targets (.statement s) n code m := by
  intro s n code m h
  cases s with
  | declare id => exact .declare (declare_declares h)
  | assign target op source => exact .assign (assign_assigns h)
  | branch arms otherwise =>
      rw [statement] at h
      obtain ⟨number, _, hNumber, h⟩ := run_bind_eq_ok.mp h
      obtain ⟨rfl, rfl⟩ := run_freshNumber_eq_ok.mp hNumber
      obtain ⟨tested, _, hTested, h⟩ := run_bind_eq_ok.mp h
      obtain ⟨rest, _, hRest, h⟩ := run_bind_eq_ok.mp h
      obtain ⟨rfl, rfl⟩ := run_pure_eq_ok.mp h
      obtain ⟨own, hOwn, hOtherwise⟩ := block_generates targets otherwise _ _ _ _ hRest
      rw [hOwn]
      exact .branch (arms_generates targets arms _ _ _ _ _ _ _ hTested) hOtherwise
  | loop condition body =>
      rw [statement] at h
      obtain ⟨number, _, hNumber, h⟩ := run_bind_eq_ok.mp h
      obtain ⟨rfl, rfl⟩ := run_freshNumber_eq_ok.mp hNumber
      obtain ⟨test, _, hTest, h⟩ := run_bind_eq_ok.mp h
      obtain ⟨made, _, hMade, h⟩ := run_bind_eq_ok.mp h
      obtain ⟨rfl, rfl⟩ := run_pure_eq_ok.mp h
      obtain ⟨own, hOwn, hBody⟩ := block_generates _ body _ _ _ _ hMade
      rw [hOwn]
      exact .loop (environment.value_emits hTest) hBody
  | countUp limit counter body =>
      rw [statement] at h
      obtain ⟨number, _, hNumber, h⟩ := run_bind_eq_ok.mp h
      obtain ⟨rfl, rfl⟩ := run_freshNumber_eq_ok.mp hNumber
      obtain ⟨reset, _, hReset, h⟩ := run_bind_eq_ok.mp h
      obtain ⟨count, _, hCount, h⟩ := run_bind_eq_ok.mp h
      obtain ⟨bound, _, hBound, h⟩ := run_bind_eq_ok.mp h
      obtain ⟨made, _, hMade, h⟩ := run_bind_eq_ok.mp h
      obtain ⟨advance, _, hAdvance, h⟩ := run_bind_eq_ok.mp h
      obtain ⟨rfl, rfl⟩ := run_pure_eq_ok.mp h
      obtain ⟨own, hOwn, hBody⟩ := block_generates _ body _ _ _ _ hMade
      rw [hOwn]
      exact .countUp (assign_assigns hReset) (environment.value_emits hCount)
        (environment.value_emits hBound) hBody (assign_assigns hAdvance)
  | select scrutinee cases =>
      rw [statement] at h
      obtain ⟨number, _, hNumber, h⟩ := run_bind_eq_ok.mp h
      obtain ⟨rfl, rfl⟩ := run_freshNumber_eq_ok.mp hNumber
      obtain ⟨test, _, hTest, h⟩ := run_bind_eq_ok.mp h
      obtain ⟨bodies, _, hBodies, h⟩ := run_bind_eq_ok.mp h
      obtain ⟨rfl, rfl⟩ := run_pure_eq_ok.mp h
      exact .select (environment.value_emits hTest) (cases_generates _ cases _ _ _ _ hBodies)
  | breakOut =>
      rw [statement] at h
      obtain ⟨hJump, rfl⟩ := run_lift_eq_ok.mp h
      unfold jumpTo at hJump
      split at hJump
      · next label hLabel =>
          cases hJump
          exact .breakOut _ hLabel
      · cases hJump
  | continueLoop =>
      rw [statement] at h
      obtain ⟨hJump, rfl⟩ := run_lift_eq_ok.mp h
      unfold jumpTo at hJump
      split at hJump
      · next label hLabel =>
          cases hJump
          exact .continueLoop _ hLabel
      · cases hJump
  | goto name =>
      obtain ⟨rfl, rfl⟩ := run_pure_eq_ok.mp h
      exact .goto targets name _
  | label name =>
      obtain ⟨rfl, rfl⟩ := run_pure_eq_ok.mp h
      exact .label targets name _
  | ret result =>
      cases result with
      | none =>
          obtain ⟨rfl, rfl⟩ := run_pure_eq_ok.mp h
          exact .ret targets _
      | some e =>
          rw [statement] at h
          obtain ⟨value, _, hValue, h⟩ := run_bind_eq_ok.mp h
          obtain ⟨rfl, rfl⟩ := run_pure_eq_ok.mp h
          exact .retValue (environment.value_emits hValue)
  | evaluate e =>
      rw [statement] at h
      obtain ⟨value, _, hValue, h⟩ := run_bind_eq_ok.mp h
      obtain ⟨size, hSize, h⟩ := run_lift_bind_eq_ok.mp h
      obtain rfl := Sizes.of_eq_of_measure hSize
      obtain ⟨rfl, rfl⟩ := run_pure_eq_ok.mp h
      exact .evaluate (environment.value_emits hValue)

/-- The statements of a block are lowered by the rules in order. -/
theorem block_generates (targets : Targets) :
    ∀ (statements : List Stmt) (before : Array Statement) (n : Nat)
      (code : Array Statement) (m : Nat),
      (block environment targets before statements).run n = .ok (code, m) →
      ∃ own, code.toList = before.toList ++ own ∧
        Generates environment targets (.block statements) n own m := by
  intro statements before n code m h
  cases statements with
  | nil =>
      obtain ⟨rfl, rfl⟩ := run_pure_eq_ok.mp h
      exact ⟨[], by simp, .nil targets _⟩
  | cons first rest =>
      rw [block] at h
      obtain ⟨made, _, hMade, h⟩ := run_bind_eq_ok.mp h
      obtain ⟨own, hOwn, hRest⟩ := block_generates targets rest _ _ _ _ h
      exact ⟨made ++ own, by simp [hOwn],
        .cons (statement_generates targets first _ _ _ hMade) hRest⟩

theorem arms_generates (targets : Targets) :
    ∀ (arms : List (Expr × List Stmt)) (number : Nat) (finish last : String) (position n : Nat)
      (code : Code) (m : Nat),
      (armsCode environment targets number finish last position arms).run n = .ok (code, m) →
      Generates environment targets (.arms number finish last position arms) n code m := by
  intro arms number finish last position n code m h
  cases arms with
  | nil =>
      obtain ⟨rfl, rfl⟩ := run_pure_eq_ok.mp h
      exact .noArms targets number finish last position _
  | cons first rest =>
      obtain ⟨condition, body⟩ := first
      rw [armsCode] at h
      obtain ⟨test, _, hTest, h⟩ := run_bind_eq_ok.mp h
      obtain ⟨made, _, hMade, h⟩ := run_bind_eq_ok.mp h
      obtain ⟨others, _, hOthers, h⟩ := run_bind_eq_ok.mp h
      obtain ⟨rfl, rfl⟩ := run_pure_eq_ok.mp h
      obtain ⟨own, hOwn, hBody⟩ := block_generates targets body _ _ _ _ hMade
      have hArm := Generates.arm (environment.value_emits hTest) hBody
        (arms_generates targets rest _ _ _ _ _ _ _ hOthers)
      rw [hOwn]
      simpa [armEnd, nextArm, armLabel] using hArm

theorem cases_generates (targets : Targets) :
    ∀ (cases : List (Option Int32 × List Stmt)) (labels : List String) (n : Nat) (code : Code)
      (m : Nat), (casesCode environment targets labels cases).run n = .ok (code, m) →
      Generates environment targets (.cases labels cases) n code m := by
  intro cases labels n code m h
  cases cases with
  | nil =>
      obtain ⟨rfl, rfl⟩ := run_pure_eq_ok.mp h
      exact .noCases targets labels _
  | cons first rest =>
      obtain ⟨value, body⟩ := first
      rw [casesCode] at h
      obtain ⟨made, _, hMade, h⟩ := run_bind_eq_ok.mp h
      obtain ⟨others, _, hOthers, h⟩ := run_bind_eq_ok.mp h
      obtain ⟨rfl, rfl⟩ := run_pure_eq_ok.mp h
      obtain ⟨own, hOwn, hBody⟩ := block_generates targets body _ _ _ _ hMade
      rw [hOwn]
      exact .case hBody (cases_generates targets rest _ _ _ _ hOthers)

end

end Generators

/-- The instruction that a function begins with. It carries the name of the
function. -/
def enter (frame : Frame) (name : String) : Statement :=
  { counted "ENTER" [frame.parameterWords, frame.size] with label := some name }

/-- Code is generated for a function, behind other code and with labels numbered
from somewhere on. -/
def GeneratesFunction (setting : Setting) (id : Nat) (own : Code) : Prop :=
  ∃ (before code : Array Statement) (n m : Nat),
    (functionCode setting before id).run n = .ok (code, m) ∧ code.toList = before.toList ++ own

/-- The code of functions, one behind the other. -/
inductive FunctionsGenerate (setting : Setting) : List Nat → Nat → Code → Nat → Prop where
  | nil (n : Nat) : FunctionsGenerate setting [] n [] n
  | cons {id : Nat} {rest : List Nat} {function : Function} {frame : Frame} {n middle m : Nat}
      {body others : Code} (declared : setting.program.functions[id]? = some function)
      (framed : setting.slots.frame id = .ok frame) (fits : frame.size < UInt32.size)
      (body_code : Generates { setting with frame := frame } ⟨none, none⟩ (.block function.body)
        n body middle)
      (made : GeneratesFunction setting id (enter frame function.name :: body ++
        if endsInReturn function.body then [] else [leave frame]))
      (rest_code : FunctionsGenerate setting rest middle others m) :
      FunctionsGenerate setting (id :: rest) n
        (enter frame function.name :: body ++
          (if endsInReturn function.body then [] else [leave frame]) ++ others) m

section Functions

variable {setting : Setting} {n m : Nat}

/-- A function is lowered as its entry, its body and the instruction that leaves
it. -/
theorem functionCode_generates {before code : Array Statement} {id : Nat}
    (h : (functionCode setting before id).run n = .ok (code, m)) :
    ∃ function frame body, setting.program.functions[id]? = some function ∧
      setting.slots.frame id = .ok frame ∧ frame.size < UInt32.size ∧
      Generates { setting with frame := frame } ⟨none, none⟩ (.block function.body) n body m ∧
      code.toList = before.toList ++ (enter frame function.name :: body ++
        if endsInReturn function.body then [] else [leave frame]) := by
  unfold functionCode at h
  split at h
  · cases h
  · next function hFunction =>
      obtain ⟨frame, hFrame, h⟩ := run_lift_bind_eq_ok.mp h
      obtain ⟨_, hFits, h⟩ := run_lift_bind_eq_ok.mp h
      obtain ⟨made, _, hMade, h⟩ := run_bind_eq_ok.mp h
      obtain ⟨rfl, rfl⟩ := run_pure_eq_ok.mp h
      obtain ⟨body, hBody, hGenerates⟩ := block_generates _ _ _ _ _ _ hMade
      have hSize := of_decide_eq_true (Sizes.guarded_eq_ok.mp hFits)
      refine ⟨function, frame, body, hFunction, hFrame, hSize, hGenerates, ?_⟩
      split <;> simp [hBody, enter]

/-- The code of functions follows the rules, behind the code before it. -/
theorem functionsCode_generates {ids : List Nat} {before code : Array Statement}
    (h : (functionsCode setting before ids).run n = .ok (code, m)) :
    ∃ own, code.toList = before.toList ++ own ∧ FunctionsGenerate setting ids n own m := by
  induction ids generalizing before n with
  | nil =>
      obtain ⟨rfl, rfl⟩ := run_pure_eq_ok.mp h
      exact ⟨[], by simp, .nil _⟩
  | cons id rest ih =>
      obtain ⟨first, _, hFirst, h⟩ := run_bind_eq_ok.mp h
      obtain ⟨others, hOthers, hRest⟩ := ih h
      obtain ⟨function, frame, body, hFunction, hFrame, hFits, hBody, hCode⟩ :=
        functionCode_generates hFirst
      exact ⟨_, by simp [hOthers, hCode],
        .cons hFunction hFrame hFits hBody ⟨_, _, _, _, hFirst, hCode⟩ hRest⟩

end Functions
end ScriptBackend.Lowering
