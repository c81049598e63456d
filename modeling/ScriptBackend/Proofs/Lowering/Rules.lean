import ScriptBackend.Lowering.Block
import ScriptBackend.Proofs.Lowering.Generation

/-!
What generators emit, as rules. One rule stands for one way in which code of an
expression is put together; that generators follow the rules is proved once, and
what holds of all code is proved by induction on the rules.
-/
namespace ScriptBackend.Lowering

open ScriptBackend.Assembly

/-- What code of expressions can be for. -/
inductive Task where
  /-- The value of an expression. -/
  | value (e : Expr)
  /-- The value of an expression that does not become words known at compile
  time. -/
  | node (e : Expr)
  /-- An operand of a chain of one operator that ends at a label. -/
  | operand (op : BinaryOp) (finish : String) (e : Expr)
  /-- The address at which parts of an expression are read. -/
  | source (e : Expr)
  /-- The address of an expression that is stored, for reading. -/
  | stored (e : Expr)
  /-- The address of a place. -/
  | place (e : Expr)
  | arguments (parameters : List Ty) (passed : List Expr)

def Expr.literal? : Expr → Option Datum
  | .int _ number => some (.ofInt32 number)
  | .bool _ truth => some (.ofBool truth)
  | .text _ content => some (.text content)
  | .null _ => some (.int 0)
  | .float _ number => if number.isFinite then some (.float number) else none
  | _ => none

/-- The code that copies a value of a size to the scratch words and pushes their
address. -/
def spillCode (frame : Frame) (size : Nat) : Code :=
  (if size = 1 then [commented "scratch" (counted "LOCAL_STORE" [frame.scratchOffset])]
    else [counted "PUSH_CONST" [size], counted "LOCAL" [frame.scratchOffset],
      commented "scratch" (plain "STORE_N")]) ++ [counted "LOCAL" [frame.scratchOffset]]

def passesAddress (parameters : List Ty) : Bool :=
  (parameters.head?.map Ty.isRef).getD false

/-- The code for a task, and the numbers that its labels take. -/
inductive Emits (environment : Environment) : Task → Nat → Code → Nat → Prop where
  | known {e : Expr} {words : List Datum} (n : Nat)
      (words_eq : knownWords? environment.toSetting e = some words) :
      Emits environment (.value e) n (pushData words) n
  | computed {e : Expr} {n m : Nat} {code : Code}
      (unknown : knownWords? environment.toSetting e = none)
      (node : Emits environment (.node e) n code m) :
      Emits environment (.value e) n code m
  | literal {e : Expr} {word : Datum} (n : Nat) (word_eq : Expr.literal? e = some word) :
      Emits environment (.node e) n (pushData [word]) n
  | vector {info : Info} {x y z : Expr} {n₀ n₁ n₂ n₃ : Nat} {first second third : Code}
      (x_code : Emits environment (.value x) n₀ first n₁)
      (y_code : Emits environment (.value y) n₁ second n₂)
      (z_code : Emits environment (.value z) n₂ third n₃) :
      Emits environment (.node (.vector info x y z)) n₀
        (first ++ componentConversion x.ty ++ (second ++ componentConversion y.ty) ++
          (third ++ componentConversion z.ty)) n₃
  | constant {info : Info} {id n m : Nat} {declared : Variable} {initializer : Expr} {code : Code}
      (declaration : environment.declaration id = .ok declared)
      (storage : declared.storage = .constant)
      (initialized : declared.initializer = some initializer)
      (inlined : Emits environment (.value initializer) n code m) :
      Emits environment (.node (.var info id)) n code m
  | variable {info : Info} {id : Nat} {declared : Variable} {code : Code} (n : Nat)
      (declaration : environment.declaration id = .ok declared)
      (storage : declared.storage ≠ .constant)
      (load : environment.variableLoad id = .ok code) :
      Emits environment (.node (.var info id)) n code n
  | functionRef {info : Info} {id : Nat} {name : String} (n : Nat)
      (named : functionName environment.toSetting id = .ok name) :
      Emits environment (.node (.functionRef info id)) n [naming "PUSH_CONST" name] n
  | neg {info : Info} {operand : Expr} {n m : Nat} {code : Code}
      (operand_code : Emits environment (.value operand) n code m) :
      Emits environment (.node (.neg info operand)) n
        (code ++ [plain ((Family.ofTy operand.ty).letter ++ "NEG")]) m
  | not {info : Info} {operand : Expr} {n m : Nat} {code : Code}
      (operand_code : Emits environment (.value operand) n code m) :
      Emits environment (.node (.not info operand)) n (code ++ [plain "INOT"]) m
  | shortCircuit {info : Info} {op : BinaryOp} {left right : Expr} {n middle m : Nat}
      {first second : Code} (short : op.isShortCircuit = true)
      (left_code : Emits environment (.operand op (chainEnd op n) left) (n + 1) first middle)
      (right_code : Emits environment (.operand op (chainEnd op n) right) middle second m) :
      Emits environment (.node (.binary info op left right)) n
        (first ++ decision op (chainEnd op n) ++ second ++ [.ofLabel (chainEnd op n)]) m
  | binary {info : Info} {op : BinaryOp} {left right : Expr} {n middle m : Nat} {family : Family}
      {mnemonic : String} {first second : Code} (long : op.isShortCircuit = false)
      (chosen : operation op left.ty right.ty = .ok (family, mnemonic))
      (left_code : Emits environment (.value left) n first middle)
      (right_code : Emits environment (.value right) middle second m) :
      Emits environment (.node (.binary info op left right)) n
        (first ++ family.widening left.ty ++ (second ++ family.widening right.ty) ++
          [plain mnemonic]) m
  | memberWord {info : Info} {base : Expr} {field : String} {offset n m : Nat} {code : Code}
      (single : environment.sizes.of info.ty = 1)
      (placed : environment.memberOffset base.ty field = .ok offset)
      (base_code : Emits environment (.source base) n code m) :
      Emits environment (.node (.member info base field)) n
        (code ++ [counted "IOFFSET_CONST_LOAD" [offset]]) m
  | memberWords {info : Info} {base : Expr} {field : String} {offset n m : Nat} {code : Code}
      (several : environment.sizes.of info.ty ≠ 1)
      (placed : environment.memberOffset base.ty field = .ok offset)
      (base_code : Emits environment (.source base) n code m) :
      Emits environment (.node (.member info base field)) n
        (counted "PUSH_CONST" [environment.sizes.of info.ty] :: code ++ atOffset offset ++
          [plain "LOAD_N"]) m
  | indexWord {info : Info} {array position : Expr} {n middle m : Nat} {index code : Code}
      (single : environment.sizes.of info.ty = 1)
      (position_code : Emits environment (.value position) n index middle)
      (array_code : Emits environment (.source array) middle code m) :
      Emits environment (.node (.index info array position)) n
        (index ++ code ++ [counted "ARRAY_LOAD" [1]]) m
  | indexWords {info : Info} {array position : Expr} {n middle m : Nat} {index code : Code}
      (several : environment.sizes.of info.ty ≠ 1)
      (position_code : Emits environment (.value position) n index middle)
      (array_code : Emits environment (.source array) middle code m) :
      Emits environment (.node (.index info array position)) n
        (counted "PUSH_CONST" [environment.sizes.of info.ty] :: index ++ code ++
          [counted "ARRAY" [environment.sizes.of info.ty], plain "LOAD_N"]) m
  | call {info : Info} {id n m : Nat} {function : Function} {passed : List Expr}
      {parameters : List Ty} {code : Code}
      (declared : environment.program.functions[id]? = some function)
      (typed : parameterTypes environment.toSetting function = .ok parameters)
      (count : parameters.length = passed.length)
      (arguments_code : Emits environment (.arguments parameters passed) n code m) :
      Emits environment (.node (.call info id passed)) n (code ++ [naming "CALL" function.name]) m
  | callNative {info : Info} {id n m : Nat} {native : NativeSignature} {passed : List Expr}
      {call : Statement} {code : Code}
      (declared : environment.program.natives[id]? = some native)
      (count : native.parameters.length = passed.length)
      (arguments_code : Emits environment (.arguments native.parameters passed) n code m)
      (call_eq : nativeCall environment.toSetting native = .ok call) :
      Emits environment (.node (.callNative info id passed)) n (code ++ [call]) m
  | callThrough {info : Info} {target : Expr} {passed : List Expr} {prototype : Prototype}
      {n middle m : Nat} {code pointer : Code}
      (typed : prototypeOf environment.toSetting target.ty = .ok prototype)
      (count : prototype.parameters.length = passed.length)
      (arguments_code : Emits environment (.arguments prototype.parameters passed) n code middle)
      (target_code : Emits environment (.value target) middle pointer m) :
      Emits environment (.node (.callThrough info target passed)) n
        (code ++ pointer ++ [plain "CALLINDIRECT"]) m
  | convert {info : Info} {operand : Expr} {n m : Nat} {code change : Code}
      (operand_code : Emits environment (.value operand) n code m)
      (change_eq : conversion environment.sizes operand.ty info.ty = .ok change) :
      Emits environment (.node (.convert info operand)) n (code ++ change) m
  | chain {op inner : BinaryOp} {finish : String} {info : Info} {left right : Expr}
      {n middle m : Nat} {first second : Code} (same : (inner == op) = true)
      (left_code : Emits environment (.operand op finish left) n first middle)
      (right_code : Emits environment (.operand op finish right) middle second m) :
      Emits environment (.operand op finish (.binary info inner left right)) n
        (first ++ decision op finish ++ second) m
  | operand {op : BinaryOp} {finish : String} {e : Expr} {n m : Nat} {code : Code}
      (other : continuesChain op e = false) (value_code : Emits environment (.value e) n code m) :
      Emits environment (.operand op finish e) n code m
  | stored {base : Expr} {n m : Nat} {code : Code} (kept : isStored base = true)
      (base_code : Emits environment (.stored base) n code m) :
      Emits environment (.source base) n code m
  | spilled {base : Expr} {n m : Nat} {code : Code} (unkept : isStored base = false)
      (room : environment.sizes.of base.ty ≤ environment.frame.scratchWords)
      (base_code : Emits environment (.value base) n code m) :
      Emits environment (.source base) n
        (code ++ spillCode environment.frame (environment.sizes.of base.ty)) m
  | storedMember {info : Info} {base : Expr} {field : String} {offset n m : Nat} {code : Code}
      (placed : environment.memberOffset base.ty field = .ok offset)
      (base_code : Emits environment (.source base) n code m) :
      Emits environment (.stored (.member info base field)) n (code ++ atOffset offset) m
  | storedIndex {info : Info} {array position : Expr} {n middle m : Nat} {index code : Code}
      (position_code : Emits environment (.value position) n index middle)
      (array_code : Emits environment (.source array) middle code m) :
      Emits environment (.stored (.index info array position)) n
        (index ++ code ++ [counted "ARRAY" [environment.sizes.of info.ty]]) m
  | storedVariable {info : Info} {id : Nat} {code : Code} (n : Nat)
      (address : environment.variableAddress id = .ok code) :
      Emits environment (.stored (.var info id)) n code n
  | placeMember {info : Info} {base : Expr} {field : String} {offset n m : Nat} {code : Code}
      (placed : environment.memberOffset base.ty field = .ok offset)
      (base_code : Emits environment (.place base) n code m) :
      Emits environment (.place (.member info base field)) n (code ++ atOffset offset) m
  | placeIndex {info : Info} {array position : Expr} {n middle m : Nat} {index code : Code}
      (position_code : Emits environment (.value position) n index middle)
      (array_code : Emits environment (.place array) middle code m) :
      Emits environment (.place (.index info array position)) n
        (index ++ code ++ [counted "ARRAY" [environment.sizes.of info.ty]]) m
  | placeVariable {info : Info} {id : Nat} {code : Code} (n : Nat)
      (address : environment.variableAddress id = .ok code) :
      Emits environment (.place (.var info id)) n code n
  | noArguments (parameters : List Ty) (n : Nat) :
      Emits environment (.arguments parameters []) n [] n
  | byAddress {parameters : List Ty} {first : Expr} {rest : List Expr} {n middle m : Nat}
      {code others : Code} (passes : passesAddress parameters = true)
      (first_code : Emits environment (.place first) n code middle)
      (rest_code : Emits environment (.arguments parameters.tail rest) middle others m) :
      Emits environment (.arguments parameters (first :: rest)) n (code ++ others) m
  | byValue {parameters : List Ty} {first : Expr} {rest : List Expr} {n middle m : Nat}
      {code others : Code} (passes : passesAddress parameters = false)
      (first_code : Emits environment (.value first) n code middle)
      (rest_code : Emits environment (.arguments parameters.tail rest) middle others m) :
      Emits environment (.arguments parameters (first :: rest)) n (code ++ others) m

section Generators

variable {environment : Environment} {constant : Expr → Gen Code} {n m : Nat} {code : Code}

/-- The code of a constant expression with a value pushes the words of the value. -/
theorem value_known {e : Expr} {words : List Datum}
    (h : knownWords? environment.toSetting e = some words) (constant : Expr → Gen Code) (n : Nat) :
    (value environment constant e).run n = .ok (pushData words, n) := by
  rw [value.eq_def, h]
  rfl

/-- Words known at compile time are those that folding gives. -/
theorem fold?_of_known {setting : Setting} {e : Expr} {words : List Datum}
    (h : knownWords? setting e = some words) :
    fold? setting.program e = some words := by
  unfold knownWords? at h
  split at h
  · exact h
  · cases h

/-- A value without a place is put to the scratch words, and its address is that
of the first of them. -/
theorem spill_emits {base : Expr} (hKept : isStored base = false)
    (hValue : ∀ n code m, (value environment constant base).run n = .ok (code, m) →
      Emits environment (.value base) n code m)
    (h : (spill environment base.ty (value environment constant base)).run n = .ok (code, m)) :
    Emits environment (.source base) n code m := by
  obtain ⟨size, hSize, h⟩ := run_lift_bind_eq_ok.mp h
  obtain rfl := Sizes.of_eq_of_measure hSize
  dsimp only at h
  split at h
  · cases (run_lift_eq_ok.mp h).1
  · next hRoom =>
      obtain ⟨inner, middle, hInner, hPure⟩ := run_bind_eq_ok.mp h
      obtain ⟨rfl, rfl⟩ := run_pure_eq_ok.mp hPure
      have hEmits := Emits.spilled hKept (Nat.not_lt.mp hRoom) (hValue _ _ _ hInner)
      rwa [spillCode, ← List.append_assoc] at hEmits

/-- As many arguments are passed as there are parameters. -/
theorem checkArguments_ok {name : String} {parameters : List Ty} {passed : List Expr}
    (h : checkArguments name parameters passed = .ok ()) : parameters.length = passed.length := by
  unfold checkArguments at h
  split at h
  · assumption
  · cases h

/-- A constant has the code of its initializer, and any other variable that of a
load. -/
theorem variableValue_emits {info : Info} {id : Nat}
    (hConstant : ∀ e n code m, (constant e).run n = .ok (code, m) →
      Emits environment (.value e) n code m)
    (h : (variableValue environment.toSetting constant id).run n = .ok (code, m)) :
    Emits environment (.node (.var info id)) n code m := by
  obtain ⟨declared, hDeclared, hRest⟩ := run_lift_bind_eq_ok.mp h
  split at hRest
  · next hStorage =>
      split at hRest
      · next initializer hInitializer =>
          exact .constant hDeclared hStorage hInitializer (hConstant _ _ _ _ hRest)
      · cases hRest
  · next hStorage =>
      obtain ⟨hLoad, rfl⟩ := run_lift_eq_ok.mp hRest
      exact .variable _ hDeclared hStorage hLoad

/-- An operand of a chain has the code of a chain if it goes on with it, and
that of a value otherwise. -/
theorem operand_emits {op : BinaryOp} {finish : String} {e : Expr}
    (hChain : ∀ n code m, continuesChain op e = true →
      (chain environment constant op finish e).run n = .ok (code, m) →
      Emits environment (.operand op finish e) n code m)
    (hValue : ∀ n code m, (value environment constant e).run n = .ok (code, m) →
      Emits environment (.value e) n code m)
    (h : (if continuesChain op e then chain environment constant op finish e
      else value environment constant e).run n = .ok (code, m)) :
    Emits environment (.operand op finish e) n code m := by
  split at h
  · next hContinues => exact hChain _ _ _ hContinues h
  · next hOther => exact .operand (Bool.eq_false_iff.mpr hOther) (hValue _ _ _ h)

/-- The source of a part is addressed where it is stored, or else spilled. -/
theorem source_emits {base : Expr}
    (hStored : ∀ n code m, (storedAddress environment constant base).run n = .ok (code, m) →
      Emits environment (.stored base) n code m)
    (hValue : ∀ n code m, (value environment constant base).run n = .ok (code, m) →
      Emits environment (.value base) n code m)
    (h : (if isStored base then storedAddress environment constant base
      else spill environment base.ty (value environment constant base)).run n = .ok (code, m)) :
    Emits environment (.source base) n code m := by
  split at h
  · next hKept => exact .stored hKept (hStored _ _ _ h)
  · next hUnkept => exact spill_emits (Bool.eq_false_iff.mpr hUnkept) hValue h

mutual

/-- Each way to lower a value is one of the rules. The cases follow the
recursion of the lowering. -/
theorem value_emits
    (hConstant : ∀ e n code m, (constant e).run n = .ok (code, m) →
      Emits environment (.value e) n code m) :
    ∀ (e : Expr) (n : Nat) (code : Code) (m : Nat),
      (value environment constant e).run n = .ok (code, m) → Emits environment
      (.value e) n code m := by
  intro e n code m h
  rw [value.eq_def] at h
  split at h
  · next words hKnown =>
      obtain ⟨rfl, rfl⟩ := run_pure_eq_ok.mp h
      exact .known _ hKnown
  next hUnknown =>
  refine .computed hUnknown ?_
  cases e with
  | int info number =>
      obtain ⟨rfl, rfl⟩ := run_pure_eq_ok.mp h
      exact .literal _ rfl
  | float info number =>
      dsimp only at h
      split at h
      · next hFinite =>
          obtain ⟨rfl, rfl⟩ := run_pure_eq_ok.mp h
          exact .literal _ (if_pos hFinite)
      · cases (run_lift_eq_ok.mp h).1
  | bool info truth =>
      obtain ⟨rfl, rfl⟩ := run_pure_eq_ok.mp h
      exact .literal _ rfl
  | text info content =>
      obtain ⟨rfl, rfl⟩ := run_pure_eq_ok.mp h
      exact .literal _ rfl
  | null info =>
      obtain ⟨rfl, rfl⟩ := run_pure_eq_ok.mp h
      exact .literal _ rfl
  | vector info x y z =>
      obtain ⟨first, _, hFirst, h⟩ := run_bind_eq_ok.mp h
      obtain ⟨second, _, hSecond, h⟩ := run_bind_eq_ok.mp h
      obtain ⟨third, _, hThird, h⟩ := run_bind_eq_ok.mp h
      obtain ⟨rfl, rfl⟩ := run_pure_eq_ok.mp h
      exact .vector (value_emits hConstant x _ _ _ hFirst) (value_emits hConstant y _ _ _ hSecond)
        (value_emits hConstant z _ _ _ hThird)
  | var info id => exact variableValue_emits hConstant h
  | functionRef info id =>
      obtain ⟨name, hName, h⟩ := run_lift_bind_eq_ok.mp h
      obtain ⟨rfl, rfl⟩ := run_pure_eq_ok.mp h
      exact .functionRef _ hName
  | neg info operand =>
      obtain ⟨inner, _, hInner, h⟩ := run_bind_eq_ok.mp h
      obtain ⟨rfl, rfl⟩ := run_pure_eq_ok.mp h
      exact .neg (value_emits hConstant operand _ _ _ hInner)
  | not info operand =>
      obtain ⟨inner, _, hInner, h⟩ := run_bind_eq_ok.mp h
      obtain ⟨rfl, rfl⟩ := run_pure_eq_ok.mp h
      exact .not (value_emits hConstant operand _ _ _ hInner)
  | binary info op left right =>
      dsimp only at h
      split at h
      · next hShort =>
          obtain ⟨number, _, hNumber, h⟩ := run_bind_eq_ok.mp h
          obtain ⟨rfl, rfl⟩ := run_freshNumber_eq_ok.mp hNumber
          obtain ⟨first, _, hFirst, h⟩ := run_either_eq_ok.mp h
          obtain ⟨second, _, hSecond, h⟩ := run_either_eq_ok.mp h
          obtain ⟨rfl, rfl⟩ := run_pure_eq_ok.mp h
          exact .shortCircuit hShort
            (operand_emits (chain_emits hConstant op _ left) (value_emits hConstant left) hFirst)
            (operand_emits (chain_emits hConstant op _ right) (value_emits hConstant right) hSecond)
      · next hLong =>
          obtain ⟨⟨family, mnemonic⟩, hChosen, h⟩ := run_lift_bind_eq_ok.mp h
          obtain ⟨first, _, hFirst, h⟩ := run_bind_eq_ok.mp h
          obtain ⟨second, _, hSecond, h⟩ := run_bind_eq_ok.mp h
          obtain ⟨rfl, rfl⟩ := run_pure_eq_ok.mp h
          exact .binary (Bool.eq_false_iff.mpr hLong) hChosen
            (value_emits hConstant left _ _ _ hFirst) (value_emits hConstant right _ _ _ hSecond)
  | member info base field =>
      obtain ⟨size, hSize, h⟩ := run_lift_bind_eq_ok.mp h
      obtain rfl := Sizes.of_eq_of_measure hSize
      obtain ⟨offset, hOffset, h⟩ := run_lift_bind_eq_ok.mp h
      obtain ⟨source, _, hSource, h⟩ := run_either_eq_ok.mp h
      have hBase := source_emits (stored_emits hConstant base) (value_emits hConstant base) hSource
      split at h
      · next hSingle =>
          obtain ⟨rfl, rfl⟩ := run_pure_eq_ok.mp h
          exact .memberWord hSingle hOffset hBase
      · next hSeveral =>
          obtain ⟨rfl, rfl⟩ := run_pure_eq_ok.mp h
          exact .memberWords hSeveral hOffset hBase
  | index info array position =>
      obtain ⟨size, hSize, h⟩ := run_lift_bind_eq_ok.mp h
      obtain rfl := Sizes.of_eq_of_measure hSize
      obtain ⟨index, _, hIndex, h⟩ := run_bind_eq_ok.mp h
      obtain ⟨source, _, hSource, h⟩ := run_either_eq_ok.mp h
      have hPosition := value_emits hConstant position _ _ _ hIndex
      have hArray :=
        source_emits (stored_emits hConstant array) (value_emits hConstant array) hSource
      split at h
      · next hSingle =>
          obtain ⟨rfl, rfl⟩ := run_pure_eq_ok.mp h
          exact .indexWord hSingle hPosition hArray
      · next hSeveral =>
          obtain ⟨rfl, rfl⟩ := run_pure_eq_ok.mp h
          exact .indexWords hSeveral hPosition hArray
  | call info id passed =>
      dsimp only at h
      split at h
      · cases h
      · next function hFunction =>
          obtain ⟨parameters, hParameters, h⟩ := run_lift_bind_eq_ok.mp h
          obtain ⟨_, hCount, h⟩ := run_lift_bind_eq_ok.mp h
          obtain ⟨inner, _, hInner, h⟩ := run_bind_eq_ok.mp h
          obtain ⟨rfl, rfl⟩ := run_pure_eq_ok.mp h
          exact .call hFunction hParameters (checkArguments_ok hCount)
            (arguments_emits hConstant passed _ _ _ _ hInner)
  | callNative info id passed =>
      dsimp only at h
      split at h
      · cases h
      · next native hNative =>
          obtain ⟨_, hCount, h⟩ := run_lift_bind_eq_ok.mp h
          obtain ⟨inner, _, hInner, h⟩ := run_bind_eq_ok.mp h
          obtain ⟨call, hCall, h⟩ := run_lift_bind_eq_ok.mp h
          obtain ⟨rfl, rfl⟩ := run_pure_eq_ok.mp h
          exact .callNative hNative (checkArguments_ok hCount)
            (arguments_emits hConstant passed _ _ _ _ hInner) hCall
  | callThrough info target passed =>
      obtain ⟨prototype, hPrototype, h⟩ := run_lift_bind_eq_ok.mp h
      obtain ⟨_, hCount, h⟩ := run_lift_bind_eq_ok.mp h
      obtain ⟨inner, _, hInner, h⟩ := run_bind_eq_ok.mp h
      obtain ⟨pointer, _, hPointer, h⟩ := run_bind_eq_ok.mp h
      obtain ⟨rfl, rfl⟩ := run_pure_eq_ok.mp h
      exact .callThrough hPrototype (checkArguments_ok hCount)
        (arguments_emits hConstant passed _ _ _ _ hInner)
          (value_emits hConstant target _ _ _ hPointer)
  | convert info operand =>
      obtain ⟨inner, _, hInner, h⟩ := run_bind_eq_ok.mp h
      obtain ⟨change, hChange, h⟩ := run_lift_bind_eq_ok.mp h
      obtain ⟨rfl, rfl⟩ := run_pure_eq_ok.mp h
      exact .convert (value_emits hConstant operand _ _ _ hInner) hChange

/-- Each way to lower a chain is one of the rules. -/
theorem chain_emits
    (hConstant : ∀ e n code m, (constant e).run n = .ok (code, m) →
      Emits environment (.value e) n code m) (op : BinaryOp) (finish : String) :
    ∀ (e : Expr) (n : Nat) (code : Code) (m : Nat), continuesChain op e = true →
      (chain environment constant op finish e).run n = .ok (code, m) →
      Emits environment (.operand op finish e) n code m := by
  intro e n code m hContinues h
  cases e with
  | binary info inner left right =>
      rw [chain] at h
      obtain ⟨first, _, hFirst, h⟩ := run_either_eq_ok.mp h
      obtain ⟨second, _, hSecond, h⟩ := run_either_eq_ok.mp h
      obtain ⟨rfl, rfl⟩ := run_pure_eq_ok.mp h
      exact .chain hContinues
        (operand_emits (chain_emits hConstant op _ left) (value_emits hConstant left) hFirst)
        (operand_emits (chain_emits hConstant op _ right) (value_emits hConstant right) hSecond)
  | _ => cases hContinues

theorem stored_emits
    (hConstant : ∀ e n code m, (constant e).run n = .ok (code, m) →
      Emits environment (.value e) n code m) :
    ∀ (e : Expr) (n : Nat) (code : Code) (m : Nat),
      (storedAddress environment constant e).run n = .ok (code, m) →
      Emits environment (.stored e) n code m := by
  intro e n code m h
  cases e with
  | member info base field =>
      rw [storedAddress] at h
      obtain ⟨offset, hOffset, h⟩ := run_lift_bind_eq_ok.mp h
      obtain ⟨source, _, hSource, h⟩ := run_either_eq_ok.mp h
      obtain ⟨rfl, rfl⟩ := run_pure_eq_ok.mp h
      exact .storedMember hOffset
        (source_emits (stored_emits hConstant base) (value_emits hConstant base) hSource)
  | index info array position =>
      rw [storedAddress] at h
      obtain ⟨size, hSize, h⟩ := run_lift_bind_eq_ok.mp h
      obtain rfl := Sizes.of_eq_of_measure hSize
      obtain ⟨index, _, hIndex, h⟩ := run_bind_eq_ok.mp h
      obtain ⟨source, _, hSource, h⟩ := run_either_eq_ok.mp h
      obtain ⟨rfl, rfl⟩ := run_pure_eq_ok.mp h
      exact .storedIndex (value_emits hConstant position _ _ _ hIndex)
        (source_emits (stored_emits hConstant array) (value_emits hConstant array) hSource)
  | var info id =>
      obtain ⟨hAddress, rfl⟩ := run_lift_eq_ok.mp h
      exact .storedVariable _ hAddress
  | _ => cases (run_lift_eq_ok.mp h).1

/-- Each way to lower an address is one of the rules. -/
theorem place_emits
    (hConstant : ∀ e n code m, (constant e).run n = .ok (code, m) →
      Emits environment (.value e) n code m) :
    ∀ (e : Expr) (n : Nat) (code : Code) (m : Nat),
      (address environment constant e).run n = .ok (code, m) →
      Emits environment (.place e) n code m := by
  intro e n code m h
  cases e with
  | member info base field =>
      rw [address] at h
      obtain ⟨offset, hOffset, h⟩ := run_lift_bind_eq_ok.mp h
      obtain ⟨source, _, hSource, h⟩ := run_bind_eq_ok.mp h
      obtain ⟨rfl, rfl⟩ := run_pure_eq_ok.mp h
      exact .placeMember hOffset (place_emits hConstant base _ _ _ hSource)
  | index info array position =>
      rw [address] at h
      obtain ⟨size, hSize, h⟩ := run_lift_bind_eq_ok.mp h
      obtain rfl := Sizes.of_eq_of_measure hSize
      obtain ⟨index, _, hIndex, h⟩ := run_bind_eq_ok.mp h
      obtain ⟨source, _, hSource, h⟩ := run_bind_eq_ok.mp h
      obtain ⟨rfl, rfl⟩ := run_pure_eq_ok.mp h
      exact .placeIndex (value_emits hConstant position _ _ _ hIndex)
        (place_emits hConstant array _ _ _ hSource)
  | var info id =>
      obtain ⟨hAddress, rfl⟩ := run_lift_eq_ok.mp h
      exact .placeVariable _ hAddress
  | _ => cases (run_lift_eq_ok.mp h).1

/-- Arguments are lowered by the rules in order. -/
theorem arguments_emits
    (hConstant : ∀ e n code m, (constant e).run n = .ok (code, m) →
      Emits environment (.value e) n code m) :
    ∀ (passed : List Expr) (parameters : List Ty) (n : Nat) (code : Code) (m : Nat),
      (arguments environment constant parameters passed).run n = .ok (code, m) →
      Emits environment (.arguments parameters passed) n code m := by
  intro passed parameters n code m h
  cases passed with
  | nil =>
      obtain ⟨rfl, rfl⟩ := run_pure_eq_ok.mp h
      exact .noArguments _ _
  | cons first rest =>
      rw [arguments] at h
      obtain ⟨inner, _, hInner, h⟩ := run_either_eq_ok.mp h
      obtain ⟨others, _, hOthers, h⟩ := run_bind_eq_ok.mp h
      obtain ⟨rfl, rfl⟩ := run_pure_eq_ok.mp h
      have hRest := arguments_emits hConstant rest _ _ _ _ hOthers
      split at hInner
      · next hPasses => exact .byAddress hPasses (place_emits hConstant first _ _ _ hInner) hRest
      · next hPasses =>
          exact .byValue (Bool.eq_false_iff.mpr hPasses)
            (value_emits hConstant first _ _ _ hInner) hRest

end

/-- The rules hold for any depth to which constants are looked into. -/
theorem initializerWithin_emits (depth : Nat) :
    ∀ (e : Expr) (n : Nat) (code : Code) (m : Nat),
      (initializerWithin environment depth e).run n = .ok (code, m) →
      Emits environment (.value e) n code m := by
  induction depth with
  | zero =>
      intro e n code m h
      cases (run_lift_eq_ok.mp h).1
  | succ depth ih => exact value_emits ih

/-- The code that pushes a value follows the rules. -/
theorem Environment.value_emits {e : Expr} (h : (environment.value e).run n = .ok (code, m)) :
    Emits environment (.value e) n code m :=
  Lowering.value_emits (initializerWithin_emits _) e n code m h

/-- The code that pushes the address of a place follows the rules. -/
theorem Environment.address_emits {e : Expr} (h : (environment.address e).run n = .ok (code, m)) :
    Emits environment (.place e) n code m :=
  Lowering.place_emits (initializerWithin_emits _) e n code m h

end Generators
end ScriptBackend.Lowering
