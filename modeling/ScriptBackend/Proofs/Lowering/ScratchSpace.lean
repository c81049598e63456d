import ScriptBackend.Proofs.Lowering.Generation
import ScriptBackend.Proofs.Program.ScratchWords
import ScriptBackend.Proofs.Lowering.FrameAccesses
import ScriptBackend.Lowering.Compiled

/-!
Room for copies. The scratch words of a frame are counted before any code is
made, by a recursion of their own over the statements; every value that the code
copies was counted there, unless it is copied for the initializer of a constant,
which stands in for the constant only when the code is made.
-/
namespace ScriptBackend

/-- Whether a program has no code because a frame has too few scratch words. -/
def CompileFault.isScratch : CompileFault → Bool
  | .unsupported (.scratchSize ..) => true
  | _ => false

@[simp] theorem CompileFault.isScratch_eq_false_iff {fault : CompileFault} :
    fault.isScratch = false ↔ ∀ needed available,
    fault ≠ .unsupported (.scratchSize needed available) := by
  unfold isScratch
  split <;> simp_all

namespace Lowering

open Outcome

/-- No fault is one of too few scratch words. -/
abbrev HasRoom {α : Type} (outcome : Except CompileFault α) : Prop :=
  FailsOnly (fun fault => fault.isScratch = false) outcome

/-- The generator never finds too few scratch words, whatever label comes next. -/
def FindsRoom {α : Type} (make : Gen α) : Prop :=
  ∀ n, HasRoom (make.run n)

section Outcomes

variable {α β : Type}

namespace FindsRoom

theorem pure (value : α) : FindsRoom (pure value : Gen α) :=
  fun _ => FailsOnly.ok _

theorem throw {fault : CompileFault} (h : fault.isScratch = false) :
    FindsRoom (throw fault : Gen α) :=
  fun _ => FailsOnly.error_iff.mpr h

/-- A computation and what follows on any of its results need no more room than
the two of them. -/
theorem bind {make : Gen α} {next : α → Gen β} (h : FindsRoom make)
    (hNext : ∀ value, FindsRoom (next value)) :
    FindsRoom (make >>= next) := by
  intro n
  rw [StateT.run_bind]
  exact (h n).bind fun result _ => hNext result.1 result.2

theorem lift {outcome : Except CompileFault α} (h : HasRoom outcome) :
    FindsRoom (liftM outcome : Gen α) := by
  intro n
  exact h.bind fun value _ => FailsOnly.ok (value, n)

/-- What follows needs to find room on the result that came out only, so facts
about that result can be used. -/
theorem lift_bind {outcome : Except CompileFault α} {next : α → Gen β} (h : HasRoom outcome)
    (hNext : ∀ value, outcome = .ok value → FindsRoom (next value)) :
    FindsRoom (liftM outcome >>= next) := by
  intro n
  rw [StateT.run_bind]
  intro fault hFault
  rcases bind_eq_error.mp hFault with hLift | ⟨⟨value, middle⟩, hLift, hRest⟩
  · exact lift h n fault hLift
  · obtain ⟨hOutcome, rfl⟩ := run_lift_eq_ok.mp hLift
    exact hNext value hOutcome _ fault hRest

theorem fresh : FindsRoom freshNumber :=
  fun _ => FailsOnly.ok _

/-- Whichever of two generators comes first. -/
theorem either {decision : Prop} [Decidable decision] {make other : Gen α} {next : α → Gen β}
    (h : decision → FindsRoom make) (hOther : ¬ decision → FindsRoom other)
    (hNext : ∀ value, FindsRoom (next value)) :
    FindsRoom (if decision then make >>= next else other >>= next) := by
  split
  · next hDecision => exact (h hDecision).bind hNext
  · next hDecision => exact (hOther hDecision).bind hNext

end FindsRoom
end Outcomes

/-! What code is made of -/

section Parts

variable (setting : Setting) (id : Nat)

theorem hasRoom_declaration : HasRoom (setting.declaration id) := by
  unfold Setting.declaration
  split <;> simp

theorem hasRoom_slot (table : Slots) (program : Program) : HasRoom (table.slot program id) := by
  unfold Slots.slot
  split <;> simp

theorem hasRoom_place : HasRoom (setting.place id) := by
  refine (hasRoom_declaration setting id).bind fun declared _ =>
    (hasRoom_slot id _ _).bind fun slot _ => ?_
  split <;> simp [pure, Except.pure]

/-- The address of a variable never asks for scratch words, whether or not the
variable has a place. -/
theorem hasRoom_variableAddress : HasRoom (setting.variableAddress id) := by
  refine (hasRoom_declaration setting id).bind fun declared _ =>
    (hasRoom_place setting id).bind fun slot _ => ?_
  split <;> exact FailsOnly.ok _

theorem hasRoom_guarded (enough : Bool) : HasRoom (Sizes.guarded enough) := by
  unfold Sizes.guarded
  split <;> simp

theorem hasRoom_measure (sizes : Sizes) (ty : Ty) : HasRoom (sizes.measure ty) :=
  (hasRoom_guarded _).bind fun _ _ => FailsOnly.ok _

theorem hasRoom_variableLoad : HasRoom (setting.variableLoad id) := by
  refine (hasRoom_declaration setting id).bind fun declared _ =>
    (hasRoom_place setting id).bind fun slot _ => ?_
  refine (hasRoom_measure _ _).bind fun size _ => ?_
  dsimp only
  split
  · split <;> exact FailsOnly.ok _
  · exact (hasRoom_variableAddress setting id).bind fun address _ => FailsOnly.ok _

theorem hasRoom_variableStore : HasRoom (setting.variableStore id) := by
  refine (hasRoom_declaration setting id).bind fun declared _ =>
    (hasRoom_place setting id).bind fun slot _ => ?_
  dsimp only
  split <;> exact FailsOnly.ok _

theorem hasRoom_memberOffset (base : Ty) (field : String) :
    HasRoom (setting.memberOffset base field) := by
  unfold Setting.memberOffset unsupported
  split
  · split <;> simp
  · refine (hasRoom_guarded _).bind fun _ _ => ?_
    split <;> simp
  · simp

theorem hasRoom_functionName : HasRoom (functionName setting id) := by
  unfold functionName
  split <;> simp

theorem hasRoom_prototypeOf (ty : Ty) : HasRoom (prototypeOf setting ty) := by
  unfold prototypeOf unsupported
  repeat' split
  all_goals simp

theorem hasRoom_checkArguments (name : String) (parameters : List Ty) (passed : List Expr) :
    HasRoom (checkArguments name parameters passed) := by
  unfold checkArguments unsupported
  split <;> simp

theorem hasRoom_parameterTypes (function : Function) : HasRoom (parameterTypes setting function) :=
  FailsOnly.mapM fun id _ => (hasRoom_declaration setting id).bind fun _ _ => FailsOnly.ok _

theorem hasRoom_nativeCall (native : NativeSignature) : HasRoom (nativeCall setting native) := by
  have hAll : HasRoom (setting.sizes.measureAll native.parameters) :=
    (hasRoom_guarded _).bind fun _ _ => FailsOnly.ok _
  refine hAll.bind fun arguments _ => (hasRoom_measure _ _).bind fun returns _ => ?_
  repeat' split
  all_goals simp

theorem hasRoom_operation (op : BinaryOp) (left right : Ty) :
    HasRoom (operation op left right) := by
  unfold operation unsupported
  dsimp only
  split <;> simp

theorem hasRoom_conversion (sizes : Sizes) (source target : Ty) :
    HasRoom (conversion sizes source target) := by
  have hWord : ∀ ty, HasRoom (sizes.isWord ty) := fun ty =>
    (hasRoom_measure sizes ty).bind fun _ _ => FailsOnly.ok _
  have hUnchanged : HasRoom (unchanged sizes source target) := by
    unfold unchanged unsupported
    split
    · simp
    · refine FailsOnly.bind ((hWord source).bind fun first _ => ?_) fun both _ => ?_
      · split
        · exact hWord target
        · simp
      · split <;> simp
  unfold conversion
  split
  all_goals first | exact hUnchanged | simp

/-- Words known at compile time are copied to the data of the script, without
any code that could spill. -/
theorem hasRoom_initializerWords (ty : Ty) (e : Expr) :
    HasRoom (initializerWords setting ty e) := by
  unfold initializerWords unsupported
  dsimp only
  repeat' split
  all_goals simp

theorem hasRoom_defaultsWith (sizes : Sizes)
    {structDefaults : Nat → Except CompileFault (List Datum)}
    (h : ∀ id, HasRoom (structDefaults id)) (ty : Ty) :
    HasRoom (defaultsWith sizes structDefaults ty) := by
  induction ty with
  | struct id => exact h id
  | array item length ih =>
      rw [defaultsWith]
      split
      · exact FailsOnly.ok _
      · exact ih.bind fun _ _ => FailsOnly.ok _
  | _ => exact FailsOnly.ok _

/-- The defaults of structs are found without code, however deep the structs are
nested. -/
theorem hasRoom_structDefaultsWithin (depth id : Nat) :
    HasRoom (structDefaultsWithin setting depth id) := by
  induction depth generalizing id with
  | zero => exact FailsOnly.error_iff.mpr rfl
  | succ depth ih =>
      rw [structDefaultsWithin]
      split
      · exact FailsOnly.error_iff.mpr rfl
      · refine (FailsOnly.mapM fun field _ => ?_).bind fun _ _ => FailsOnly.ok _
        split
        · exact hasRoom_initializerWords setting _ _
        · exact hasRoom_defaultsWith _ ih _

theorem hasRoom_defaultWords (ty : Ty) : HasRoom (defaultWords setting ty) :=
  hasRoom_defaultsWith _ (hasRoom_structDefaultsWithin setting _) ty

end Parts

/-! Expressions -/

section Values

variable {environment : Environment} {function : Function} {constant : Expr → Gen Code}

/-- An expression needs no more scratch words than the frame has. -/
def Environment.Fits (environment : Environment) (e : Expr) : Prop :=
  e.scratchWords environment.sizes.of ≤ environment.frame.scratchWords

/-- The frame has the scratch words for every expression whose code belongs to a
function. -/
def Environment.FitsUses (environment : Environment) (function : Function) : Prop :=
  ∀ e, function.Uses environment.program e → environment.Fits e

/-- The value in front of a member or of an element. -/
inductive InFront (base : Expr) : Expr → Prop where
  | member (info : Info) (field : String) : InFront base (.member info base field)
  | index (info : Info) (position : Expr) : InFront base (.index info base position)

/-- A value in front of a part fits into the scratch words when it is not stored. -/
theorem Environment.Fits.room {whole base : Expr} (h : environment.Fits whole)
    (hFront : InFront base whole) (hStored : ¬ isStored base = true) :
    environment.sizes.of base.ty ≤ environment.frame.scratchWords := by
  refine (Expr.scratchWords_le_iff.mp h).1 base ?_
  have hRoot : whole.unstoredRoot? = (Expr.member base.info base "").unstoredRoot? := by
    cases hFront <;> simp only [Expr.unstoredRoot?]
  rw [hRoot]
  cases base with
  | member info inner name => exact absurd rfl hStored
  | index info inner position => exact absurd rfl hStored
  | var info id =>
      have hConstant : info.isConstant = true := by simpa [isStored] using hStored
      simp [Expr.unstoredRoot?, Expr.isPart, hConstant]
  | _ => rfl

/-- The one place where scratch words are asked for. It finds room when the
frame has as many of them as the value has words. -/
theorem findsRoom_spill {ty : Ty} {make : Gen Code}
    (hRoom : environment.sizes.of ty ≤ environment.frame.scratchWords) (h : FindsRoom make) :
    FindsRoom (spill environment ty make) := by
  refine .lift_bind (hasRoom_measure _ _) fun size hSize => ?_
  obtain rfl := Sizes.of_eq_of_measure hSize
  dsimp only
  rw [if_neg (Nat.not_lt.mpr hRoom)]
  exact h.bind fun code => .pure _

/-- What a part is read from, a copy if there is no other place for it. -/
theorem findsRoom_source {whole base : Expr} {next : Code → Gen Code}
    (hFits : environment.Fits whole)
    (hFront : InFront base whole) (hAddress : FindsRoom (storedAddress environment constant base))
    (hValue : FindsRoom (value environment constant base))
    (hNext : ∀ source, FindsRoom (next source)) :
    FindsRoom (if isStored base = true then storedAddress environment constant base >>= next
      else spill environment base.ty (value environment constant base) >>= next) :=
  .either (fun _ => hAddress) (fun hStored =>
    findsRoom_spill (hFits.room hFront hStored) hValue) hNext

/-- A constant is lowered as its initializer, so its room is that of the
initializer; any other variable is loaded from its place. -/
theorem findsRoom_variableValue
    (hConstant : ∀ e, function.Uses environment.program e → FindsRoom (constant e))
    {info : Info} {id : Nat} (hUsed : function.Uses environment.program (.var info id)) :
    FindsRoom (variableValue environment.toSetting constant id) := by
  refine .lift_bind (hasRoom_declaration _ id) fun declared hDeclared => ?_
  have hVariable := declaration_ok hDeclared
  split
  · next hStorage =>
      split
      · next e hInitial => exact hConstant e (.constant hUsed hVariable hStorage hInitial)
      · exact .throw rfl
  · exact .lift (hasRoom_variableLoad _ id)

mutual

/-- The code of a value finds room if the value and the initializers of
constants do. -/
theorem findsRoom_value (hFits : environment.FitsUses function)
    (hConstant : ∀ e, function.Uses environment.program e → FindsRoom (constant e)) :
    ∀ e : Expr, function.Uses environment.program e → FindsRoom (value environment constant e) := by
  intro e hUsed
  rw [value.eq_def]
  split
  · exact .pure _
  cases e with
  | int info number => exact .pure _
  | float info number =>
      dsimp only
      split
      · exact .pure _
      · exact .lift (FailsOnly.error_iff.mpr rfl)
  | bool info truth => exact .pure _
  | text info content => exact .pure _
  | null info => exact .pure _
  | vector info x y z =>
      refine .bind (findsRoom_value hFits hConstant x (.part hUsed (by simp [Expr.children])))
        fun first => ?_
      refine .bind (findsRoom_value hFits hConstant y (.part hUsed (by simp [Expr.children])))
        fun second => ?_
      exact .bind (findsRoom_value hFits hConstant z (.part hUsed (by simp [Expr.children])))
        fun third => .pure _
  | var info id => exact findsRoom_variableValue hConstant hUsed
  | functionRef info id => exact .lift_bind (hasRoom_functionName _ id) fun name _ => .pure _
  | neg info operand =>
      exact .bind (findsRoom_value hFits hConstant operand (.part hUsed (by simp [Expr.children])))
        fun code => .pure _
  | not info operand =>
      exact .bind (findsRoom_value hFits hConstant operand (.part hUsed (by simp [Expr.children])))
        fun code => .pure _
  | binary info op left right =>
      have hLeft : function.Uses environment.program left := .part hUsed (by simp [Expr.children])
      have hRight : function.Uses environment.program right := .part hUsed (by simp [Expr.children])
      dsimp only
      split
      · refine .bind .fresh fun number => ?_
        refine .either (fun _ => findsRoom_chain hFits hConstant op _ left hLeft)
          (fun _ => findsRoom_value hFits hConstant left hLeft) fun first => ?_
        exact .either (fun _ => findsRoom_chain hFits hConstant op _ right hRight)
          (fun _ => findsRoom_value hFits hConstant right hRight) fun second => .pure _
      · refine .lift_bind (hasRoom_operation _ _ _) fun chosen _ => ?_
        refine .bind (findsRoom_value hFits hConstant left hLeft) fun first => ?_
        exact .bind (findsRoom_value hFits hConstant right hRight) fun second => .pure _
  | member info base field =>
      have hBase : function.Uses environment.program base := .part hUsed (by simp [Expr.children])
      refine .lift_bind (hasRoom_measure _ _) fun size _ => ?_
      refine .lift_bind (hasRoom_memberOffset _ _ _) fun offset _ => ?_
      refine findsRoom_source (hFits _ hUsed) (.member info field)
        (findsRoom_storedAddress hFits hConstant base hBase)
        (findsRoom_value hFits hConstant base hBase) fun source => ?_
      split <;> exact .pure _
  | index info array position =>
      have hArray : function.Uses environment.program array := .part hUsed (by simp [Expr.children])
      refine .lift_bind (hasRoom_measure _ _) fun size _ => ?_
      refine .bind (findsRoom_value hFits hConstant position
        (.part hUsed (by simp [Expr.children]))) fun index => ?_
      refine findsRoom_source (hFits _ hUsed) (.index info position)
        (findsRoom_storedAddress hFits hConstant array hArray)
          (findsRoom_value hFits hConstant array hArray)
        fun source => ?_
      split <;> exact .pure _
  | call info id passed =>
      dsimp only
      split
      · exact .throw rfl
      · refine .lift_bind (hasRoom_parameterTypes _ _) fun parameters _ => ?_
        refine .lift_bind (hasRoom_checkArguments _ _ _) fun _ _ => ?_
        exact .bind (findsRoom_arguments hFits hConstant parameters passed
          fun e he => .part hUsed he) fun code => .pure _
  | callNative info id passed =>
      dsimp only
      split
      · exact .throw rfl
      · refine .lift_bind (hasRoom_checkArguments _ _ _) fun _ _ => ?_
        refine .bind (findsRoom_arguments hFits hConstant _ passed fun e he => .part hUsed he)
          fun code => ?_
        exact .lift_bind (hasRoom_nativeCall _ _) fun call _ => .pure _
  | callThrough info target passed =>
      refine .lift_bind (hasRoom_prototypeOf _ _) fun prototype _ => ?_
      refine .lift_bind (hasRoom_checkArguments _ _ _) fun _ _ => ?_
      refine .bind (findsRoom_arguments hFits hConstant _ passed fun e he =>
        .part hUsed (by simp [Expr.children, he])) fun code => ?_
      exact .bind (findsRoom_value hFits hConstant target (.part hUsed (by simp [Expr.children])))
        fun pointer => .pure _
  | convert info operand =>
      refine .bind (findsRoom_value hFits hConstant operand (.part hUsed (by simp [Expr.children])))
        fun code => ?_
      exact .lift_bind (hasRoom_conversion _ _ _) fun change _ => .pure _

/-- A chain of logical operators puts the code of its operands one behind the
other and asks for nothing itself. -/
theorem findsRoom_chain (hFits : environment.FitsUses function)
    (hConstant : ∀ e, function.Uses environment.program e → FindsRoom (constant e)) (op : BinaryOp)
    (finish : String) :
    ∀ e : Expr, function.Uses environment.program e →
      FindsRoom (chain environment constant op finish e) := by
  intro e hUsed
  cases e with
  | binary info inner left right =>
      have hLeft : function.Uses environment.program left := .part hUsed (by simp [Expr.children])
      have hRight : function.Uses environment.program right := .part hUsed (by simp [Expr.children])
      rw [chain]
      refine .either (fun _ => findsRoom_chain hFits hConstant op finish left hLeft)
        (fun _ => findsRoom_value hFits hConstant left hLeft) fun first => ?_
      exact .either (fun _ => findsRoom_chain hFits hConstant op finish right hRight)
        (fun _ => findsRoom_value hFits hConstant right hRight) fun second => .pure _
  | _ => exact .pure _

/-- The address of something stored needs room for the parts whose values are
computed on the way, such as indices. -/
theorem findsRoom_storedAddress (hFits : environment.FitsUses function)
    (hConstant : ∀ e, function.Uses environment.program e → FindsRoom (constant e)) :
    ∀ e : Expr, function.Uses environment.program e →
      FindsRoom (storedAddress environment constant e) := by
  intro e hUsed
  cases e with
  | member info base field =>
      have hBase : function.Uses environment.program base := .part hUsed (by simp [Expr.children])
      rw [storedAddress]
      refine .lift_bind (hasRoom_memberOffset _ _ _) fun offset _ => ?_
      exact findsRoom_source (hFits _ hUsed) (.member info field)
        (findsRoom_storedAddress hFits hConstant base hBase)
        (findsRoom_value hFits hConstant base hBase) fun source => .pure _
  | index info array position =>
      have hArray : function.Uses environment.program array := .part hUsed (by simp [Expr.children])
      rw [storedAddress]
      refine .lift_bind (hasRoom_measure _ _) fun size _ => ?_
      refine .bind (findsRoom_value hFits hConstant position
        (.part hUsed (by simp [Expr.children]))) fun index => ?_
      exact findsRoom_source (hFits _ hUsed) (.index info position)
        (findsRoom_storedAddress hFits hConstant array hArray)
          (findsRoom_value hFits hConstant array hArray)
        fun source => .pure _
  | var info id => exact .lift (hasRoom_variableAddress _ id)
  | _ => exact .lift (FailsOnly.error_iff.mpr rfl)

/-- The address of a value finds room: a stored value has one, and any other is
spilled to the scratch words that are reserved for it. -/
theorem findsRoom_address (hFits : environment.FitsUses function)
    (hConstant : ∀ e, function.Uses environment.program e → FindsRoom (constant e)) :
    ∀ e : Expr, function.Uses environment.program e →
      FindsRoom (address environment constant e) := by
  intro e hUsed
  cases e with
  | member info base field =>
      rw [address]
      refine .lift_bind (hasRoom_memberOffset _ _ _) fun offset _ => ?_
      exact .bind (findsRoom_address hFits hConstant base (.part hUsed (by simp [Expr.children])))
        fun source => .pure _
  | index info array position =>
      rw [address]
      refine .lift_bind (hasRoom_measure _ _) fun size _ => ?_
      refine .bind (findsRoom_value hFits hConstant position
        (.part hUsed (by simp [Expr.children]))) fun index => ?_
      exact .bind (findsRoom_address hFits hConstant array (.part hUsed (by simp [Expr.children])))
        fun source => .pure _
  | var info id => exact .lift (hasRoom_variableAddress _ id)
  | _ => exact .lift (FailsOnly.error_iff.mpr rfl)

/-- Arguments find room one by one, since each of them is an expression that the
function uses. -/
theorem findsRoom_arguments (hFits : environment.FitsUses function)
    (hConstant : ∀ e, function.Uses environment.program e → FindsRoom (constant e))
    (parameters : List Ty) :
    ∀ passed : List Expr, (∀ e ∈ passed, function.Uses environment.program e) →
      FindsRoom (arguments environment constant parameters passed) := by
  intro passed hUsed
  cases passed with
  | nil => exact .pure _
  | cons first rest =>
      rw [List.forall_mem_cons] at hUsed
      rw [arguments]
      refine .either (fun _ => findsRoom_address hFits hConstant first hUsed.1)
        (fun _ => findsRoom_value hFits hConstant first hUsed.1) fun code => ?_
      exact .bind (findsRoom_arguments hFits hConstant parameters.tail rest hUsed.2)
        fun others => .pure _

end

/-- Any expression of the function finds room. The induction is on how deep
initializers of constants are looked into. -/
theorem findsRoom_initializerWithin (hFits : environment.FitsUses function) (depth : Nat) :
    ∀ e, function.Uses environment.program e →
      FindsRoom (initializerWithin environment depth e) := by
  induction depth with
  | zero => exact fun _ _ => .lift (FailsOnly.error_iff.mpr rfl)
  | succ depth ih => exact findsRoom_value hFits ih

end Values

/-- An expression that folds needs no scratch words, since parts of values do
not fold. -/
theorem scratchWords_of_foldWith {words : Ty → Nat} {functionName? : Nat → Option String}
    {constant? : Nat → Option (List Datum)} :
    ∀ (e : Expr) (folded : List Datum), foldWith functionName? constant? e = some folded →
      e.scratchWords words = 0 := by
  intro e folded h
  cases e with
  | vector info x y z =>
      simp only [foldWith, Option.bind_eq_bind, Option.bind_eq_some_iff] at h
      obtain ⟨_, hFirst, _, _, _, _, _, hSecond, _, _, _, _, _, hThird, _⟩ := h
      simp [Expr.scratchWords, Expr.unstoredRoot?, scratchWords_of_foldWith x _ hFirst,
        scratchWords_of_foldWith y _ hSecond, scratchWords_of_foldWith z _ hThird]
  | neg info operand =>
      obtain ⟨_, hOperand, _⟩ := Option.bind_eq_some_iff.mp h
      simp [Expr.scratchWords, Expr.unstoredRoot?, scratchWords_of_foldWith operand _ hOperand]
  | not info operand =>
      simp only [foldWith, Option.bind_eq_bind, Option.bind_eq_some_iff] at h
      obtain ⟨_, hOperand, _⟩ := h
      simp [Expr.scratchWords, Expr.unstoredRoot?, scratchWords_of_foldWith operand _ hOperand]
  | binary info op left right =>
      simp only [foldWith, Option.bind_eq_bind, Option.bind_eq_some_iff] at h
      obtain ⟨_, hLeft, _, _, _, hRight, _⟩ := h
      simp [Expr.scratchWords, Expr.unstoredRoot?, scratchWords_of_foldWith left _ hLeft,
        scratchWords_of_foldWith right _ hRight]
  | convert info operand =>
      simp only [foldWith, Option.bind_eq_bind, Option.bind_eq_some_iff] at h
      obtain ⟨_, hOperand, _⟩ := h
      simp [Expr.scratchWords, Expr.unstoredRoot?, scratchWords_of_foldWith operand _ hOperand]
  | member info base field => cases h
  | index info array position => cases h
  | call info id passed => cases h
  | callNative info id passed => cases h
  | callThrough info target passed => cases h
  | _ => simp [Expr.scratchWords, Expr.unstoredRoot?]

/-! Statements -/

section Statements

variable {environment : Environment} {function : Function}

namespace Environment.FitsUses

variable (h : environment.FitsUses function)

include h

/-- The value of an expression that the function uses finds room in its frame. -/
theorem value {e : Expr} (hUsed : function.Uses environment.program e) :
    FindsRoom (environment.value e) :=
  findsRoom_value h (findsRoom_initializerWithin h _) e hUsed

theorem address {e : Expr} (hUsed : function.Uses environment.program e) :
    FindsRoom (environment.address e) :=
  findsRoom_address h (findsRoom_initializerWithin h _) e hUsed

/-- A value is stored through the address of its target, which is the only part
that can need room. -/
theorem store {target : Expr} (hUsed : function.Uses environment.program target) :
    FindsRoom (store environment target) := by
  refine .lift_bind (hasRoom_measure _ _) fun size _ => ?_
  split
  · exact (h.address hUsed).bind fun code => .pure _
  · split
    · exact .lift (hasRoom_variableStore _ _)
    · refine .lift_bind (hasRoom_memberOffset _ _ _) fun offset _ => ?_
      exact (h.address (.part hUsed (by simp [Expr.children]))).bind fun code => .pure _
    · refine (h.value (.part hUsed (by simp [Expr.children]))).bind fun index => ?_
      exact (h.address (.part hUsed (by simp [Expr.children]))).bind fun code => .pure _
    · exact .lift (FailsOnly.error_iff.mpr rfl)

/-- A text is copied to where its target is stored, so that the addresses of
both sides need room. -/
theorem assignTextLabel {target source : Expr} {op : Option BinaryOp}
    (hTarget : function.Uses environment.program target)
    (hSource : function.Uses environment.program source) :
    FindsRoom (assignTextLabel environment target op source) := by
  unfold Lowering.assignTextLabel
  split
  · exact .lift (FailsOnly.error_iff.mpr rfl)
  · refine .lift_bind (hasRoom_measure _ _) fun size _ =>
      .lift_bind (hasRoom_guarded _) fun _ _ => ?_
    refine (h.value hSource).bind fun content => ?_
    exact (h.address hTarget).bind fun place => .pure _

/-- An assignment needs room for the value that is assigned and for the address
of its target. -/
theorem assign {target source : Expr} {op : Option BinaryOp}
    (hTarget : function.Uses environment.program target)
    (hValue : function.Uses environment.program (assignedValue target op source)) :
    FindsRoom (assign environment target op source) := by
  unfold Lowering.assign
  split
  · exact h.assignTextLabel hTarget (uses_source hValue)
  · cases op with
    | none => exact (h.value hValue).bind fun content => (h.store hTarget).bind fun place => .pure _
    | some op =>
        exact (h.value hValue).bind fun content => (h.store hTarget).bind fun place => .pure _

/-- A local is given its initializer, or its default words without any room. -/
theorem declare {id : Nat}
    (hVariable : function.Uses environment.program (.ofVariable environment.program id))
    (hLocal : id ∈ function.locals) : FindsRoom (declare environment id) := by
  refine .lift_bind (hasRoom_declaration _ id) fun declared hDeclared => ?_
  have hInitializer : ∀ e, declared.initializer = some e → function.Uses environment.program e :=
    fun e hInitial => .initializer hLocal (declaration_ok hDeclared) hInitial
  refine .lift_bind (hasRoom_slot id _ _) fun slot _ => ?_
  split
  · split
    · exact .lift (FailsOnly.error_iff.mpr rfl)
    · next target hInitial =>
        exact (h.address (hInitializer target hInitial)).bind fun code => .pure _
  · split
    · next e hInitial => exact h.assign hVariable (hInitializer e hInitial)
    · exact .lift_bind (hasRoom_defaultWords _ _) fun words _ => .pure _

end Environment.FitsUses

theorem hasRoom_jumpTo {fault : CompileFault} (h : fault.isScratch = false)
    (target : Option String) :
    HasRoom (jumpTo fault target) := by
  cases target with
  | none => exact FailsOnly.error_iff.mpr h
  | some label => exact FailsOnly.ok _

mutual

/-- The code of a statement finds room where all its expressions belong to the
function. -/
theorem findsRoom_statement (hFits : environment.FitsUses function) (targets : Targets) :
    ∀ s : Stmt, UsesOf environment function s.parts →
      FindsRoom (statement environment targets s) := by
  intro s hUses
  have hOwn : ∀ e ∈ s.expressions environment.program, function.Uses environment.program e :=
    hUses.expressions s (by cases s <;> simp [Stmt.parts])
  cases s with
  | declare id =>
      rw [statement]
      exact hFits.declare (hOwn _ (by simp [Stmt.expressions]))
        (hUses.locals id (by simp [Stmt.parts, declaredIds, Stmt.declared?]))
  | assign target op source =>
      rw [statement]
      cases op with
      | none =>
          exact hFits.assign (hOwn _ (by simp [Stmt.expressions]))
            (hOwn _ (by simp [Stmt.expressions, assignedValue]))
      | some op =>
          exact hFits.assign (hOwn _ (by simp [Stmt.expressions]))
            (hOwn _ (by simp [Stmt.expressions, assignedValue]))
  | branch arms otherwise =>
      rw [statement]
      refine .bind .fresh fun number => ?_
      refine .bind (findsRoom_armsCode hFits targets number _ _ 1 arms hOwn
        (hUses.mono (by simp [Stmt.parts]))) fun tested => ?_
      exact .bind (findsRoom_block hFits targets #[] otherwise (hUses.mono (by simp [Stmt.parts])))
        fun rest => .pure _
  | loop condition body =>
      rw [statement]
      refine .bind .fresh fun number => ?_
      refine .bind (hFits.value (hOwn _ (by simp [Stmt.expressions]))) fun test => ?_
      exact .bind (findsRoom_block hFits _ #[] body (hUses.mono (by simp [Stmt.parts])))
        fun code => .pure _
  | countUp limit counter body =>
      rw [statement]
      have hCounter : function.Uses environment.program counter :=
        hOwn _ (by simp [Stmt.expressions])
      refine .bind .fresh fun number => ?_
      refine .bind (hFits.assign hCounter (hOwn _ (by simp [Stmt.expressions, assignedValue])))
        fun reset => ?_
      refine .bind (hFits.value hCounter) fun count => ?_
      refine .bind (hFits.value (hOwn _ (by simp [Stmt.expressions]))) fun bound => ?_
      refine .bind (findsRoom_block hFits _ #[] body (hUses.mono (by simp [Stmt.parts])))
        fun code => ?_
      exact .bind (hFits.assign hCounter (hOwn _ (by simp [Stmt.expressions, assignedValue])))
        fun advance => .pure _
  | select scrutinee cases =>
      rw [statement]
      refine .bind .fresh fun number => ?_
      refine .bind (hFits.value (hOwn _ (by simp [Stmt.expressions]))) fun code => ?_
      exact .bind (findsRoom_casesCode hFits _ _ cases (hUses.mono (by simp [Stmt.parts])))
        fun bodies => .pure _
  | breakOut => exact .lift (hasRoom_jumpTo rfl _)
  | continueLoop => exact .lift (hasRoom_jumpTo rfl _)
  | goto name => exact .pure _
  | label name => exact .pure _
  | ret result =>
      cases result with
      | none => exact .pure _
      | some e =>
          exact .bind (hFits.value (hOwn _ (by simp [Stmt.expressions]))) fun code => .pure _
  | evaluate e =>
      refine .bind (hFits.value (hOwn _ (by simp [Stmt.expressions]))) fun code => ?_
      exact .lift_bind (hasRoom_measure _ _) fun size _ => .pure _

/-- Statements find room one by one, whatever code stands before them. -/
theorem findsRoom_block (hFits : environment.FitsUses function) (targets : Targets)
    (before : Array Assembly.Statement) :
    ∀ body : List Stmt, UsesOf environment function (Stmt.blockParts body) →
      FindsRoom (block environment targets before body) := by
  intro body hUses
  cases body with
  | nil => exact .pure _
  | cons first rest =>
      rw [Stmt.blockParts] at hUses
      rw [block]
      refine .bind (findsRoom_statement hFits targets first (hUses.mono (by simp))) fun code => ?_
      exact findsRoom_block hFits targets _ rest (hUses.mono (by simp))

/-- The arms of a branch find room when the conditions and the statements inside
of them do. -/
theorem findsRoom_armsCode (hFits : environment.FitsUses function)
    (targets : Targets) (number : Nat) (finish last : String) (position : Nat) :
    ∀ arms : List (Expr × List Stmt),
      (∀ e ∈ arms.map Prod.fst, function.Uses environment.program e) →
      UsesOf environment function (Stmt.armsParts arms) →
      FindsRoom (armsCode environment targets number finish last position arms) := by
  intro arms hConditions hUses
  cases arms with
  | nil => exact .pure _
  | cons first rest =>
      obtain ⟨condition, body⟩ := first
      rw [Stmt.armsParts] at hUses
      rw [List.map_cons, List.forall_mem_cons] at hConditions
      rw [armsCode]
      refine .bind (hFits.value hConditions.1) fun test => ?_
      refine .bind (findsRoom_block hFits targets #[] body (hUses.mono (by simp))) fun code => ?_
      exact .bind (findsRoom_armsCode hFits targets number finish last _ rest hConditions.2
        (hUses.mono (by simp))) fun others => .pure _

/-- The cases of a selection find room when the statements inside of them do. -/
theorem findsRoom_casesCode (hFits : environment.FitsUses function) (targets : Targets)
    (labels : List String) :
    ∀ cases : List (Option Int32 × List Stmt), UsesOf environment function (Stmt.casesParts cases) →
      FindsRoom (casesCode environment targets labels cases) := by
  intro cases hUses
  cases cases with
  | nil => exact .pure _
  | cons first rest =>
      obtain ⟨value, body⟩ := first
      rw [Stmt.casesParts] at hUses
      rw [casesCode]
      refine .bind (findsRoom_block hFits targets #[] body (hUses.mono (by simp))) fun code => ?_
      exact .bind (findsRoom_casesCode hFits targets labels.tail rest (hUses.mono (by simp)))
        fun others => .pure _

end

end Statements

/-! Programs -/

section Programs

variable {setting : Setting}

/-- All that the body of a function consists of belongs to the function. -/
theorem usesOf_body (environment : Environment) (function : Function) :
    UsesOf environment function (Stmt.blockParts function.body) where
  expressions := fun _ hInside _ hOwn => .body hInside hOwn
  locals := fun _ hId => hId

/-- The frames of functions have the scratch words for all that belongs to the
functions. -/
def Setting.FramesFit (setting : Setting) : Prop :=
  ∀ (id : Nat) function frame, setting.program.functions[id]? = some function →
    setting.slots.frame id = .ok frame →
    Environment.FitsUses { setting with frame := frame } function

theorem hasRoom_frame (table : Slots) (id : Nat) : HasRoom (table.frame id) := by
  unfold Slots.frame
  split <;> simp

/-- A function finds room once its frame reserves as many scratch words as its
expressions need. -/
theorem findsRoom_functionCode (hFrames : setting.FramesFit)
    (before : Array Assembly.Statement) (id : Nat) :
    FindsRoom (functionCode setting before id) := by
  unfold functionCode
  split
  · exact .throw rfl
  · next function hFunction =>
      refine .lift_bind (hasRoom_frame _ id) fun frame hFrame => ?_
      refine .lift_bind (hasRoom_guarded _) fun _ _ => ?_
      exact .bind (findsRoom_block (hFrames id function frame hFunction hFrame) _ _ function.body
        (usesOf_body _ function)) fun code => .pure _

/-- Functions are lowered one behind the other, each with its own frame. -/
theorem findsRoom_functionsCode (hFrames : setting.FramesFit) (before : Array Assembly.Statement)
    (ids : List Nat) :
    FindsRoom (functionsCode setting before ids) := by
  induction ids generalizing before with
  | nil => exact .pure _
  | cons id rest ih => exact .bind (findsRoom_functionCode hFrames before id) fun code => ih code

theorem hasRoom_variableCode (setting : Setting) (id : Nat) :
    HasRoom (variableCode setting id) := by
  refine (hasRoom_declaration setting id).bind fun declared _ =>
    FailsOnly.bind (.bind ?_ fun words _ => ?_) fun words _ => FailsOnly.ok _
  · unfold initialWords
    split
    · exact hasRoom_initializerWords setting _ _
    · exact hasRoom_defaultWords setting _
  · split
    · exact FailsOnly.error_iff.mpr rfl
    · exact FailsOnly.ok _

theorem hasRoom_dataSegment (setting : Setting) (segment : Assembly.Segment) (ids : List Nat) :
    HasRoom (dataSegment setting segment ids) := by
  unfold dataSegment
  split
  · exact FailsOnly.ok _
  · exact (FailsOnly.mapM fun id _ => hasRoom_variableCode setting id).bind
      fun _ _ => FailsOnly.ok _

theorem hasRoom_dataSegments (setting : Setting) : HasRoom (dataSegments setting) := by
  have hRest : ∀ globals, HasRoom (do
      let statics ← dataSegment setting .statics setting.slots.statics
      let arguments ← dataSegment setting .arguments setting.slots.arguments
      return globals ++ statics ++ arguments) := fun globals =>
    (hasRoom_dataSegment setting _ _).bind fun _ _ =>
      (hasRoom_dataSegment setting _ _).bind fun _ _ => FailsOnly.ok _
  unfold dataSegments
  split
  · exact (hasRoom_dataSegment setting _ _).bind fun globals _ => hRest globals
  · exact hRest []

/-- No program is turned down for want of scratch words when the frames of all
its functions fit. -/
theorem hasRoom_unitOf (hFrames : setting.FramesFit) : HasRoom (unitOf setting) := by
  unfold unitOf
  dsimp only
  split
  · exact FailsOnly.error_iff.mpr rfl
  · exact (findsRoom_functionsCode hFrames #[] _ 0).bind fun _ _ =>
      (hasRoom_dataSegments setting).bind fun _ _ => FailsOnly.ok _

theorem hasRoom_checkDeclared (program : Program) (ids : List Nat) :
    HasRoom (Slots.checkDeclared program ids) := by
  induction ids with
  | nil => exact FailsOnly.ok _
  | cons id rest ih =>
      rw [Slots.checkDeclared]
      split
      · exact ih
      · exact FailsOnly.error_iff.mpr rfl

theorem hasRoom_ofProgram (program : Program) (sizes : Sizes) :
    HasRoom (Slots.ofProgram program sizes) := by
  refine FailsOnly.bind ?_ fun table _ => ?_
  · refine (hasRoom_guarded _).bind fun _ _ => FailsOnly.bind ?_ fun _ _ => FailsOnly.ok _
    unfold Slots.checkGlobals
    repeat' split
    all_goals simp
  · rw [← Array.foldlM_toList]
    exact FailsOnly.foldlM (fun _ _ => (hasRoom_checkDeclared program _).bind fun _ _ =>
      (hasRoom_checkDeclared program _).bind fun _ _ => (hasRoom_guarded _).bind fun _ _ =>
        FailsOnly.ok _) table _

/-- The slots of a program give its functions the frames that fit. -/
theorem framesFit_ofProgram {natives : NativeSource} {program : Program}
    (hConstants : ∀ function ∈ program.functions, function.ConstantsFit program
      (.ofStructs program.structs))
    (h : Setting.ofProgram natives program = .ok setting) : setting.FramesFit := by
  obtain ⟨table, hTable, h⟩ := bind_eq_ok.mp h
  cases h
  intro id function frame hFunction hFrame e hUsed
  have hSame := Slots.eq_frameOf (Slots.listsData_ofProgram hTable).2 hFunction hFrame
  show e.scratchWords _ ≤ frame.scratchWords
  rw [hSame]
  exact hUsed.scratchWords_le (hConstants function (Array.mem_of_getElem? hFunction))

end Programs

end Lowering

open Lowering Outcome

variable {natives : NativeSource} {program : Program}

/-- A program whose constants fit is never refused for too few scratch words.
Every value that is copied in order to read a part of it was counted, or stands
in for a constant. -/
theorem ne_scratchSize_of_constantsFit
    (hConstants : ∀ function ∈ program.functions, function.ConstantsFit program
      (.ofStructs program.structs))
    (needed available : Nat) :
    compileToAssembly natives program ≠ .error (.unsupported (.scratchSize needed available)) := by
  have hRoom : HasRoom (compileToAssembly natives program) :=
    FailsOnly.bind ((hasRoom_ofProgram program _).bind fun _ _ => FailsOnly.ok _)
      fun setting hSetting => hasRoom_unitOf (framesFit_ofProgram hConstants hSetting)
  intro h
  exact absurd (hRoom _ h) (by simp)

/-- Constants that fold always fit. -/
theorem constantsFit_of_folds
    (hFolds : ∀ (id : Nat) declared e, program.vars[id]? = some declared →
      declared.storage = .constant →
      declared.initializer = some e → (fold? program e).isSome = true) (function : Function) :
    function.ConstantsFit program (.ofStructs program.structs) := by
  intro info id declared e _ hDeclared hStorage hInitial
  obtain ⟨folded, hFolded⟩ :=
    Option.isSome_iff_exists.mp (hFolds id declared e hDeclared hStorage hInitial)
  rw [scratchWords_of_foldWith e folded hFolded]
  exact Nat.zero_le _

/-- A program that copies a constant vector in order to read a component of it. -/
def copiedConstant : Program where
  name := "copied"
  hash := none
  globalsBlock := none
  structs := #[]
  prototypes := #[]
  vars := #[
    { name := "ORIGIN", ty := .vector, storage := .constant,
      initializer :=
        some (.vector (Expr.literalInfo .vector) (.ofFloat .zero) (.ofFloat .zero)
        (.ofFloat .zero)) },
    { name := "height", ty := .float, storage := .placed .locals, initializer := none }]
  functions := #[
    { name := "MAIN", parameters := [], result := .void,
      body := [.declare 1, .assign (.var ⟨.float, false, true⟩ 1) none
        (.member ⟨.float, false, false⟩ (.var ⟨.vector, true, false⟩ 0) "z")] }]
  natives := #[]

theorem ne_scratchSize_of_constantsFit_copied :
    (∀ function ∈ copiedConstant.functions,
      function.ConstantsFit copiedConstant (.ofStructs copiedConstant.structs)) ∧
    (∀ function ∈ copiedConstant.functions,
      (Slots.frameOf copiedConstant (.ofStructs copiedConstant.structs) function).scratchWords =
        3) ∧
    ∀ needed available, compileToAssembly NativeDatabase.empty copiedConstant ≠
      .error (.unsupported (.scratchSize needed available)) := by
  have hFolds : ∀ (id : Nat) declared e, copiedConstant.vars[id]? = some declared →
      declared.storage = .constant → declared.initializer = some e →
      (fold? copiedConstant e).isSome = true := by
    intro id declared e hDeclared hStorage hInitial
    have hMem := Array.mem_of_getElem? hDeclared
    simp only [copiedConstant, List.mem_toArray, List.mem_cons, List.not_mem_nil, or_false] at hMem
    rcases hMem with rfl | rfl
    · cases hInitial
      decide +kernel
    · cases hStorage
  have hFit : ∀ function ∈ copiedConstant.functions, _ :=
    fun function _ => constantsFit_of_folds hFolds function
  exact ⟨hFit, by decide +kernel, ne_scratchSize_of_constantsFit hFit⟩

def componentConstant : Program where
  name := "component"
  hash := none
  globalsBlock := none
  structs := #[]
  prototypes := #[]
  vars := #[
    { name := "ORIGIN", ty := .vector, storage := .constant,
      initializer :=
        some (.vector (Expr.literalInfo .vector) (.ofFloat .zero) (.ofFloat .zero)
        (.ofFloat .zero)) },
    { name := "HEIGHT", ty := .float, storage := .constant,
      initializer := some (.member ⟨.float, false, false⟩ (.var ⟨.vector, true, false⟩ 0) "z") },
    { name := "height", ty := .float, storage := .placed .locals, initializer := none }]
  functions := #[
    { name := "MAIN", parameters := [], result := .void,
      body :=
        [.declare 2, .assign (.var ⟨.float, false, true⟩ 2) none (.var ⟨.float, true, false⟩ 1)] }]
  natives := #[]

/-- Constants that do not fold have to fit: the vector is copied to read its
component, and no statement mentions the vector. -/
example : compileToAssembly natives componentConstant =
    .error (.unsupported (.scratchSize 3 0)) := by
  cbv

end ScriptBackend
