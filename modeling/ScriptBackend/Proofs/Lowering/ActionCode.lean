import ScriptBackend.Lowering.Block
import ScriptBackend.Proofs.Lowering.Generation
import ScriptBackend.Proofs.Lowering.Run

/-!
The code of actions: declarations, assignments and values. It keeps its labels
to itself, so that control passes it only from its beginning to its end.
-/
namespace ScriptBackend.Lowering

open ScriptBackend.Assembly

section Values

variable {environment : Environment} {constant : Expr → Gen Code}

/-- Spilling defines no label besides those of the value. -/
theorem closed_spill {ty : Ty} {make : Gen Code} (h : Closed make) :
    Closed (spill environment ty make) := by
  refine .lift_bind fun size _ => ?_
  dsimp only
  split
  · exact .lift fun code hCode => by cases hCode
  · refine .bind h fun code => .pure ?_
    split <;> simp

/-- A constant is lowered as its initializer, and the load of any other variable
has no label. -/
theorem closed_variableValue (hConstant : ∀ e, Closed (constant e)) (id : Nat) :
    Closed (variableValue environment.toSetting constant id) := by
  refine .lift_bind fun declared _ => ?_
  split
  · split
    · exact hConstant _
    · exact .throw _
  · exact .lift fun code hCode => definedLabels_variableLoad hCode

mutual

/-- The labels inside the value of an expression carry its own numbers. Only
chains of logical operators define any. -/
theorem closed_value (hConstant : ∀ e, Closed (constant e)) :
    ∀ e : Expr, Closed (value environment constant e) := by
  intro e
  rw [value.eq_def]
  split
  · exact .pure (by simp)
  cases e with
  | int info number => exact .pure (by simp)
  | float info number =>
      dsimp only
      split
      · exact .pure (by simp)
      · exact .lift fun code hCode => by cases hCode
  | bool info truth => exact .pure (by simp)
  | text info content => exact .pure (by simp)
  | null info => exact .pure (by simp)
  | vector info x y z =>
      refine .bind (closed_value hConstant x) fun first => ?_
      refine .bind (closed_value hConstant y) fun second => ?_
      refine .bind (closed_value hConstant z) fun third => .pure ?_
      intro label hLabel
      simp at hLabel
      grind
  | var info id => exact closed_variableValue hConstant id
  | functionRef info id => exact .lift_bind fun name _ => .pure (by simp)
  | neg info operand => exact .bind (closed_value hConstant operand) fun code => .pure (by simp)
  | not info operand => exact .bind (closed_value hConstant operand) fun code => .pure (by simp)
  | binary info op left right =>
      dsimp only
      split
      · refine .fresh_bind fun number => ?_
        refine .either (closed_chain hConstant op (chainEnd op number) left)
          (closed_value hConstant left) fun first => ?_
        refine .either (closed_chain hConstant op (chainEnd op number) right)
          (closed_value hConstant right) fun second => .pure ?_
        intro label hLabel
        have hEnd := marked_chainEnd op number
        simp at hLabel
        grind
      · refine .lift_bind fun chosen _ => ?_
        refine .bind (closed_value hConstant left) fun first => ?_
        exact .bind (closed_value hConstant right) fun second => .pure (by simp)
  | member info base field =>
      refine .lift_bind fun size _ => .lift_bind fun offset _ => ?_
      refine .either (closed_storedAddress hConstant base)
        (closed_spill (closed_value hConstant base)) fun source => ?_
      split
      all_goals exact .pure (by simp)
  | index info array position =>
      refine .lift_bind fun size _ => .bind (closed_value hConstant position) fun index => ?_
      refine .either (closed_storedAddress hConstant array)
        (closed_spill (closed_value hConstant array)) fun source => ?_
      split
      all_goals exact .pure (by simp)
  | call info id passed =>
      dsimp only
      split
      · exact .throw _
      · refine .lift_bind fun parameters _ => .lift_bind fun _ _ => ?_
        exact .bind (closed_arguments hConstant parameters passed) fun code => .pure (by simp)
  | callNative info id passed =>
      dsimp only
      split
      · exact .throw _
      · refine .lift_bind fun _ _ => ?_
        refine .bind (closed_arguments hConstant _ passed) fun code => ?_
        refine .lift_bind fun call hCall => .pure ?_
        simp [definedLabels_cons, nativeCall_unlabelled hCall]
  | callThrough info target passed =>
      refine .lift_bind fun prototype _ => .lift_bind fun _ _ => ?_
      refine .bind (closed_arguments hConstant _ passed) fun code => ?_
      exact .bind (closed_value hConstant target) fun pointer => .pure (by simp)
  | convert info operand =>
      refine .bind (closed_value hConstant operand) fun code => ?_
      refine .lift_bind fun change hChange => .pure ?_
      simp [definedLabels_conversion hChange]

/-- The operands of a chain define their own labels, while the label behind the
chain is not defined inside of it. -/
theorem closed_chain (hConstant : ∀ e, Closed (constant e)) (op : BinaryOp) (finish : String) :
    ∀ e : Expr, Closed (chain environment constant op finish e) := by
  intro e
  cases e with
  | binary info inner left right =>
      rw [chain]
      refine .either (closed_chain hConstant op finish left) (closed_value hConstant left)
        fun first => ?_
      exact .either (closed_chain hConstant op finish right) (closed_value hConstant right)
        fun second => .pure (by simp)
  | _ => exact .pure (by simp)

theorem closed_storedAddress (hConstant : ∀ e, Closed (constant e)) :
    ∀ e : Expr, Closed (storedAddress environment constant e) := by
  intro e
  cases e with
  | member info base field =>
      rw [storedAddress]
      refine .lift_bind fun offset _ => ?_
      exact .either (closed_storedAddress hConstant base)
        (closed_spill (closed_value hConstant base)) fun source => .pure (by simp)
  | index info array position =>
      rw [storedAddress]
      refine .lift_bind fun size _ => .bind (closed_value hConstant position) fun index => ?_
      exact .either (closed_storedAddress hConstant array)
        (closed_spill (closed_value hConstant array)) fun source => .pure (by simp)
  | var info id => exact .lift fun code hCode => definedLabels_variableAddress hCode
  | _ => exact .lift fun code hCode => by cases hCode

/-- The labels inside an address are those of the values computed on the way. -/
theorem closed_address (hConstant : ∀ e, Closed (constant e)) :
    ∀ e : Expr, Closed (address environment constant e) := by
  intro e
  cases e with
  | member info base field =>
      rw [address]
      refine .lift_bind fun offset _ => ?_
      exact .bind (closed_address hConstant base) fun source => .pure (by simp)
  | index info array position =>
      rw [address]
      refine .lift_bind fun size _ => .bind (closed_value hConstant position) fun index => ?_
      exact .bind (closed_address hConstant array) fun source => .pure (by simp)
  | var info id => exact .lift fun code hCode => definedLabels_variableAddress hCode
  | _ => exact .lift fun code hCode => by cases hCode

theorem closed_arguments (hConstant : ∀ e, Closed (constant e)) (parameters : List Ty) :
    ∀ passed : List Expr, Closed (arguments environment constant parameters passed) := by
  intro passed
  cases passed with
  | nil => exact .pure (by simp)
  | cons first rest =>
      rw [arguments]
      refine .either (closed_address hConstant first) (closed_value hConstant first) fun code => ?_
      exact .bind (closed_arguments hConstant parameters.tail rest) fun others => .pure (by simp)

end

/-- The initializers of constants are closed too, however deep one constant
leads to another. -/
theorem closed_initializerWithin (depth : Nat) :
    ∀ e : Expr, Closed (initializerWithin environment depth e) := by
  induction depth with
  | zero =>
      intro e
      exact .lift fun code hCode => by cases hCode
  | succ depth ih => exact closed_value ih

end Values

section Actions

variable (environment : Environment)

/-- The value of any expression is closed code, so it can stand anywhere in a
function. -/
theorem Environment.closed_value (e : Expr) : Closed (environment.value e) :=
  Lowering.closed_value (closed_initializerWithin _) e

/-- The address of any expression is closed code. -/
theorem Environment.closed_address (e : Expr) : Closed (environment.address e) :=
  Lowering.closed_address (closed_initializerWithin _) e

theorem closed_store (target : Expr) : Closed (store environment target) := by
  refine .lift_bind fun size _ => ?_
  split
  · exact .bind (environment.closed_address target) fun code => .pure (by simp)
  · split
    · exact .lift fun code hCode => definedLabels_variableStore hCode
    · refine .lift_bind fun offset _ => ?_
      exact .bind (environment.closed_address _) fun code => .pure (by simp)
    · refine .bind (environment.closed_value _) fun index => ?_
      exact .bind (environment.closed_address _) fun code => .pure (by simp)
    · exact .lift fun code hCode => by cases hCode

theorem closed_assignTextLabel (target : Expr) (op : Option BinaryOp) (source : Expr) :
    Closed (assignTextLabel environment target op source) := by
  unfold assignTextLabel
  split
  · exact .lift fun code hCode => by cases hCode
  · refine .lift_bind fun size _ => .lift_bind fun _ _ => ?_
    refine .bind (environment.closed_value source) fun content => ?_
    exact .bind (environment.closed_address target) fun place => .pure (by simp)

theorem closed_assign (target : Expr) (op : Option BinaryOp) (source : Expr) :
    Closed (assign environment target op source) := by
  unfold assign
  split
  · exact closed_assignTextLabel environment target op source
  · cases op with
    | none =>
        refine .bind (environment.closed_value source) fun content => ?_
        exact .bind (closed_store environment target) fun place => .pure (by simp)
    | some op =>
        refine .bind (environment.closed_value _) fun content => ?_
        exact .bind (closed_store environment target) fun place => .pure (by simp)

theorem definedLabels_storeWord (offset : Nat) (word : Datum) :
    definedLabels (storeWord offset word) = [] := by
  simp [storeWord]

theorem definedLabels_storeWords (offset : Nat) (words : List Datum) :
    definedLabels (storeWords offset words) = [] := by
  induction words generalizing offset with
  | nil => rfl
  | cons word rest ih =>
      rw [storeWords, definedLabels_append, ih]
      split <;> simp [definedLabels_storeWord]

theorem definedLabels_storeDefaults (name : String) (slot : Slot) (words : List Datum) :
    definedLabels (storeDefaults name slot words) = [] := by
  unfold storeDefaults
  split <;> simp [definedLabels_storeWords]

theorem closed_declare (id : Nat) : Closed (declare environment id) := by
  refine .lift_bind fun declared _ => .lift_bind fun slot _ => ?_
  split
  · split
    · exact .lift fun code hCode => by cases hCode
    · exact .bind (environment.closed_address _) fun code => .pure (by simp)
  · split
    · exact closed_assign environment _ _ _
    · exact .lift_bind fun words _ => .pure (by simp [definedLabels_storeDefaults])

/-- The generator of the code of an action. -/
def Action.code : Action → Gen Code
  | .declare id => Lowering.declare environment id
  | .assign target op source => Lowering.assign environment target op source
  | .value e => environment.value e
  | .evaluate e => do
    let code ← environment.value e
    return code ++ dropWords (← environment.sizes.measure e.ty)

/-- Whatever action a statement performs, its code is closed. -/
theorem Action.closed (action : Action) : Closed (action.code environment) := by
  cases action with
  | declare id => exact closed_declare environment id
  | assign target op source => exact closed_assign environment target op source
  | value e => exact environment.closed_value e
  | evaluate e =>
      exact .bind (environment.closed_value e) fun code => .lift_bind fun size _ => .pure (by simp)

end Actions
end ScriptBackend.Lowering
