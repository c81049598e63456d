import ScriptBackend.Proofs.Lowering.ActionCode

/-!
Label numbers decide nothing. Whether a construct can be lowered does not depend
on the number that is next, so generators that make the same choices succeed
together, whatever labels they write.
-/
namespace ScriptBackend.Lowering

open ScriptBackend.Assembly

/-- A generator that has code wherever another one has, the numbers of both
being independent. -/
def Accompanies (make other : Gen Code) : Prop :=
  ∀ n code m, make.run n = .ok (code, m) → ∀ number, ∃ codes high,
    other.run number = .ok (codes, high)

namespace Accompanies

variable {α : Type} {make other : Gen Code} {next following : Code → Gen Code}

theorem pure (code codes : Code) : Accompanies (pure code) (pure codes) :=
  fun _ _ _ _ number => ⟨codes, number, rfl⟩

theorem throw (fault : CompileFault) : Accompanies (throw fault) other := by
  intro n code m hRun
  cases hRun

/-- Made from other numbers, both parts of some code can be made again, each
where the other has left off. -/
theorem bind (h : Accompanies make other)
    (hNext : ∀ code codes, Accompanies (next code) (following codes)) :
    Accompanies (make >>= next) (other >>= following) := by
  intro n result m hRun number
  obtain ⟨code, middle, hMake, hRest⟩ := run_bind_eq_ok.mp hRun
  obtain ⟨codes, between, hOther⟩ := h n code middle hMake number
  obtain ⟨results, high, hFollowing⟩ := hNext code codes middle result m hRest between
  exact ⟨results, high, run_bind_eq_ok.mpr ⟨codes, between, hOther, hFollowing⟩⟩

/-- Whichever of two generators comes first. -/
theorem either {decision : Prop} [Decidable decision] {second secondOther : Gen Code}
    (h : Accompanies make other)
    (hSecond : Accompanies second secondOther)
    (hNext : ∀ code codes, Accompanies (next code) (following codes)) :
    Accompanies (if decision then make >>= next else second >>= next)
      (if decision then other >>= following else secondOther >>= following) := by
  by_cases hDecision : decision
  · rw [if_pos hDecision, if_pos hDecision]
    exact bind h hNext
  · rw [if_neg hDecision, if_neg hDecision]
    exact bind hSecond hNext

theorem lift_bind {outcome : Except CompileFault α} {next following : α → Gen Code}
    (hNext : ∀ a, Accompanies (next a) (following a)) :
    Accompanies (liftM outcome >>= next) (liftM outcome >>= following) := by
  intro n result m hRun number
  obtain ⟨a, hOutcome, hRest⟩ := run_lift_bind_eq_ok.mp hRun
  obtain ⟨codes, high, hFollowing⟩ := hNext a n result m hRest number
  exact ⟨codes, high, run_lift_bind_eq_ok.mpr ⟨a, hOutcome, hFollowing⟩⟩

theorem lift (outcome : Except CompileFault Code) :
    Accompanies (liftM outcome) (liftM outcome) := by
  intro n code m hRun number
  exact ⟨code, number, run_lift_eq_ok.mpr ⟨(run_lift_eq_ok.mp hRun).1, rfl⟩⟩

/-- What follows a fresh number can be made again with any other number. -/
theorem fresh_bind {next following : Nat → Gen Code}
    (hNext : ∀ k l, Accompanies (next k) (following l)) :
    Accompanies (freshNumber >>= next) (freshNumber >>= following) := by
  intro n result m hRun number
  obtain ⟨k, middle, _, hRest⟩ := run_bind_eq_ok.mp hRun
  obtain ⟨codes, high, hFollowing⟩ := hNext k number middle result m hRest (number + 1)
  exact ⟨codes, high, run_bind_eq_ok.mpr ⟨number, number + 1,
    run_freshNumber_eq_ok.mpr ⟨rfl, rfl⟩, hFollowing⟩⟩

end Accompanies

section Values

variable {environment : Environment} {constant : Expr → Gen Code}

theorem accompanies_spill {ty : Ty} {make : Gen Code} (h : Accompanies make make) :
    Accompanies (spill environment ty make) (spill environment ty make) := by
  refine .lift_bind fun size => ?_
  dsimp only
  split
  · exact .lift _
  · exact .bind h fun _ _ => .pure _ _

theorem accompanies_variableValue
    (hConstant : ∀ e, Accompanies (constant e) (constant e)) (id : Nat) :
    Accompanies (variableValue environment.toSetting constant id)
      (variableValue environment.toSetting constant id) := by
  refine .lift_bind fun declared => ?_
  split
  · split
    · exact hConstant _
    · exact .throw _
  · exact .lift _

mutual

/-- The code of a value exists for every next number or for none. -/
theorem accompanies_value (hConstant : ∀ e, Accompanies (constant e) (constant e)) :
    ∀ e : Expr, Accompanies (value environment constant e) (value environment constant e) := by
  intro e
  rw [value.eq_def]
  split
  · exact .pure _ _
  cases e with
  | int | bool | text | null => exact .pure _ _
  | float info number =>
      dsimp only
      split
      · exact .pure _ _
      · exact .lift _
  | vector info x y z =>
      refine .bind (accompanies_value hConstant x) fun _ _ => ?_
      refine .bind (accompanies_value hConstant y) fun _ _ => ?_
      exact .bind (accompanies_value hConstant z) fun _ _ => .pure _ _
  | var info id => exact accompanies_variableValue hConstant id
  | functionRef info id => exact .lift_bind fun _ => .pure _ _
  | neg info operand => exact .bind (accompanies_value hConstant operand) fun _ _ => .pure _ _
  | not info operand => exact .bind (accompanies_value hConstant operand) fun _ _ => .pure _ _
  | binary info op left right =>
      dsimp only
      split
      · refine .fresh_bind fun k l => ?_
        refine .either (accompanies_chain hConstant op (chainEnd op k) (chainEnd op l) left)
          (accompanies_value hConstant left) fun _ _ => ?_
        exact .either (accompanies_chain hConstant op (chainEnd op k) (chainEnd op l) right)
          (accompanies_value hConstant right) fun _ _ => .pure _ _
      · refine .lift_bind fun chosen => ?_
        refine .bind (accompanies_value hConstant left) fun _ _ => ?_
        exact .bind (accompanies_value hConstant right) fun _ _ => .pure _ _
  | member info base field =>
      refine .lift_bind fun size => .lift_bind fun offset => ?_
      refine .either (accompanies_storedAddress hConstant base)
        (accompanies_spill (accompanies_value hConstant base)) fun _ _ => ?_
      split
      all_goals exact .pure _ _
  | index info array position =>
      refine .lift_bind fun size => .bind (accompanies_value hConstant position) fun _ _ => ?_
      refine .either (accompanies_storedAddress hConstant array)
        (accompanies_spill (accompanies_value hConstant array)) fun _ _ => ?_
      split
      all_goals exact .pure _ _
  | call info id passed =>
      dsimp only
      split
      · exact .throw _
      · refine .lift_bind fun parameters => .lift_bind fun _ => ?_
        exact .bind (accompanies_arguments hConstant parameters passed) fun _ _ => .pure _ _
  | callNative info id passed =>
      dsimp only
      split
      · exact .throw _
      · refine .lift_bind fun _ => ?_
        refine .bind (accompanies_arguments hConstant _ passed) fun _ _ => ?_
        exact .lift_bind fun call => .pure _ _
  | callThrough info target passed =>
      refine .lift_bind fun prototype => .lift_bind fun _ => ?_
      refine .bind (accompanies_arguments hConstant _ passed) fun _ _ => ?_
      exact .bind (accompanies_value hConstant target) fun _ _ => .pure _ _
  | convert info operand =>
      refine .bind (accompanies_value hConstant operand) fun _ _ => ?_
      exact .lift_bind fun change => .pure _ _

/-- A chain can be made again with other numbers and with another label behind
it. -/
theorem accompanies_chain (hConstant : ∀ e, Accompanies (constant e) (constant e)) (op : BinaryOp)
    (finish other : String) :
    ∀ e : Expr, Accompanies (chain environment constant op finish e)
      (chain environment constant op other e) := by
  intro e
  cases e with
  | binary info inner left right =>
      rw [chain, chain]
      refine .either (accompanies_chain hConstant op finish other left)
        (accompanies_value hConstant left) fun _ _ => ?_
      exact .either (accompanies_chain hConstant op finish other right)
        (accompanies_value hConstant right) fun _ _ => .pure _ _
  | _ => exact .pure _ _

theorem accompanies_storedAddress (hConstant : ∀ e, Accompanies (constant e) (constant e)) :
    ∀ e : Expr, Accompanies (storedAddress environment constant e)
      (storedAddress environment constant e) := by
  intro e
  cases e with
  | member info base field =>
      rw [storedAddress]
      refine .lift_bind fun offset => ?_
      exact .either (accompanies_storedAddress hConstant base)
        (accompanies_spill (accompanies_value hConstant base)) fun _ _ => .pure _ _
  | index info array position =>
      rw [storedAddress]
      refine .lift_bind fun size => .bind (accompanies_value hConstant position) fun _ _ => ?_
      exact .either (accompanies_storedAddress hConstant array)
        (accompanies_spill (accompanies_value hConstant array)) fun _ _ => .pure _ _
  | _ => exact .lift _

/-- An address can be made again from other numbers, since no number decides
whether code can be made. -/
theorem accompanies_address (hConstant : ∀ e, Accompanies (constant e) (constant e)) :
    ∀ e : Expr, Accompanies (address environment constant e) (address environment constant e) := by
  intro e
  cases e with
  | member info base field =>
      rw [address]
      refine .lift_bind fun offset => ?_
      exact .bind (accompanies_address hConstant base) fun _ _ => .pure _ _
  | index info array position =>
      rw [address]
      refine .lift_bind fun size => .bind (accompanies_value hConstant position) fun _ _ => ?_
      exact .bind (accompanies_address hConstant array) fun _ _ => .pure _ _
  | _ => exact .lift _

theorem accompanies_arguments (hConstant : ∀ e, Accompanies (constant e) (constant e))
    (parameters : List Ty) :
    ∀ passed : List Expr,
      Accompanies (arguments environment constant parameters passed)
        (arguments environment constant parameters passed) := by
  intro passed
  cases passed with
  | nil => exact .pure _ _
  | cons first rest =>
      rw [arguments]
      refine .either (accompanies_address hConstant first)
        (accompanies_value hConstant first) fun _ _ => ?_
      exact .bind (accompanies_arguments hConstant parameters.tail rest) fun _ _ => .pure _ _

end

/-- An expression can be lowered again from any number, however deep it leads
into constants. -/
theorem accompanies_initializerWithin (depth : Nat) :
    ∀ e : Expr, Accompanies (initializerWithin environment depth e)
      (initializerWithin environment depth e) := by
  induction depth with
  | zero => exact fun _ => .lift _
  | succ depth ih => exact accompanies_value ih

end Values
end ScriptBackend.Lowering
