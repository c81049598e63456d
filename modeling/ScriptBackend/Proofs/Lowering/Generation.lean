import ScriptBackend.Proofs.Lowering.Labels
import ScriptBackend.Proofs.Outcome
import ScriptBackend.Proofs.Program.Sizes

/-!
What generators do to labels. Generators take numbers one after the other, and
the labels in what they generate are made up for numbers that they took, so what
is generated apart shares no labels.
-/
namespace ScriptBackend.Lowering

open ScriptBackend.Assembly

section Runs

variable {α β : Type} {n m : Nat}

/-- Code made from parts is made when its parts are, with the numbers handed on
from one to the next. -/
theorem run_bind_eq_ok {first : Gen α} {next : α → Gen β} {result : β} :
    (first >>= next).run n = .ok (result, m) ↔
      ∃ a middle, first.run n = .ok (a, middle) ∧ (next a).run middle = .ok (result, m) := by
  rw [StateT.run_bind, Outcome.bind_eq_ok, Prod.exists]

theorem run_pure_eq_ok {a result : α} :
    (pure a : Gen α).run n = .ok (result, m) ↔ result = a ∧ m = n := by
  constructor
  · intro h
    cases h
    exact ⟨rfl, rfl⟩
  · intro hRun
    obtain ⟨rfl, rfl⟩ := hRun
    rfl

theorem run_lift_eq_ok {outcome : Except CompileFault α} {result : α} :
    (liftM outcome : Gen α).run n = .ok (result, m) ↔ outcome = .ok result ∧ m = n := by
  cases outcome with
  | error fault =>
      constructor
      · intro h
        cases h
      · intro hRun
        obtain ⟨h, _⟩ := hRun
        cases h
  | ok a =>
      constructor
      · intro h
        cases h
        exact ⟨rfl, rfl⟩
      · intro hRun
        obtain ⟨h, rfl⟩ := hRun
        cases h
        rfl

/-- What needs no numbers leaves them as they are. -/
theorem run_lift_bind_eq_ok {outcome : Except CompileFault α} {next : α → Gen β} {result : β} :
    ((liftM outcome : Gen α) >>= next).run n = .ok (result, m) ↔
      ∃ a, outcome = .ok a ∧ (next a).run n = .ok (result, m) := by
  rw [run_bind_eq_ok]
  constructor
  · intro h
    obtain ⟨a, middle, hLift, hNext⟩ := h
    obtain ⟨hOutcome, rfl⟩ := run_lift_eq_ok.mp hLift
    exact ⟨a, hOutcome, hNext⟩
  · intro h
    obtain ⟨a, hOutcome, hNext⟩ := h
    exact ⟨a, n, run_lift_eq_ok.mpr ⟨hOutcome, rfl⟩, hNext⟩

/-- Whichever of two generators comes first. -/
theorem run_either_eq_ok {decision : Prop} [Decidable decision] {first other : Gen α}
    {next : α → Gen β} {result : β} :
    (if decision then first >>= next else other >>= next).run n = .ok (result, m) ↔
      ∃ a middle, (if decision then first else other).run n = .ok (a, middle) ∧
        (next a).run middle = .ok (result, m) := by
  by_cases hDecision : decision
  · simp only [if_pos hDecision, run_bind_eq_ok]
  · simp only [if_neg hDecision, run_bind_eq_ok]

/-- A fresh number is the next one, and is not given again. -/
theorem run_freshNumber_eq_ok {number : Nat} :
    freshNumber.run n = .ok (number, m) ↔ number = n ∧ m = n + 1 := by
  constructor
  · intro h
    cases h
    exact ⟨rfl, rfl⟩
  · intro hRun
    obtain ⟨rfl, rfl⟩ := hRun
    rfl

end Runs

/-- A generator whose code defines no labels but allowed ones and those made up
for the numbers that it takes. -/
def Confined (allowed : String → Prop) (make : Gen Code) : Prop :=
  ∀ n code m, make.run n = .ok (code, m) →
    n ≤ m ∧ ∀ label ∈ definedLabels code, allowed label ∨ Owned n m label

/-- A generator whose code defines no other labels than those made up for the
numbers that it takes. -/
abbrev Closed (make : Gen Code) : Prop :=
  Confined (fun _ => False) make

namespace Confined

variable {α : Type} {allowed : String → Prop} {make : Gen Code} {next : Code → Gen Code}

theorem pure {code : Code} (h : ∀ label ∈ definedLabels code, allowed label) :
    Confined allowed (pure code) := by
  intro n result m hRun
  obtain ⟨rfl, rfl⟩ := run_pure_eq_ok.mp hRun
  exact ⟨Nat.le_refl _, fun label hLabel => .inl (h label hLabel)⟩

theorem throw (fault : CompileFault) : Confined allowed (throw fault) := by
  intro n code m hRun
  cases hRun

/-- Behind closed code, labels may be those allowed and those that the code
defines. -/
theorem bind (h : Closed make)
    (hNext : ∀ code, Confined (fun label =>
      allowed label ∨ label ∈ definedLabels code) (next code)) :
    Confined allowed (make >>= next) := by
  intro n result m hRun
  obtain ⟨code, middle, hMake, hRest⟩ := run_bind_eq_ok.mp hRun
  obtain ⟨hBefore, hCode⟩ := h n code middle hMake
  obtain ⟨hBehind, hResult⟩ := hNext code middle result m hRest
  refine ⟨Nat.le_trans hBefore hBehind, fun label hLabel => ?_⟩
  rcases hResult label hLabel with (hAllowed | hFirst) | hOwned
  · exact .inl hAllowed
  · rcases hCode label hFirst with hFalse | hOwned
    · exact hFalse.elim
    · exact .inr (hOwned.mono (Nat.le_refl _) hBehind)
  · exact .inr (hOwned.mono hBefore (Nat.le_refl _))

/-- Whichever of two generators comes first. -/
theorem either {decision : Prop} [Decidable decision] {other : Gen Code} (h : Closed make)
    (hOther : Closed other)
    (hNext : ∀ code, Confined (fun label =>
      allowed label ∨ label ∈ definedLabels code) (next code)) :
    Confined allowed (if decision then make >>= next else other >>= next) := by
  by_cases hDecision : decision
  · rw [if_pos hDecision]
    exact bind h hNext
  · rw [if_neg hDecision]
    exact bind hOther hNext

theorem lift_bind {outcome : Except CompileFault α} {next : α → Gen Code}
    (hNext : ∀ a, outcome = .ok a → Confined allowed (next a)) :
    Confined allowed (liftM outcome >>= next) := by
  intro n result m hRun
  obtain ⟨a, middle, hLift, hRest⟩ := run_bind_eq_ok.mp hRun
  obtain ⟨hOutcome, rfl⟩ := run_lift_eq_ok.mp hLift
  exact hNext a hOutcome _ result m hRest

theorem lift {outcome : Except CompileFault Code}
    (h : ∀ code, outcome = .ok code → definedLabels code = []) :
    Confined allowed (liftM outcome) := by
  intro n code m hRun
  obtain ⟨hOutcome, rfl⟩ := run_lift_eq_ok.mp hRun
  refine ⟨Nat.le_refl _, fun label hLabel => ?_⟩
  rw [h code hOutcome] at hLabel
  cases hLabel

/-- Behind a fresh number, labels may carry that number besides those allowed. -/
theorem fresh_bind {next : Nat → Gen Code}
    (hNext : ∀ number, Confined (fun label => allowed label ∨ Marked number label) (next number)) :
    Confined allowed (freshNumber >>= next) := by
  intro n result m hRun
  obtain ⟨number, middle, hFresh, hRest⟩ := run_bind_eq_ok.mp hRun
  obtain ⟨rfl, rfl⟩ := run_freshNumber_eq_ok.mp hFresh
  obtain ⟨hBehind, hResult⟩ := hNext _ _ result m hRest
  refine ⟨by omega, fun label hLabel => ?_⟩
  rcases hResult label hLabel with (hAllowed | hMarked) | hOwned
  · exact .inl hAllowed
  · exact .inr (hMarked.owned (Nat.le_refl _) hBehind)
  · exact .inr (hOwned.mono (Nat.le_succ _) (Nat.le_refl _))

end Confined

theorem Closed.le {make : Gen Code} {n m : Nat} {code : Code} (h : Closed make)
    (hRun : make.run n = .ok (code, m)) : n ≤ m :=
  (h n code m hRun).1

/-- The labels that closed code defines carry numbers given out while it was
made. -/
theorem Closed.owned {make : Gen Code} {n m : Nat} {code : Code} (h : Closed make)
    (hRun : make.run n = .ok (code, m)) : ∀ label ∈ definedLabels code, Owned n m label := by
  intro label hLabel
  rcases (h n code m hRun).2 label hLabel with hFalse | hOwned
  · exact hFalse.elim
  · exact hOwned

/-! Code without labels -/

@[simp] theorem definedLabels_plain (mnemonic : String) (rest : Code) :
    definedLabels (plain mnemonic :: rest) = definedLabels rest :=
  definedLabels_instruction mnemonic _ rest

@[simp] theorem definedLabels_counted (mnemonic : String) (numbers : List Nat) (rest : Code) :
    definedLabels (counted mnemonic numbers :: rest) = definedLabels rest :=
  definedLabels_instruction mnemonic _ rest

@[simp] theorem definedLabels_naming (mnemonic label : String) (rest : Code) :
    definedLabels (naming mnemonic label :: rest) = definedLabels rest :=
  definedLabels_instruction mnemonic _ rest

@[simp] theorem definedLabels_pushData (words : List Datum) :
    definedLabels (pushData words) = [] := by
  apply definedLabels_eq_nil
  intro statement hStatement
  obtain ⟨run, _, rfl⟩ := List.mem_map.mp hStatement
  unfold pushRun
  split <;> rfl

@[simp] theorem definedLabels_dropWords (count : Nat) : definedLabels (dropWords count) = [] := by
  apply definedLabels_eq_nil
  intro statement hStatement
  rw [List.eq_of_mem_replicate hStatement]
  rfl

@[simp] theorem definedLabels_atOffset (offset : Nat) : definedLabels (atOffset offset) = [] := by
  unfold atOffset
  split <;> simp

@[simp] theorem definedLabels_componentConversion (ty : Ty) :
    definedLabels (componentConversion ty) = [] := by
  unfold componentConversion
  split <;> simp

@[simp] theorem definedLabels_widening (family : Family) (operand : Ty) :
    definedLabels (family.widening operand) = [] := by
  unfold Family.widening
  split <;> split <;> simp

@[simp] theorem definedLabels_decision (op : BinaryOp) (finish : String) :
    definedLabels (decision op finish) = [] := by
  unfold decision
  split <;> simp

/-- A value that is taken as one of another type has the type already, or both
take one word. -/
theorem unchanged_ok {sizes : Sizes} {source target : Ty} {code : Code}
    (h : unchanged sizes source target = .ok code) :
    code = [] ∧ (source = target ∨ (sizes.of source = 1 ∧ sizes.of target = 1)) := by
  unfold unchanged at h
  split at h
  · next hSame =>
      cases h
      exact ⟨rfl, .inl hSame⟩
  · obtain ⟨both, hBoth, h⟩ := Outcome.bind_eq_ok.mp h
    obtain ⟨first, hFirst, hBoth⟩ := Outcome.bind_eq_ok.mp hBoth
    cases both with
    | false => cases h
    | true =>
        cases h
        cases first with
        | false => cases hBoth
        | true =>
            exact ⟨rfl, .inr ⟨of_decide_eq_true (Sizes.of_eq_of_isWord hFirst).symm,
              of_decide_eq_true (Sizes.of_eq_of_isWord hBoth).symm⟩⟩

/-- A conversion is made without labels, since it does not branch. -/
theorem definedLabels_conversion {sizes : Sizes} {source target : Ty} {code : Code}
    (h : conversion sizes source target = .ok code) : definedLabels code = [] := by
  unfold conversion at h
  split at h
  iterate 4
    cases h
    simp
  obtain ⟨rfl, _⟩ := unchanged_ok h
  rfl

/-- A call of a native that is there, with words that fit into the instruction. -/
theorem nativeCall_ok {setting : Setting} {native : NativeSignature} {call : Statement}
    (h : nativeCall setting native = .ok call) :
    totalWords setting.sizes.of native.parameters ≤ nativeArgumentLimit ∧
      setting.sizes.of native.result ≤ nativeReturnLimit ∧
      (setting.natives.named? native.name).isSome = true ∧
      call = .ofInstruction "NATIVE" [
        .int (Int64.ofNat (totalWords setting.sizes.of native.parameters)),
        .int (Int64.ofNat (setting.sizes.of native.result)),
        .name (Text.upperCased native.name)] := by
  obtain ⟨arguments, hArguments, h⟩ := Outcome.bind_eq_ok.mp h
  obtain ⟨returns, hReturns, h⟩ := Outcome.bind_eq_ok.mp h
  obtain rfl := Sizes.totalWords_eq_of_measureAll hArguments
  obtain rfl := Sizes.of_eq_of_measure hReturns
  split at h
  · cases h
  · next hLimits =>
      rw [not_or, Nat.not_lt, Nat.not_lt] at hLimits
      split at h
      · cases h
      · next hFound =>
          cases h
          exact ⟨hLimits.1, hLimits.2, by simpa [Option.isSome_iff_ne_none] using hFound, rfl⟩

theorem nativeCall_unlabelled {setting : Setting} {native : NativeSignature} {statement : Statement}
    (h : nativeCall setting native = .ok statement) : statement.label = none := by
  obtain ⟨_, _, _, rfl⟩ := nativeCall_ok h
  rfl

theorem definedLabels_variableAddress {setting : Setting} {id : Nat} {code : Code}
    (h : setting.variableAddress id = .ok code) : definedLabels code = [] := by
  obtain ⟨declared, _, h⟩ := Outcome.bind_eq_ok.mp h
  obtain ⟨slot, _, h⟩ := Outcome.bind_eq_ok.mp h
  split at h
  all_goals
    cases h
    simp

/-- The code that loads a variable from its slot: a single word, at its own
place or where a reference leads, or many words from an address. -/
inductive Loads (setting : Setting) (id : Nat) (declared : Variable) (slot : Slot) :
    Code → Prop where
  | through (single : setting.sizes.of declared.ty.target = 1) (isRef : declared.ty.isRef = true) :
      Loads setting id declared slot
        [counted "LOCAL_LOAD" [slot.index], commented declared.name (plain "LOAD")]
  | word (single : setting.sizes.of declared.ty.target = 1) (isValue : declared.ty.isRef = false) :
      Loads setting id declared slot
        [commented declared.name (counted (Region.mnemonic slot.region ++ "_LOAD") [slot.index])]
  | words {address : Code} (several : setting.sizes.of declared.ty.target ≠ 1)
      (address_code : setting.variableAddress id = .ok address) :
      Loads setting id declared slot (counted "PUSH_CONST" [setting.sizes.of declared.ty.target] ::
        address ++ [commented declared.name (plain "LOAD_N")])

/-- A variable is loaded from its slot in one of a few ways, by its region and
the size of its type. -/
theorem variableLoad_loads {setting : Setting} {id : Nat} {code : Code}
    (h : setting.variableLoad id = .ok code) :
    ∃ declared slot, setting.declaration id = .ok declared ∧ setting.place id = .ok slot ∧
      Loads setting id declared slot code := by
  obtain ⟨declared, hDeclared, h⟩ := Outcome.bind_eq_ok.mp h
  obtain ⟨slot, hSlot, h⟩ := Outcome.bind_eq_ok.mp h
  obtain ⟨size, hSize, h⟩ := Outcome.bind_eq_ok.mp h
  obtain rfl := Sizes.of_eq_of_measure hSize
  refine ⟨declared, slot, hDeclared, hSlot, ?_⟩
  dsimp only at h
  split at h
  · next hSingle =>
      split at h
      · next hRef =>
          cases h
          exact .through hSingle hRef
      · next hValue =>
          cases h
          exact .word hSingle (Bool.eq_false_iff.mpr hValue)
  · next hSeveral =>
      obtain ⟨address, hAddress, h⟩ := Outcome.bind_eq_ok.mp h
      cases h
      exact .words hSeveral hAddress

theorem definedLabels_variableLoad {setting : Setting} {id : Nat} {code : Code}
    (h : setting.variableLoad id = .ok code) : definedLabels code = [] := by
  obtain ⟨declared, slot, _, _, hLoads⟩ := variableLoad_loads h
  cases hLoads with
  | through single isRef => simp
  | word single isValue => simp
  | words several address_code => simp [definedLabels_variableAddress address_code]

theorem definedLabels_variableStore {setting : Setting} {id : Nat} {code : Code}
    (h : setting.variableStore id = .ok code) : definedLabels code = [] := by
  obtain ⟨declared, _, h⟩ := Outcome.bind_eq_ok.mp h
  obtain ⟨slot, _, h⟩ := Outcome.bind_eq_ok.mp h
  dsimp only at h
  split at h
  all_goals
    cases h
    simp

end ScriptBackend.Lowering
