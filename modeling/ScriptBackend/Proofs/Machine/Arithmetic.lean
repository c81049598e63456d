import ScriptBackend.Binary32.Arithmetic
import ScriptBackend.Proofs.Machine.Statements

/-!
Arithmetic on the machine. Instructions that compute take numbers from the stack
and push the result; which number a word is depends on the instruction alone.
Operations on floats are those of constants, so one whose result is not finite
is left open, as are operations on vectors.
-/
namespace ScriptBackend

open Assembly

def Word.ofBool (holds : Bool) : Word :=
  .ofInt (if holds then 1 else 0)

theorem Word.toFloat_ofFloat (x : Binary32) : (Word.ofFloat x).toFloat = x := by
  rw [ofFloat, toFloat, UInt32.toUInt32_toUInt64]

/-- A pushed integer is zero if its low 32 bits are. -/
theorem Word.ofInt_eq_zero_iff (number : Int) :
    Word.ofInt number = .zero ↔ Int32.ofInt number = 0 := by
  have hSize : (Int32.size : Int) = 0x100000000 := rfl
  have hZero : (0 : UInt64).toNat = 0 := rfl
  have hWord : Word.ofInt number = .zero ↔ number % 0x100000000 = 0 := by
    rw [ofInt, zero, Word.mk.injEq, ← UInt64.toNat_inj,
      UInt64.toNat_ofNat_of_lt' (by unfold UInt64.size; omega)]
    omega
  rw [hWord, ← Int32.toInt_inj, Int32.toInt_ofInt, Int32.toInt_zero,
    ← Int.dvd_iff_emod_eq_zero, ← hSize]
  exact Int.dvd_iff_bmod_eq_zero

namespace Opcode

/-- What an instruction computes from two integers. A quotient by zero is zero,
and so is its remainder. -/
def onIntegers? : Opcode → Option (Int32 → Int32 → Word)
  | .iadd => some fun a b => .ofInt (a + b).toInt
  | .isub => some fun a b => .ofInt (a - b).toInt
  | .imul => some fun a b => .ofInt (a * b).toInt
  | .idiv => some fun a b => if b = 0 then .zero else .ofInt (a / b).toInt
  | .imod => some fun a b => if b = 0 then .zero else .ofInt (a % b).toInt
  | .iand => some fun a b => .ofInt (a &&& b).toInt
  | .ior => some fun a b => .ofInt (a ||| b).toInt
  | .ixor => some fun a b => .ofInt (a ^^^ b).toInt
  | .ieq => some fun a b => .ofBool (a == b)
  | .ine => some fun a b => .ofBool (a != b)
  | .igt => some fun a b => .ofBool (b < a)
  | .ige => some fun a b => .ofBool (b ≤ a)
  | .ilt => some fun a b => .ofBool (a < b)
  | .ile => some fun a b => .ofBool (a ≤ b)
  | _ => none

def onFloats? : Opcode → Option (Binary32 → Binary32 → Option Word)
  | .fadd => some fun a b => (a.add? b).map .ofFloat
  | .fsub => some fun a b => (a.sub? b).map .ofFloat
  | .fmul => some fun a b => (a.mul? b).map .ofFloat
  | .fdiv => some fun a b => (a.div? b).map .ofFloat
  | .fmod => some fun a b => (a.rem? b).map .ofFloat
  | .feq => some fun a b => some (.ofBool (a.eq b))
  | .fne => some fun a b => some (.ofBool (!a.eq b))
  | .fgt => some fun a b => some (.ofBool (b.lt a))
  | .fge => some fun a b => some (.ofBool (b.le a))
  | .flt => some fun a b => some (.ofBool (a.lt b))
  | .fle => some fun a b => some (.ofBool (a.le b))
  | _ => none

def computed? : Opcode → List Word → Option (List Word)
  | .ineg, word :: rest => some (.ofInt (-word.toInt).toInt :: rest)
  | .inot, word :: rest => some (.ofBool (word == .zero) :: rest)
  | .fneg, word :: rest => some (.ofFloat word.toFloat.neg :: rest)
  | .vneg, z :: y :: x :: rest =>
    some (.ofFloat z.toFloat.neg :: .ofFloat y.toFloat.neg :: .ofFloat x.toFloat.neg :: rest)
  | .i2f, word :: rest => some (.ofFloat (.ofInt word.toInt.toInt) :: rest)
  | .f2i, word :: rest => some (.ofInt word.toFloat.toInt32.toInt :: rest)
  | .f2v, word :: rest => some (word :: word :: word :: rest)
  | opcode, right :: left :: rest =>
    match opcode.onIntegers? with
    | some operation => some (operation left.toInt right.toInt :: rest)
    | none =>
        opcode.onFloats?.bind fun operation =>
        (operation left.toFloat right.toFloat).map (· :: rest)
  | _, _ => none

end Opcode

namespace Lowering.Machine

/-- Instructions that are no motions compute. -/
def Computes (machine : Machine) : Prop :=
  ∀ (opcode : Opcode) (stack next : List Word) (memory : Memory),
    opcode.computed? stack = some next →
    machine.others (plain opcode.mnemonic) ⟨stack, memory⟩ = some ⟨next, memory⟩

variable {machine : Machine} {stack next : List Word} {memory : Memory}

/-- An instruction without operands that is no motion does what the machine does
for it. -/
theorem execute?_plain {mnemonic : String}
    (hMotion : machine.motion? (plain mnemonic).content = none) (hStack : stack ≠ []) :
    machine.execute? ⟨stack, memory⟩ (plain mnemonic) =
      (machine.others (plain mnemonic) ⟨stack, memory⟩).map (⟨·, none⟩) := by
  rw [execute?, hMotion]
  dsimp only
  split
  all_goals first
    | rfl
    | simp_all [plain, Statement.ofInstruction]

theorem ne_nil_of_computed? {opcode : Opcode} (h : opcode.computed? stack = some next) :
    stack ≠ [] := by
  rintro rfl
  unfold Opcode.computed? at h
  split at h
  all_goals simp_all

/-- An instruction that computes leaves its result in place of its operands. -/
theorem Runs.computed (hMachine : machine.Computes) (opcode : Opcode)
    (hMotion : opcode.bareMotion? = none) (h : opcode.computed? stack = some next) :
    machine.Runs [plain opcode.mnemonic] ⟨stack, memory⟩ ⟨next, memory⟩ := by
  have hStep : machine.pass? ⟨⟨stack, memory⟩, none⟩ (plain opcode.mnemonic) =
      some ⟨⟨next, memory⟩, none⟩ := by
    rw [pass?, if_pos (.inl rfl),
      execute?_plain ((motion?_plain opcode).trans hMotion) (ne_nil_of_computed? h),
      hMachine opcode stack next memory h]
    rfl
  rw [Runs, List.foldlM_cons, hStep]
  rfl

/-- Code that puts words in the place of others on top of the stack, whatever
lies below. -/
def Replaces (machine : Machine) (code : Code) (words results : List Word) : Prop :=
  ∀ stack memory, machine.Runs code ⟨words.reverse ++ stack, memory⟩
    ⟨results.reverse ++ stack, memory⟩

namespace Replaces

variable {first second : Code} {words middle results : List Word}

theorem nil (words : List Word) : machine.Replaces [] words words :=
  fun _ _ => .nil _

theorem append (h : machine.Replaces first words middle)
    (hSecond : machine.Replaces second middle results) :
    machine.Replaces (first ++ second) words results :=
  fun stack memory => (h stack memory).append (hSecond stack memory)

/-- Words below those that are replaced stay. -/
theorem frame (h : machine.Replaces first words results) (below : List Word) :
    machine.Replaces first (below ++ words) (below ++ results) := by
  intro stack memory
  have hRuns := h (below.reverse ++ stack) memory
  simpa only [List.reverse_append, List.append_assoc] using hRuns

theorem push (words : List Datum) : machine.Replaces (pushData words) [] (words.map machine.word) :=
  fun _ _ => machine.plainly.pushData words

theorem computed (hMachine : machine.Computes) (opcode : Opcode)
    (hMotion : opcode.bareMotion? = none)
    (h : ∀ stack, opcode.computed? (words.reverse ++ stack) = some (results.reverse ++ stack)) :
    machine.Replaces [plain opcode.mnemonic] words results :=
  fun stack _ => .computed hMachine opcode hMotion (h stack)

variable {opcode : Opcode} (left right : Word)

theorem onIntegers (hMachine : machine.Computes) {operation : Int32 → Int32 → Word}
    (h : opcode.onIntegers? = some operation) :
    machine.Replaces [plain opcode.mnemonic] [left, right] [operation left.toInt right.toInt] := by
  unfold Opcode.onIntegers? at h
  split at h
  all_goals cases h
  -- sums and products are motions
  case h_1 => exact fun stack memory => .motion (motion?_plain .iadd) rfl
  case h_3 => exact fun stack memory => .motion (motion?_plain .imul) rfl
  all_goals exact .computed hMachine _ rfl fun stack => rfl

theorem onFloats (hMachine : machine.Computes)
    {operation : Binary32 → Binary32 → Option Word} {result : Word}
    (h : opcode.onFloats? = some operation)
    (hResult : operation left.toFloat right.toFloat = some result) :
    machine.Replaces [plain opcode.mnemonic] [left, right] [result] := by
  have hComputed : opcode.bareMotion? = none ∧ ∀ stack, opcode.computed? (right :: left :: stack) =
      (operation left.toFloat right.toFloat).map (· :: stack) := by
    unfold Opcode.onFloats? at h
    split at h
    all_goals cases h
    all_goals exact ⟨rfl, fun stack => rfl⟩
  refine .computed hMachine opcode hComputed.1 fun stack => ?_
  have hStack := hComputed.2 stack
  rw [hResult] at hStack
  exact hStack

end Replaces

end Lowering.Machine
end ScriptBackend
