import ScriptBackend.Proofs.Lowering.Data
import ScriptBackend.Proofs.Machine.Arithmetic

/-!
Operators on known words. Folding chooses an operation by the kinds of words,
code by the types of operands; where the words are values of the types, the
instructions leave what folding finds.
-/
namespace ScriptBackend.Lowering

open ScriptBackend.Assembly

/-! Kinds -/

/-- Whether known words are a value of a type: integers for `INT`, floats for
`FLOAT` and `VECTOR`, and one word that is no float for any other type. -/
def isValueOf (ty : Ty) (words : List Datum) : Bool :=
  match ty, words with
  | .int, [.int _] | .float, [.float _] | .vector, [.float _, .float _, .float _] => true
  | .int, _ | .float, _ | .vector, _ | _, [.float _] => false
  | _, words => words.length == 1

def isScalar : Ty → Bool
  | .int | .float => true
  | _ => false

section Kinds

variable {ty : Ty} {words : List Datum} {word : Datum}

/-- The words of an integer are one integer. -/
theorem eq_int_of_isValueOf (h : isValueOf .int words = true) : ∃ value, words = [.int value] := by
  unfold isValueOf at h
  split at h <;> simp_all

/-- The words of a float are one float. -/
theorem eq_float_of_isValueOf (h : isValueOf .float words = true) : ∃ x, words = [.float x] := by
  unfold isValueOf at h
  split at h <;> simp_all

/-- The words of a vector are three floats. -/
theorem eq_vector_of_isValueOf (h : isValueOf .vector words = true) :
    ∃ x y z, words = [.float x, .float y, .float z] := by
  unfold isValueOf at h
  split at h <;> simp_all

/-- A value of a type without floats is one word that is no float. -/
theorem eq_single_of_isValueOf (hFloat : ty ≠ .float) (hVector : ty ≠ .vector)
    (h : isValueOf ty words = true) :
    ∃ word, words = [word] ∧ ∀ x, word ≠ .float x := by
  unfold isValueOf at h
  split at h
  all_goals simp_all
  obtain ⟨word, rfl⟩ := List.length_eq_one_iff.mp h
  exact ⟨word, rfl, by simp_all⟩

theorem ne_vector_of_isValueOf (h : isValueOf ty [word] = true) : ty ≠ .vector := by
  rintro rfl
  obtain ⟨x, y, z, hWords⟩ := eq_vector_of_isValueOf h
  cases hWords

theorem eq_float_of_float {x : Binary32} (h : isValueOf ty [.float x] = true) : ty = .float := by
  cases ty <;> first | rfl | cases h

/-- Conversions between other types than numbers and vectors keep the word. -/
theorem convert_eq_self {sizes : Sizes} {target : Ty}
    (hSame : ty = target ∨ (sizes.of ty = 1 ∧ sizes.of target = 1))
    (hValue : isValueOf ty [word] = true)
    (hFloat : target = .float → isScalar ty = true) (hNoFloat : ty = .int → target = .float → False)
    (hNoInteger : ty = .float → target = .int → False)
    (hNoVector : ty = .float → target = .vector → False) :
    word.convert target = [word] := by
  cases word with
  | int value =>
      cases target with
      | float =>
          cases ty with
          | int => exact (hNoFloat rfl rfl).elim
          | float => cases hValue
          | _ => cases hFloat rfl
      | vector =>
          have hThree : sizes.of .vector = 3 := rfl
          rcases hSame with rfl | ⟨_, hOne⟩
          · cases hValue
          · cases hThree.symm.trans hOne
      | _ => rfl
  | float x =>
      have hSource := eq_float_of_float hValue
      cases target with
      | int => exact (hNoInteger hSource rfl).elim
      | vector => exact (hNoVector hSource rfl).elim
      | _ => rfl
  | _ => rfl

end Kinds

theorem operation_of_opcode? {op : BinaryOp} {left right : Ty} {family : Family} {opcode : Opcode}
    (hFamily : Family.ofOperands left right = family) (h : family.opcode? op = some opcode) :
    operation op left right = .ok (family, opcode.mnemonic) := by
  unfold operation
  dsimp only
  rw [hFamily, Family.mnemonic?_eq, h]
  rfl

namespace Machine

variable {machine : Machine}

/-! Operators on known words -/

section Operators

@[simp] theorem word_ofInt32 (value : Int32) :
    machine.word (.ofInt32 value) = .ofInt value.toInt := by
  simp [Datum.ofInt32, word]

@[simp] theorem word_ofBool (holds : Bool) : machine.word (.ofBool holds) = .ofBool holds := by
  cases holds <;> rfl

/-- An integer that is pushed is the one in the low half of its word. -/
theorem toInt_word (value : Int64) : (machine.word (.int value)).toInt = value.toInt32 := by
  rw [word, Word.toInt_ofInt, Int32.ofInt_int64ToInt]

/-- What folds on integers is what the instruction computes. -/
theorem onIntegers_of_foldInt {op : BinaryOp} {a b : Int32} {result : Datum}
    (hLong : op.isShortCircuit = false) (h : Datum.foldInt op a b = some result) :
    ∃ opcode operation, Family.int.opcode? op = some opcode ∧ opcode.onIntegers? = some operation ∧
      operation a b = machine.word result := by
  have hQuotient : (b != 0 && !(a == Int32.minValue && b == -1)) = true → b ≠ 0 := by
    rintro hDivides rfl
    simp at hDivides
  cases op with
  | div | mod =>
      obtain ⟨hDivides, hResult⟩ := Option.ite_none_right_eq_some.mp h
      cases hResult
      exact ⟨_, _, rfl, rfl, by simp [hQuotient hDivides]⟩
  | and | or => cases hLong
  | _ =>
      cases h
      exact ⟨_, _, rfl, rfl, by simp⟩

/-- What folds on floats is what the instruction computes. -/
theorem onFloats_of_foldFloat {op : BinaryOp} {a b : Binary32} {result : Datum}
    (h : Datum.foldFloat op a b = some result) :
    ∃ opcode operation, Family.float.opcode? op = some opcode ∧ opcode.onFloats? = some operation ∧
      operation a b = some (machine.word result) := by
  cases op with
  | add | sub | mul | div | mod =>
      obtain ⟨x, hX, rfl⟩ := Option.map_eq_some_iff.mp h
      exact ⟨_, _, rfl, rfl, by rw [hX]; rfl⟩
  | bitAnd | bitOr | bitXor | and | or => cases h
  | _ =>
      cases h
      exact ⟨_, _, rfl, rfl, by simp⟩

variable (hMachine : machine.Computes)
include hMachine

/-- An integer becomes the float that it folds to. -/
theorem replaces_toFloat (value : Int64) :
    machine.Replaces [plain "I2F"] [machine.word (.int value)]
      [machine.word (.float (.ofInt value.toInt32.toInt))] := by
  refine .computed hMachine .i2f rfl fun stack => ?_
  have hInteger : (machine.word (.int value)).toInt = value.toInt32 := toInt_word value
  rw [← hInteger]
  rfl

/-- The conversion to an integer computes what is computed for a known float. -/
theorem replaces_toInteger (x : Binary32) :
    machine.Replaces [plain "F2I"] [machine.word (.float x)]
      [machine.word (.ofInt32 x.toInt32)] := by
  refine .computed hMachine .f2i rfl fun stack => ?_
  rw [word_ofInt32]
  simp only [word, List.reverse_singleton, List.singleton_append, Opcode.computed?,
    Word.toFloat_ofFloat]

/-- The conversion to a vector repeats a float three times. -/
theorem replaces_toVector (x : Binary32) :
    machine.Replaces [plain "F2V"] [machine.word (.float x)]
      (List.replicate 3 (machine.word (.float x))) :=
  .computed hMachine .f2v rfl fun _ => rfl

/-- A component becomes the float that it folds to. -/
theorem replaces_component {ty : Ty} {word : Datum} {x : Binary32}
    (hValue : isValueOf ty [word] = true) (hFloat : word.float? = some x) :
    machine.Replaces (componentConversion ty) [machine.word word] [machine.word (.float x)] := by
  unfold componentConversion
  split
  · next hTy =>
      subst hTy
      cases word with
      | float value =>
          cases hFloat
          exact .nil _
      | _ => cases hValue
  · next hTy =>
      cases word with
      | int value =>
          cases hFloat
          exact replaces_toFloat hMachine value
      | float value => cases ty <;> first | exact absurd rfl hTy | cases hValue
      | _ => cases hFloat

/-- The opposite of known words. -/
theorem replaces_neg {ty : Ty} {words opposites : List Datum} (hValue : isValueOf ty words = true)
    (h : words.mapM Datum.neg? = some opposites) :
    machine.Replaces [plain ((Family.ofTy ty).letter ++ "NEG")] (words.map machine.word)
      (opposites.map machine.word) := by
  by_cases hFloat : ty = .float
  · subst hFloat
    obtain ⟨x, rfl⟩ := eq_float_of_isValueOf hValue
    cases h
    refine .computed hMachine .fneg rfl fun stack => ?_
    simp [word, Opcode.computed?, Word.toFloat_ofFloat]
  by_cases hVector : ty = .vector
  · subst hVector
    obtain ⟨x, y, z, rfl⟩ := eq_vector_of_isValueOf hValue
    cases h
    refine .computed hMachine .vneg rfl fun stack => ?_
    simp [word, Opcode.computed?, Word.toFloat_ofFloat]
  have hFamily : Family.ofTy ty = .int := by
    unfold Family.ofTy
    split <;> simp_all
  obtain ⟨word, rfl, hWord⟩ := eq_single_of_isValueOf hFloat hVector hValue
  cases word with
  | int value =>
      cases h
      rw [hFamily]
      refine .computed hMachine .ineg rfl fun stack => ?_
      simp [Opcode.computed?, toInt_word]
  | float x => exact absurd rfl (hWord x)
  | _ => cases h

/-- The opposite of a known truth value. -/
theorem replaces_not {word opposite : Datum} (h : word.not? = some opposite) :
    machine.Replaces [plain "INOT"] [machine.word word] [machine.word opposite] := by
  cases word with
  | int value =>
      cases h
      have hZero : (machine.word (.int value) == .zero) = (value.toInt32 == 0) := by
        rw [Bool.eq_iff_iff, beq_iff_eq, beq_iff_eq, word, Word.ofInt_eq_zero_iff,
          Int32.ofInt_int64ToInt]
      refine .computed hMachine .inot rfl fun stack => ?_
      simp [Opcode.computed?, hZero]
  | _ => cases h

/-- A number becomes a float among floats. -/
theorem replaces_widening {ty : Ty} {word : Datum} (hScalar : isScalar ty = true)
    (hValue : isValueOf ty [word] = true) :
    ∃ x, word.float? = some x ∧
      machine.Replaces (Family.float.widening ty) [machine.word word]
        [machine.word (.float x)] := by
  cases ty with
  | int =>
      obtain ⟨value, hWord⟩ := eq_int_of_isValueOf hValue
      cases hWord
      exact ⟨_, rfl, replaces_toFloat hMachine value⟩
  | float =>
      obtain ⟨x, hWord⟩ := eq_float_of_isValueOf hValue
      cases hWord
      exact ⟨x, rfl, .nil _⟩
  | _ => cases hScalar

/-- The code of an operator on known words leaves the word that it folds to. -/
theorem exists_operation {op : BinaryOp} {left right : Ty} {a b result : Datum}
    {first second : Code}
    (hLong : op.isShortCircuit = false) (hLeft : isValueOf left [a] = true)
    (hRight : isValueOf right [b] = true)
    (hTypes : (left ≠ .float ∧ right ≠ .float) ∨ (isScalar left = true ∧ isScalar right = true))
    (h : Datum.fold op a b = some result) (hFirst : machine.Replaces first [] [machine.word a])
    (hSecond : machine.Replaces second [] [machine.word b]) :
    ∃ family mnemonic, operation op left right = .ok (family, mnemonic) ∧
      machine.Replaces (first ++ family.widening left ++ (second ++ family.widening right) ++
        [plain mnemonic]) [] [machine.word result] := by
  have hNoVectors : ¬(left = .vector ∨ right = .vector) := by
    simp [ne_vector_of_isValueOf hLeft, ne_vector_of_isValueOf hRight]
  by_cases hFloat : left = .float ∨ right = .float
  · have hFamily : Family.ofOperands left right = .float := by
      rw [Family.ofOperands, if_neg hNoVectors, if_pos hFloat]
    have hScalars : isScalar left = true ∧ isScalar right = true :=
      hTypes.resolve_left fun hNone => hFloat.elim hNone.1 hNone.2
    obtain ⟨x, hX, hWidenLeft⟩ := replaces_widening hMachine hScalars.1 hLeft
    obtain ⟨y, hY, hWidenRight⟩ := replaces_widening hMachine hScalars.2 hRight
    have hNotBoth : ∀ v w, ¬(a = .int v ∧ b = .int w) := by
      rintro v w ⟨rfl, rfl⟩
      rcases hFloat with rfl | rfl
      · cases hLeft
      · cases hRight
    have hFold : Datum.foldFloat op x y = some result := by
      unfold Datum.fold at h
      split at h
      · exact absurd ⟨rfl, rfl⟩ (hNotBoth _ _)
      · rwa [hX, hY] at h
    obtain ⟨opcode, operation, hOpcode, hOperation, hResult⟩ :=
      @onFloats_of_foldFloat machine _ _ _ _ hFold
    refine ⟨.float, opcode.mnemonic, operation_of_opcode? hFamily hOpcode, ?_⟩
    have hOperands :=
      (hFirst.append hWidenLeft).append
      ((hSecond.append hWidenRight).frame [machine.word (.float x)])
    refine hOperands.append (.onFloats _ _ hMachine hOperation ?_)
    rw [word, word, Word.toFloat_ofFloat, Word.toFloat_ofFloat]
    exact hResult
  · have hFamily : Family.ofOperands left right = .int := by
      rw [Family.ofOperands, if_neg hNoVectors, if_neg hFloat]
    have hFold : ∃ v w, a = .int v ∧ b = .int w ∧
        Datum.foldInt op v.toInt32 w.toInt32 = some result := by
      obtain ⟨hLeftFloat, hRightFloat⟩ := not_or.mp hFloat
      obtain ⟨_, hA, hNoFloat⟩ :=
        eq_single_of_isValueOf hLeftFloat (ne_vector_of_isValueOf hLeft) hLeft
      obtain ⟨_, hB, hNoOther⟩ :=
        eq_single_of_isValueOf hRightFloat (ne_vector_of_isValueOf hRight) hRight
      cases hA
      cases hB
      cases a with
      | int v =>
          cases b with
          | int w => exact ⟨v, w, rfl, rfl, h⟩
          | float y => exact absurd rfl (hNoOther y)
          | _ => cases h
      | float x => exact absurd rfl (hNoFloat x)
      | _ => cases h
    obtain ⟨v, w, rfl, rfl, hFold⟩ := hFold
    obtain ⟨opcode, operation, hOpcode, hOperation, hResult⟩ :=
      @onIntegers_of_foldInt machine _ _ _ _ hLong hFold
    refine ⟨.int, opcode.mnemonic, operation_of_opcode? hFamily hOpcode, ?_⟩
    have hOperands := hFirst.append (hSecond.frame [machine.word (.int v)])
    have hOperator :=
      Replaces.onIntegers (machine.word (.int v)) (machine.word (.int w)) hMachine hOperation
    rw [toInt_word, toInt_word, hResult] at hOperator
    simpa [Family.widening] using hOperands.append hOperator

/-- The code of a conversion of a known word leaves the words that the
conversion folds to. -/
theorem replaces_conversion {sizes : Sizes} {source target : Ty} {word : Datum} {change : Code}
    (hChange : conversion sizes source target = .ok change)
    (hValue : isValueOf source [word] = true) (hFloat : target = .float → isScalar source = true) :
    machine.Replaces change [machine.word word] ((word.convert target).map machine.word) := by
  unfold conversion at hChange
  split at hChange
  · cases hChange
    obtain ⟨value, hWord⟩ := eq_int_of_isValueOf hValue
    cases hWord
    exact replaces_toFloat hMachine value
  · cases hChange
    obtain ⟨x, hWord⟩ := eq_float_of_isValueOf hValue
    cases hWord
    exact replaces_toInteger hMachine x
  · cases hChange
    obtain ⟨x, hWord⟩ := eq_float_of_isValueOf hValue
    cases hWord
    exact replaces_toVector hMachine x
  · cases hChange
    obtain ⟨value, hWord⟩ := eq_int_of_isValueOf hValue
    cases hWord
    exact (replaces_toFloat hMachine value).append (replaces_toVector hMachine _)
  · next hNoFloat hNoInteger hNoVector hNoWide =>
      obtain ⟨rfl, hSame⟩ := unchanged_ok hChange
      rw [convert_eq_self hSame hValue hFloat hNoFloat hNoInteger hNoVector]
      exact .nil _

end Operators
end Machine
end ScriptBackend.Lowering
