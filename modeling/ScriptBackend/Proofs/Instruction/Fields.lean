import ScriptBackend.Proofs.Instruction.Decoding

/-!
The fields of decoded instructions. What is read from operand bytes fits the
fields that it was read from, and unless a frame has a name, the values say what
the bytes were.
-/
namespace ScriptBackend

/-- The values that the fields of a format hold. -/
inductive OperandFormat.Holds : OperandFormat → OperandValues → Prop where
  | none : Holds .none .none
  | byte (a : UInt8) : Holds .byte (.bytes [a])
  | twoBytes (a b : UInt8) : Holds .twoBytes (.bytes [a, b])
  | threeBytes (a b c : UInt8) : Holds .threeBytes (.bytes [a, b, c])
  | word (value : UInt32) : Holds .word (.word value)
  | float (value : Binary32) : Holds .float (.float value)
  | native {arguments returns index : Nat} (few : arguments < 0x40) (fewer : returns < 4)
      (place : index < 0x10000) : Holds .native (.native arguments returns index)
  | enter {parameters frame : Nat} (few : parameters < 0x100) (room : frame < 0x10000)
      (name : Option String) : Holds .enter (.enter parameters frame name)
  | signed16 {value : Int} (low : -0x8000 ≤ value) (high : value < 0x8000) :
      Holds .signed16 (.signed16 value)
  | unsigned16 {value : Nat} (high : value < 0x10000) : Holds .unsigned16 (.unsigned16 value)
  | relative {distance : Int} (low : -0x8000 ≤ distance) (high : distance < 0x8000) :
      Holds .relative (.relative distance)
  | call {target : Nat} (high : target < 0x1000000) : Holds .call (.call target)
  | unsigned24 {value : Nat} (high : value < 0x1000000) : Holds .unsigned24 (.unsigned24 value)
  | switch {cases : List (UInt32 × Int)} (few : cases.length < 0x100)
      (near : ∀ entry ∈ cases, -0x8000 ≤ entry.2 ∧ entry.2 < 0x8000) : Holds .switch (.switch cases)

namespace OperandValues

def casesEncoded (cases : List (UInt32 × Int)) : List UInt8 :=
  cases.flatMap fun entry => Bytes.littleInt 4 entry.1.toInt32.toInt ++ Bytes.littleInt 2 entry.2

/-- The operand bytes of values, where a frame has no name. -/
def encoded : OperandValues → List UInt8
  | .none => []
  | .bytes values => values
  | .word value => Bytes.littleInt 4 value.toInt32.toInt
  | .float value => Bytes.little 4 value.bits.toNat
  | .native arguments returns index =>
    [UInt8.ofNat (4 * arguments + returns), UInt8.ofNat (index / 256), UInt8.ofNat index]
  | .enter parameters frame _ => UInt8.ofNat parameters :: (Bytes.littleInt 2 frame ++ [0])
  | .signed16 value | .relative value => Bytes.littleInt 2 value
  | .unsigned16 value => Bytes.littleInt 2 value
  | .call value | .unsigned24 value => Bytes.littleInt 3 value
  | .switch cases => UInt8.ofNat cases.length :: casesEncoded cases

/-- Whether a frame has no name. -/
def IsNameless (values : OperandValues) : Prop :=
  ∀ parameters frame name, values = .enter parameters frame name → name = Option.none

section

variable {format : OperandFormat} {bytes : List UInt8} {values : OperandValues}

/-- What is read from bytes has the shape of its format. -/
theorem holds_of_read? (h : read? format bytes = some values) : format.Holds values := by
  have hBound := Bytes.ofLittle_lt bytes
  unfold read? at h
  split at h <;> try cases h
  case h_1 => exact .none
  case h_2 => exact .byte _
  case h_3 => exact .twoBytes _ _
  case h_4 => exact .threeBytes _ _ _
  case h_5 => exact .word _
  case h_6 => exact .float _
  case h_7 counts high low =>
      have hCounts := counts.toNat_lt
      have hHigh := high.toNat_lt
      have hLow := low.toNat_lt
      exact .native (by omega) (by omega) (by omega)
  case h_8 parameters f0 f1 length stored =>
      split at h <;> cases h
      have hFrame := Bytes.ofLittle_lt [f0, f1]
      norm_num at hFrame
      exact .enter parameters.toNat_lt hFrame _
  case h_9 => exact .signed16 (Bytes.signed16_range rfl).1 (Bytes.signed16_range rfl).2
  case h_11 => exact .relative (Bytes.signed16_range rfl).1 (Bytes.signed16_range rfl).2
  case h_14 count entries =>
      obtain ⟨cases, hCases, h⟩ := Option.bind_eq_some_iff.mp h
      split at h <;> cases h
      next hCount => exact .switch (hCount ▸ count.toNat_lt) (range_of_readCases hCases)
  all_goals norm_num at hBound
  case h_10 => exact .unsigned16 hBound
  case h_12 => exact .call hBound
  case h_13 => exact .unsigned24 hBound

/-- The bytes of a word are those of the signed word. -/
theorem littleInt_word {bytes : List UInt8} (h : bytes.length = 4) :
    Bytes.littleInt 4 (UInt32.ofNat (Bytes.ofLittle bytes)).toInt32.toInt = bytes := by
  have hBound := Bytes.ofLittle_lt bytes
  have hBytes := @Bytes.littleInt_of_emod bytes (UInt32.ofNat (Bytes.ofLittle bytes)).toInt32.toInt
  rw [h] at hBound hBytes
  refine hBytes ?_
  have hSigned : (UInt32.ofNat (Bytes.ofLittle bytes)).toInt32.toInt =
      ((UInt32.ofNat (Bytes.ofLittle bytes)).toNat : Int).bmod (2 ^ 32) :=
        BitVec.toInt_eq_toNat_bmod _
  have hWidth : (256 ^ 4 : Nat) = 2 ^ 32 := by norm_num
  rw [hWidth] at hBound ⊢
  rw [hSigned, Int.bmod_emod, UInt32.toNat_ofNat', Nat.mod_eq_of_lt hBound]
  exact_mod_cast Nat.mod_eq_of_lt hBound

/-- Two bytes are restored from the number with a sign that they denote. -/
theorem littleInt_signed16 {bytes : List UInt8} (h : bytes.length = 2) :
    Bytes.littleInt 2 (Bytes.signed16 (Bytes.ofLittle bytes)) = bytes := by
  have hBound := Bytes.ofLittle_lt bytes
  have hBytes := @Bytes.littleInt_of_emod bytes (Bytes.signed16 (Bytes.ofLittle bytes))
  rw [h] at hBound hBytes
  refine hBytes ?_
  unfold Bytes.signed16
  split <;> omega

theorem littleInt_ofLittle (bytes : List UInt8) :
    Bytes.littleInt bytes.length (Bytes.ofLittle bytes) = bytes := by
  have hBound := Bytes.ofLittle_lt bytes
  refine Bytes.littleInt_of_emod ?_
  exact_mod_cast Nat.mod_eq_of_lt hBound

/-- Cases are restored to the bytes that they were read from. -/
theorem casesEncoded_of_readCases {cases : List (UInt32 × Int)} (h : readCases bytes = some cases) :
    casesEncoded cases = bytes := by
  induction bytes using readCases.induct generalizing cases with
  | case1 =>
      cases h
      rfl
  | case2 v0 v1 v2 v3 d0 d1 rest ih =>
      rw [readCases, Option.map_eq_some_iff] at h
      obtain ⟨others, hOthers, rfl⟩ := h
      rw [casesEncoded, List.flatMap_cons, ← casesEncoded, ih hOthers]
      dsimp only
      rw [littleInt_word rfl, littleInt_signed16 rfl]
      rfl
  | case3 bytes hEmpty hEntry =>
      unfold readCases at h
      split at h
      · exact absurd rfl hEmpty
      · exact absurd rfl (hEntry _ _ _ _ _ _ _)
      · cases h

/-- Values say from which bytes they were read, unless a name was cut at a zero
byte. -/
theorem encoded_of_read? (h : read? format bytes = some values) (hName : values.IsNameless) :
    values.encoded = bytes := by
  unfold read? at h
  split at h <;> try cases h
  case h_5 => exact littleInt_word rfl
  case h_6 a b c d =>
      have hBound := Bytes.ofLittle_lt [a, b, c, d]
      have hBits : (UInt32.ofNat (Bytes.ofLittle [a, b, c, d])).toNat =
          Bytes.ofLittle [a, b, c, d] := by
        simp at hBound
        rw [UInt32.toNat_ofNat', Nat.mod_eq_of_lt hBound]
      rw [encoded, hBits]
      exact Bytes.little_ofLittle [a, b, c, d]
  case h_7 counts high low =>
      have hCounts := counts.toNat_lt
      have hHigh := high.toNat_lt
      have hLow := low.toNat_lt
      have hFirst : UInt8.ofNat (4 * (counts.toNat / 4) + counts.toNat % 4) = counts := by
        rw [Nat.div_add_mod, UInt8.ofNat_toNat]
      have hSecond : UInt8.ofNat ((256 * high.toNat + low.toNat) / 256) = high := by
        rw [← UInt8.toNat_inj, UInt8.toNat_ofNat']
        omega
      have hThird : UInt8.ofNat (256 * high.toNat + low.toNat) = low := by
        rw [← UInt8.toNat_inj, UInt8.toNat_ofNat']
        omega
      rw [encoded, hFirst, hSecond, hThird]
  case h_8 parameters f0 f1 length stored =>
      split at h <;> cases h
      next hLength =>
        have hNone := hName _ _ _ rfl
        unfold frameName at hNone
        split at hNone
        · next hEmpty =>
            rw [List.isEmpty_iff.mp hEmpty] at hLength ⊢
            have hZero : length = 0 := UInt8.toNat_inj.mp hLength.symm
            rw [encoded, UInt8.ofNat_toNat, hZero]
            exact congrArg (parameters :: · ++ [0]) (littleInt_ofLittle [f0, f1])
        · cases hNone
  case h_9 => exact littleInt_signed16 rfl
  case h_10 a b => exact littleInt_ofLittle [a, b]
  case h_11 => exact littleInt_signed16 rfl
  case h_12 a b c => exact littleInt_ofLittle [a, b, c]
  case h_13 a b c => exact littleInt_ofLittle [a, b, c]
  case h_14 count entries =>
      obtain ⟨cases, hCases, h⟩ := Option.bind_eq_some_iff.mp h
      split at h <;> cases h
      next hCount => rw [encoded, casesEncoded_of_readCases hCases, hCount, UInt8.ofNat_toNat]
  all_goals rfl

end

end OperandValues

/-- An instruction whose operands are whole has the target of a jump exactly if
it is one of the jumps. -/
theorem Instruction.isSome_jumpTarget? {instruction : Instruction} {values : OperandValues}
    (h : instruction.operands? = some values) :
    instruction.jumpTarget?.isSome = instruction.opcode.isJump := by
  have hHolds := OperandValues.holds_of_read? h
  rw [jumpTarget?, h, Opcode.isJump]
  generalize instruction.opcode.format = format at hHolds
  cases hHolds <;> rfl

end ScriptBackend
