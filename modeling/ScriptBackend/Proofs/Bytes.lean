import Mathlib.Tactic.NormNum
import ScriptBackend.Bytes

/-!
Little-endian bytes give their number back, as far as the width holds it.
-/
namespace ScriptBackend.Bytes

@[simp] theorem length_little (count n : Nat) : (little count n).length = count := by
  induction count generalizing n with
  | zero => rfl
  | succ count ih => simp [little, ih]

@[simp] theorem length_littleInt (count : Nat) (n : Int) : (littleInt count n).length = count :=
  length_little _ _

/-- Bytes denote the number again, as far as they reach. -/
theorem ofLittle_little (count n : Nat) : ofLittle (little count n) = n % 256 ^ count := by
  induction count generalizing n with
  | zero => simp [little, ofLittle, Nat.mod_one]
  | succ count ih =>
      have hPow : 256 ^ (count + 1) = 256 * 256 ^ count := Nat.pow_succ'
      rw [little, ofLittle, ih, UInt8.toNat_ofNat', hPow, Nat.mod_mul]

theorem ofLittle_lt (bytes : List UInt8) : ofLittle bytes < 256 ^ bytes.length := by
  induction bytes with
  | nil => simp [ofLittle]
  | cons byte rest ih =>
      have hByte := byte.toNat_lt
      rw [ofLittle, List.length_cons, Nat.pow_succ']
      omega

/-- Bytes are those of the number that they denote. -/
theorem little_ofLittle (bytes : List UInt8) : little bytes.length (ofLittle bytes) = bytes := by
  induction bytes with
  | nil => rfl
  | cons byte rest ih =>
      have hByte := byte.toNat_lt
      have hLow : UInt8.ofNat (byte.toNat + 256 * ofLittle rest) = byte := by
        rw [← UInt8.toNat_inj, UInt8.toNat_ofNat']
        omega
      have hHigh : (byte.toNat + 256 * ofLittle rest) / 256 = ofLittle rest := by omega
      rw [List.length_cons, ofLittle, little, hLow, hHigh, ih]

/-- Bytes are those of every integer that is the number they denote, modulo
their width. -/
theorem littleInt_of_emod {bytes : List UInt8} {n : Int}
    (h : n % (256 ^ bytes.length : Nat) = ofLittle bytes) :
    littleInt bytes.length n = bytes := by
  have hWidth : (1 <<< (8 * bytes.length) : Nat) = 256 ^ bytes.length := by
    rw [Nat.shiftLeft_eq, Nat.one_mul, Nat.pow_mul]
  rw [littleInt, hWidth, h, Int.toNat_natCast, little_ofLittle]

/-- Bytes of an integer denote the integer modulo their width. -/
theorem ofLittle_littleInt (count : Nat) (n : Int) :
    (ofLittle (littleInt count n) : Int) = n % (256 ^ count : Nat) := by
  have hWidth : (1 <<< (8 * count) : Nat) = 256 ^ count := by
    rw [Nat.shiftLeft_eq, Nat.one_mul, Nat.pow_mul]
  have hPos : (0 : Int) < (256 ^ count : Nat) := by
    exact_mod_cast Nat.pow_pos (by decide : 0 < 256)
  have hLower := Int.emod_nonneg n (ne_of_gt hPos)
  have hUpper := Int.emod_lt_of_pos n hPos
  rw [littleInt, ofLittle_little, hWidth, Nat.mod_eq_of_lt (by omega)]
  omega

/-- An integer of 16 signed bits survives its two bytes. -/
theorem signed16_littleInt {n : Int} (hLower : -0x8000 ≤ n) (hUpper : n < 0x8000) :
    signed16 (ofLittle (littleInt 2 n)) = n := by
  have h := ofLittle_littleInt 2 n
  norm_num at h
  unfold signed16
  split <;> omega

/-- A number that fits survives its bytes. -/
theorem ofLittle_littleInt_of_lt {count : Nat} {n : Int} (hLower : 0 ≤ n)
    (hUpper : n < (256 ^ count : Nat)) : (ofLittle (littleInt count n) : Int) = n := by
  rw [ofLittle_littleInt, Int.emod_eq_of_lt hLower hUpper]

/-- Two bytes denote a number of 16 signed bits. -/
theorem signed16_range {bytes : List UInt8} (h : bytes.length = 2) :
    -0x8000 ≤ signed16 (ofLittle bytes) ∧ signed16 (ofLittle bytes) < 0x8000 := by
  have hBound := ofLittle_lt bytes
  rw [h] at hBound
  unfold signed16
  split <;> omega

end ScriptBackend.Bytes
