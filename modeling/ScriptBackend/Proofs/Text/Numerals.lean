import ScriptBackend.Text.Digits
import ScriptBackend.Text.Numeric

/-!
Numbers in digits read back: in decimal, and in hexadecimal of any width.
-/
namespace ScriptBackend.Text

/-- What holds of a few characters is checked on their list, not on all
characters there are. -/
theorem forall_mem_of_all {p : Char → Prop} [DecidablePred p] {chars : List Char}
    (h : chars.all (fun c => decide (p c)) = true) : ∀ c ∈ chars, p c := by
  simpa using h

/-! Decimal -/

theorem isDigit_of_mem_toDigits {c : Char} {n : Nat} (h : c ∈ Nat.toDigits 10 n) :
    isDigit c = true := by
  have hDigit := Nat.isDigit_of_mem_toDigits (by decide) (by decide) h
  simpa [Char.isDigit, isDigit, Char.le_def] using hDigit

/-- The digits of a number denote it. -/
theorem ofDecimal_toDigits (n : Nat) : ofDecimal (Nat.toDigits 10 n) = n := by
  rw [ofDecimal, ofDigits_eq_foldl]
  have hValue : Nat.ofDigitChars 10 (Nat.toDigits 10 n) 0 = _ := Nat.ofDigitChars_eq_foldl
  rw [Nat.ofDigitChars_ten_toDigits] at hValue
  exact hValue.symm

/-! Hexadecimal -/

/-- The digit of a value below sixteen, in upper case. -/
theorem hexDigit_spec : ∀ d < 16, isHexDigit (Nat.digitChar d).toUpper = true ∧
    hexDigitValue (Nat.digitChar d).toUpper = d := by
  decide

theorem toDigits_hex_succ {n : Nat} (h : 16 ≤ n) :
    Nat.toDigits 16 n = Nat.toDigits 16 (n / 16) ++ [Nat.digitChar (n % 16)] :=
  Nat.toDigits_of_base_le (by decide) h

theorem isHexDigit_of_mem_toDigits {c : Char} (n : Nat)
    (h : c ∈ (Nat.toDigits 16 n).map Char.toUpper) :
    isHexDigit c = true := by
  induction n using Nat.strongRecOn with
  | ind n ih =>
      by_cases hSmall : n < 16
      · rw [Nat.toDigits_of_lt_base hSmall, List.map_singleton, List.mem_singleton] at h
        rw [h]
        exact (hexDigit_spec n hSmall).1
      · rw [toDigits_hex_succ (Nat.le_of_not_lt hSmall), List.map_append, List.mem_append] at h
        rcases h with hUpper | hLast
        · exact ih (n / 16) (by omega) hUpper
        · rw [List.map_singleton, List.mem_singleton] at hLast
          rw [hLast]
          exact (hexDigit_spec _ (Nat.mod_lt _ (by decide))).1

/-- Digits of upper case denote their number, whatever they are appended to. -/
theorem foldl_hexDigits (n : Nat) :
    ((Nat.toDigits 16 n).map Char.toUpper).foldl
    (fun value c => 16 * value + hexDigitValue c) 0 = n := by
  induction n using Nat.strongRecOn with
  | ind n ih =>
      by_cases hSmall : n < 16
      · rw [Nat.toDigits_of_lt_base hSmall]
        simp [(hexDigit_spec n hSmall).2]
      · rw [toDigits_hex_succ (Nat.le_of_not_lt hSmall), List.map_append, List.foldl_append,
          ih (n / 16) (by omega)]
        simp [(hexDigit_spec (n % 16) (Nat.mod_lt _ (by decide))).2, Nat.div_add_mod]

theorem foldl_zeros (count : Nat) :
    (List.replicate count '0').foldl (fun value c => 16 * value + hexDigitValue c) 0 = 0 := by
  induction count with
  | zero => rfl
  | succ count ih =>
      rw [List.replicate_succ', List.foldl_append, ih]
      rfl

theorem toList_hexUpper (width n : Nat) :
    (hexUpper width n).toList = zeroFilled width ((Nat.toDigits 16 n).map Char.toUpper) :=
  String.toList_ofList

/-- The digits of a number denote it, filled up to any width. -/
theorem ofHex_hexUpper (width n : Nat) : ofHex (hexUpper width n).toList = n := by
  rw [toList_hexUpper, zeroFilled, ofHex, ofDigits_eq_foldl, List.foldl_append, foldl_zeros,
    foldl_hexDigits]

theorem isHexDigit_of_mem_hexUpper {c : Char} {width n : Nat} (h : c ∈ (hexUpper width n).toList) :
    isHexDigit c = true := by
  rw [toList_hexUpper, zeroFilled, List.mem_append] at h
  rcases h with hZero | hDigit
  · rw [List.eq_of_mem_replicate hZero]
    decide
  · exact isHexDigit_of_mem_toDigits n hDigit

theorem hexUpper_ne_empty (width n : Nat) : hexUpper width n ≠ "" := by
  intro h
  have hList := congrArg String.toList h
  rw [toList_hexUpper, zeroFilled] at hList
  simp [Nat.toDigits_ne_nil] at hList

end ScriptBackend.Text
