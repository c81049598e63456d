import ScriptBackend.Text.Bytes

/-!
Text that was written as UTF-8 is read back unchanged. Reading is defined on all
bytes, so the statement is about the bytes of well-formed text in front of any
others.
-/
namespace ScriptBackend.Text

theorem toNat_byte {n : Nat} (h : n < 256) : (UInt8.ofNat n).toNat = n := by
  rw [UInt8.toNat_ofNat', Nat.mod_eq_of_lt h]

/-- The sequences that a leading byte begins, by the number that the byte is. -/
theorem following_byte {n : Nat} (h : n < 256) :
    following (UInt8.ofNat n) =
      if 0xC2 ≤ n ∧ n ≤ 0xDF then some (1, 0x80, 0xBF)
      else if n = 0xE0 then some (2, 0xA0, 0xBF)
      else if n = 0xED then some (2, 0x80, 0x9F)
      else if 0xE1 ≤ n ∧ n ≤ 0xEF then some (2, 0x80, 0xBF)
      else if n = 0xF0 then some (3, 0x90, 0xBF)
      else if 0xF1 ≤ n ∧ n ≤ 0xF3 then some (3, 0x80, 0xBF)
      else if n = 0xF4 then some (3, 0x80, 0x8F)
      else none := by
  simp only [following, UInt8.le_iff_toNat_le, beq_iff_eq, ← UInt8.toNat_inj, toNat_byte h,
    Bool.and_eq_true, decide_eq_true_eq, UInt8.reduceToNat]

/-- A continuation byte within its range is taken, and the one after it may be
any. -/
theorem continuation_byte {low high : UInt8} {n count : Nat} {rest : List UInt8} (h : n < 256)
    (hLow : low.toNat ≤ n) (hHigh : n ≤ high.toNat) :
    continuation low high (count + 1) (UInt8.ofNat n :: rest) =
      UInt8.ofNat n :: continuation 0x80 0xBF count rest := by
  have hTaken : low ≤ UInt8.ofNat n ∧ UInt8.ofNat n ≤ high := by
    rw [UInt8.le_iff_toNat_le, UInt8.le_iff_toNat_le, toNat_byte h]
    exact ⟨hLow, hHigh⟩
  simp [continuation, hTaken]

@[simp] theorem continuation_zero (low high : UInt8) (rest : List UInt8) :
    continuation low high 0 rest = [] := by
  cases rest <;> rfl

theorem firstCharacter_one {n : Nat} (h : n < 0x80) (rest : List UInt8) :
    firstCharacter (UInt8.ofNat n) rest = (Char.ofNat n, 0) := by
  have hLead : UInt8.ofNat n < 0x80 := by
    rw [UInt8.lt_iff_toNat_lt, toNat_byte (by omega)]
    exact h
  rw [firstCharacter, if_pos hLead, toNat_byte (by omega)]

/-- A leading byte with its whole sequence gives the character whose bits they
hold. -/
theorem firstCharacter_sequence {lead count value : Nat} {low high : UInt8}
    {rest tail : List UInt8} (hLead : 0x80 ≤ lead) (hByte : lead < 256)
    (hFollowing : following (UInt8.ofNat lead) = some (count, low, high))
    (hTail : continuation low high count rest = tail) (hCount : tail.length = count)
    (hValue : tail.foldl (fun value byte => 64 * value + byte.toNat % 64)
      (lead % (1 <<< (6 - count))) = value) :
    firstCharacter (UInt8.ofNat lead) rest = (Char.ofNat value, count) := by
  have hLarge : ¬ UInt8.ofNat lead < 0x80 := by
    rw [UInt8.lt_iff_toNat_lt, toNat_byte hByte, Nat.not_lt]
    exact hLead
  rw [firstCharacter, if_neg hLarge, hFollowing]
  simp only [hTail, hCount, toNat_byte hByte, hValue, if_true]

theorem firstCharacter_two {n : Nat} (h : 0x80 ≤ n) (hn : n < 0x800) (rest : List UInt8) :
    firstCharacter (UInt8.ofNat (n / 64 + 0xC0)) (UInt8.ofNat (n % 64 + 0x80) :: rest) =
      (Char.ofNat n, 1) := by
  have hFollowing := following_byte (show n / 64 + 0xC0 < 256 by omega)
  rw [if_pos (by omega)] at hFollowing
  apply firstCharacter_sequence (by omega) (by omega) hFollowing
  · rw [continuation_byte (by omega) (by simp) (by simp; omega), continuation_zero]
  · rfl
  · simp only [List.foldl_cons, List.foldl_nil, Nat.reduceSub, Nat.reduceShiftLeft,
      toNat_byte (show n % 64 + 128 < 256 by omega)]
    omega

/-- The range of the second byte excludes overlong forms and surrogates, which
no character has. -/
theorem firstCharacter_three {n : Nat} (h : 0x800 ≤ n) (hn : n < 0x10000)
    (hValid : n < 0xD800 ∨ 0xDFFF < n) (rest : List UInt8) :
    firstCharacter (UInt8.ofNat (n / 4096 + 0xE0))
        (UInt8.ofNat (n / 64 % 64 + 0x80) :: UInt8.ofNat (n % 64 + 0x80) :: rest) =
      (Char.ofNat n, 2) := by
  have hValue : [UInt8.ofNat (n / 64 % 64 + 0x80), UInt8.ofNat (n % 64 + 0x80)].foldl
      (fun value byte => 64 * value + byte.toNat % 64)
      ((n / 4096 + 0xE0) % (1 <<< (6 - 2))) = n := by
    simp only [List.foldl_cons, List.foldl_nil, Nat.reduceSub, Nat.reduceShiftLeft,
      toNat_byte (show n % 64 + 128 < 256 by omega),
      toNat_byte (show n / 64 % 64 + 128 < 256 by omega)]
    omega
  have hTail : ∀ low high : UInt8, low.toNat ≤ n / 64 % 64 + 0x80 →
      n / 64 % 64 + 0x80 ≤ high.toNat → continuation low high 2
        (UInt8.ofNat (n / 64 % 64 + 0x80) :: UInt8.ofNat (n % 64 + 0x80) :: rest) =
      [UInt8.ofNat (n / 64 % 64 + 0x80), UInt8.ofNat (n % 64 + 0x80)] := by
    intro low high hLow hHigh
    rw [continuation_byte (by omega) hLow hHigh,
      continuation_byte (by omega) (by simp) (by simp; omega), continuation_zero]
  have hFollowing := following_byte (show n / 4096 + 0xE0 < 256 by omega)
  rw [if_neg (by omega)] at hFollowing
  split at hFollowing
  · exact firstCharacter_sequence (by omega) (by omega) hFollowing
      (hTail _ _ (by simp; omega) (by simp; omega)) rfl hValue
  · split at hFollowing
    · exact firstCharacter_sequence (by omega) (by omega) hFollowing
        (hTail _ _ (by simp) (by simp; omega)) rfl hValue
    · rw [if_pos (by omega)] at hFollowing
      exact firstCharacter_sequence (by omega) (by omega) hFollowing
        (hTail _ _ (by simp) (by simp; omega)) rfl hValue

theorem firstCharacter_four {n : Nat} (h : 0x10000 ≤ n) (hn : n < 0x110000) (rest : List UInt8) :
    firstCharacter (UInt8.ofNat (n / 262144 + 0xF0))
        (UInt8.ofNat (n / 4096 % 64 + 0x80) :: UInt8.ofNat (n / 64 % 64 + 0x80) ::
          UInt8.ofNat (n % 64 + 0x80) :: rest) =
      (Char.ofNat n, 3) := by
  have hValue : [UInt8.ofNat (n / 4096 % 64 + 0x80), UInt8.ofNat (n / 64 % 64 + 0x80),
      UInt8.ofNat (n % 64 + 0x80)].foldl (fun value byte => 64 * value + byte.toNat % 64)
      ((n / 262144 + 0xF0) % (1 <<< (6 - 3))) = n := by
    simp only [List.foldl_cons, List.foldl_nil, Nat.reduceSub, Nat.reduceShiftLeft,
      toNat_byte (show n % 64 + 128 < 256 by omega),
      toNat_byte (show n / 64 % 64 + 128 < 256 by omega),
      toNat_byte (show n / 4096 % 64 + 128 < 256 by omega)]
    omega
  have hTail : ∀ low high : UInt8, low.toNat ≤ n / 4096 % 64 + 0x80 →
      n / 4096 % 64 + 0x80 ≤ high.toNat →
      continuation low high 3 (UInt8.ofNat (n / 4096 % 64 + 0x80) ::
        UInt8.ofNat (n / 64 % 64 + 0x80) :: UInt8.ofNat (n % 64 + 0x80) :: rest) =
      [UInt8.ofNat (n / 4096 % 64 + 0x80), UInt8.ofNat (n / 64 % 64 + 0x80),
        UInt8.ofNat (n % 64 + 0x80)] := by
    intro low high hLow hHigh
    rw [continuation_byte (by omega) hLow hHigh,
      continuation_byte (by omega) (by simp) (by simp; omega),
      continuation_byte (by omega) (by simp) (by simp; omega), continuation_zero]
  have hFollowing := following_byte (show n / 262144 + 0xF0 < 256 by omega)
  rw [if_neg (by omega), if_neg (by omega), if_neg (by omega), if_neg (by omega)] at hFollowing
  split at hFollowing
  · exact firstCharacter_sequence (by omega) (by omega) hFollowing
      (hTail _ _ (by simp; omega) (by simp; omega)) rfl hValue
  · split at hFollowing
    · exact firstCharacter_sequence (by omega) (by omega) hFollowing
        (hTail _ _ (by simp) (by simp; omega)) rfl hValue
    · rw [if_pos (by omega)] at hFollowing
      exact firstCharacter_sequence (by omega) (by omega) hFollowing
        (hTail _ _ (by simp) (by simp; omega)) rfl hValue

/-- The bytes of a character in front of any others are read as that character. -/
theorem ofUtf8_character (c : Char) (rest : List UInt8) :
    ofUtf8 (String.utf8EncodeChar c ++ rest) = c :: ofUtf8 rest := by
  have hValid : c.val.toNat < 0xD800 ∨ 0xDFFF < c.val.toNat ∧ c.val.toNat < 0x110000 := c.valid
  have hChar : Char.ofNat c.val.toNat = c := Char.ofNat_toNat c
  rw [String.utf8EncodeChar]
  generalize c.val.toNat = n at hValid hChar ⊢
  by_cases h1 : n ≤ 0x7F
  · rw [if_pos h1, List.singleton_append, ofUtf8, firstCharacter_one (by omega), hChar]
    rfl
  · rw [if_neg h1]
    by_cases h2 : n ≤ 0x7FF
    · rw [if_pos h2, Nat.mod_eq_of_lt (show n / 64 < 0x20 by omega), List.cons_append,
        List.singleton_append, ofUtf8, firstCharacter_two (by omega) (by omega), hChar]
      rfl
    · rw [if_neg h2]
      by_cases h3 : n ≤ 0xFFFF
      · rw [if_pos h3, Nat.mod_eq_of_lt (show n / 4096 < 0x10 by omega), List.cons_append,
          List.cons_append, List.singleton_append, ofUtf8,
          firstCharacter_three (by omega) (by omega) (by omega), hChar]
        rfl
      · rw [if_neg h3, Nat.mod_eq_of_lt (show n / 262144 < 8 by omega), List.cons_append,
          List.cons_append, List.cons_append, List.singleton_append, ofUtf8,
          firstCharacter_four (by omega) (by omega), hChar]
        rfl

/-- Text that was written as UTF-8 is read back unchanged. -/
theorem ofUtf8_utf8 (text : String) : ofUtf8 (utf8 text) = text.toList := by
  have h : ∀ cs : List Char, ofUtf8 (cs.flatMap String.utf8EncodeChar) = cs := by
    intro cs
    induction cs with
    | nil => simp [ofUtf8]
    | cons c cs ih => rw [List.flatMap_cons, ofUtf8_character, ih]
  exact h text.toList

theorem zero_mem_utf8EncodeChar {c : Char} (h : 0 ∈ String.utf8EncodeChar c) : c = '\x00' := by
  have hChar : Char.ofNat c.val.toNat = c := Char.ofNat_toNat c
  rw [String.utf8EncodeChar] at h
  generalize c.val.toNat = n at hChar h
  have hZero : ∀ m < 256, 0 = UInt8.ofNat m → m = 0 := by
    intro m hm hByte
    have hNat := congrArg UInt8.toNat hByte
    rw [toNat_byte hm] at hNat
    exact hNat.symm
  have hFirst : n ≤ 0x7F ∧ 0 = UInt8.ofNat n := by
    split at h
    · next hn => exact ⟨hn, by simpa using h⟩
    · split at h
      · simp only [List.mem_cons, List.not_mem_nil, or_false] at h
        rcases h with h | h <;> exact absurd (hZero _ (by omega) h) (by omega)
      · split at h
        · simp only [List.mem_cons, List.not_mem_nil, or_false] at h
          rcases h with h | h | h <;> exact absurd (hZero _ (by omega) h) (by omega)
        · simp only [List.mem_cons, List.not_mem_nil, or_false] at h
          rcases h with h | h | h | h <;> exact absurd (hZero _ (by omega) h) (by omega)
  rw [← hChar, hZero n (by omega) hFirst.2]

/-- A zero byte stands for a zero character only. -/
theorem zero_notMem_utf8 {text : String} (h : '\x00' ∉ text.toList) : 0 ∉ utf8 text := by
  intro hZero
  obtain ⟨c, hc, hByte⟩ := List.mem_flatMap.mp hZero
  exact h (zero_mem_utf8EncodeChar hByte ▸ hc)

theorem length_utf8 (text : String) : (utf8 text).length = text.utf8ByteSize := by
  rw [String.utf8ByteSize, utf8, ← String.utf8Encode_toList]
  simp [List.utf8Encode]

end ScriptBackend.Text
