import ScriptBackend.Text.Bytes

/-!
Names and the case of ASCII letters. Writing a name in capitals forgets exactly
what the comparison of names forgets, so two names are the same when their
capitals are.
-/
namespace ScriptBackend.Text

theorem toNat_ofNat_of_lt {code : Nat} (h : code < 0xD800) : (Char.ofNat code).toNat = code := by
  rw [Char.ofNat, dif_pos (.inl h)]
  rfl

/-- Moving the characters of a range, read on their codes. -/
theorem toNat_moved {low high c : Char} {code : Nat}
    (h : low.toNat ≤ c.toNat ∧ c.toNat ≤ high.toNat → code < 0xD800) :
    (if low ≤ c && c ≤ high then Char.ofNat code else c).toNat =
      if low.toNat ≤ c.toNat ∧ c.toNat ≤ high.toNat then code else c.toNat := by
  have hInside : (decide (low ≤ c) && decide (c ≤ high)) = true ↔
      low.toNat ≤ c.toNat ∧ c.toNat ≤ high.toNat := by
    rw [Bool.and_eq_true, decide_eq_true_eq, decide_eq_true_eq]
    rfl
  split
  · next hMoved => rw [if_pos (hInside.mp hMoved), toNat_ofNat_of_lt (h (hInside.mp hMoved))]
  · next hStays => rw [if_neg (mt hInside.mpr hStays)]

/-- Upper case moves the 26 small letters of ASCII and no other character. -/
theorem toNat_asciiUpper (c : Char) :
    (asciiUpper c).toNat = if 97 ≤ c.toNat ∧ c.toNat ≤ 122 then c.toNat - 32 else c.toNat :=
  toNat_moved fun (h : 97 ≤ c.toNat ∧ c.toNat ≤ 122) => by omega

/-- Lower case moves the 26 capital letters of ASCII and no other character. -/
theorem toNat_asciiLower (c : Char) :
    (asciiLower c).toNat = if 65 ≤ c.toNat ∧ c.toNat ≤ 90 then c.toNat + 32 else c.toNat :=
  toNat_moved fun (h : 65 ≤ c.toNat ∧ c.toNat ≤ 90) => by omega

theorem asciiUpper_asciiUpper (c : Char) : asciiUpper (asciiUpper c) = asciiUpper c := by
  rw [← Char.toNat_inj]
  simp only [toNat_asciiUpper]
  grind

theorem asciiUpper_asciiLower (c : Char) : asciiUpper (asciiLower c) = asciiUpper c := by
  rw [← Char.toNat_inj]
  simp only [toNat_asciiUpper, toNat_asciiLower]
  grind

theorem asciiLower_asciiUpper (c : Char) : asciiLower (asciiUpper c) = asciiLower c := by
  rw [← Char.toNat_inj]
  simp only [toNat_asciiUpper, toNat_asciiLower]
  grind

theorem upperCased_upperCased (name : String) : upperCased (upperCased name) = upperCased name := by
  apply String.toList_inj.mp
  simp [upperCased, asciiUpper_asciiUpper]

theorem upperCased_lowerCased (name : String) : upperCased (lowerCased name) = upperCased name := by
  apply String.toList_inj.mp
  simp [upperCased, lowerCased, asciiUpper_asciiLower]

theorem lowerCased_upperCased (name : String) : lowerCased (upperCased name) = lowerCased name := by
  apply String.toList_inj.mp
  simp [upperCased, lowerCased, asciiLower_asciiUpper]

/-- Names that differ at most in the case of letters are those with the same
capitals. -/
theorem sameName_iff {first second : String} :
    sameName first second = true ↔ upperCased first = upperCased second := by
  rw [sameName, beq_iff_eq]
  constructor
  · intro h
    rw [← upperCased_lowerCased first, h, upperCased_lowerCased]
  · intro h
    rw [← lowerCased_upperCased first, h, lowerCased_upperCased]

theorem sameName_comm (first second : String) : sameName first second = sameName second first :=
  Bool.beq_comm

end ScriptBackend.Text
