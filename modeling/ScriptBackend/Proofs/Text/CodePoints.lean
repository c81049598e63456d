import ScriptBackend.Text.Blank
import ScriptBackend.Text.Numeric

/-!
Which characters are in a set of code points. The bisection finds how many
changes are at or below a code point, if these are in front of all others.
-/
namespace ScriptBackend.Text

namespace CodePointSet

variable {set : CodePointSet} {point count low high : Nat} {c : Char}

/-- The changes at or below a code point are those in front of a position. -/
structure Splits (set : CodePointSet) (point count : Nat) : Prop where
  below : ∀ change ∈ set.changes.toList.take count, change ≤ point
  above : ∀ change ∈ set.changes.toList.drop count, point < change

theorem Splits.le_of_lt (h : set.Splits point count) {i : Nat} (hi : i < set.changes.size)
    (hCount : i < count) : set.changes.getD i 0 ≤ point := by
  refine h.below _ (List.mem_take_iff_getElem.mpr ⟨i, by simp; omega, ?_⟩)
  simp [Array.getD_eq_getD_getElem?, hi]

theorem Splits.lt_of_le (h : set.Splits point count) {i : Nat} (hi : i < set.changes.size)
    (hCount : count ≤ i) : point < set.changes.getD i 0 := by
  refine h.above _ (List.mem_drop_iff_getElem.mpr ⟨i - count, by simp; omega, ?_⟩)
  simp [Array.getD_eq_getD_getElem?, hi, Nat.add_sub_cancel' hCount]

/-- The bisection finds the position, if it is in its range. -/
theorem Splits.changesUpTo_eq (h : set.Splits point count) (hLow : low ≤ count)
    (hHigh : count ≤ high)
    (hSize : high ≤ set.changes.size) : set.changesUpTo point low high = count := by
  fun_induction changesUpTo set point low high with
  | case1 low high hRange middle hBelow ih =>
      refine ih (Nat.lt_of_not_le fun hCount => ?_) hHigh hSize
      have hAbove := h.lt_of_le (by omega) hCount
      omega
  | case2 low high hRange middle hAbove ih =>
      exact ih hLow (Nat.le_of_not_lt fun hCount =>
        hAbove (h.le_of_lt (by omega) hCount)) (by omega)
  | case3 low high hRange => omega

/-- A character belongs to the set when an odd number of changes lies at it or
before it. -/
theorem Splits.contains_eq (h : set.Splits c.toNat count) (hSize : count ≤ set.changes.size) :
    set.contains c = (count % 2 == 1) := by
  rw [contains, h.changesUpTo_eq (Nat.zero_le _) hSize (Nat.le_refl _)]

/-- Whether the set changes nowhere behind the beginning of a range of code
points, up to which there are so many changes. -/
def isRange (set : CodePointSet) (first limit count : Nat) : Bool :=
  decide (count ≤ set.changes.size) &&
    (set.changes.toList.take count).all (fun change => change ≤ first) &&
    (set.changes.toList.drop count).all fun change => limit ≤ change

/-- Whether the characters of a range are in the set. -/
theorem contains_of_isRange {first limit : Nat} (h : set.isRange first limit count = true)
    (hFirst : first ≤ c.toNat) (hLimit : c.toNat < limit) : set.contains c = (count % 2 == 1) := by
  simp only [isRange, Bool.and_eq_true, List.all_eq_true, decide_eq_true_eq] at h
  obtain ⟨⟨hSize, hBelow⟩, hAbove⟩ := h
  have hSplits : set.Splits c.toNat count :=
    ⟨fun change hChange => Nat.le_trans (hBelow change hChange) hFirst,
      fun change hChange => Nat.lt_of_lt_of_le hLimit (hAbove change hChange)⟩
  exact hSplits.contains_eq hSize

end CodePointSet

/-- The letters begin with the capital and the small ones of ASCII. -/
theorem isRange_alphabetic :
    alphabetic.isRange 0 0x41 0 = true ∧ alphabetic.isRange 0x41 0x5B 1 = true ∧
    alphabetic.isRange 0x61 0x7B 3 = true := by
  decide +kernel

/-- No character before the upper-case letters is a letter. -/
theorem isAlphabetic_eq_false {c : Char} (h : c.toNat < 0x41) : isAlphabetic c = false :=
  CodePointSet.contains_of_isRange isRange_alphabetic.1 (Nat.zero_le _) h

theorem isAlphabetic_upper {c : Char} (hLow : 0x41 ≤ c.toNat) (hHigh : c.toNat < 0x5B) :
    isAlphabetic c = true :=
  CodePointSet.contains_of_isRange isRange_alphabetic.2.1 hLow hHigh

theorem isAlphabetic_lower {c : Char} (hLow : 0x61 ≤ c.toNat) (hHigh : c.toNat < 0x7B) :
    isAlphabetic c = true :=
  CodePointSet.contains_of_isRange isRange_alphabetic.2.2 hLow hHigh

/-- The numbers begin with the ten digits. -/
theorem isRange_numeric : numeric.isRange 0 0x30 0 = true ∧ numeric.isRange 0x30 0x3A 1 = true ∧
    numeric.isRange 0x3A 0x3B 2 = true := by
  decide +kernel

theorem numeric_eq_false {c : Char} (h : c.toNat < 0x30) : numeric.contains c = false :=
  CodePointSet.contains_of_isRange isRange_numeric.1 (Nat.zero_le _) h

theorem numeric_colon : numeric.contains ':' = false :=
  CodePointSet.contains_of_isRange isRange_numeric.2.2 (Nat.le_refl _) (Nat.lt_succ_self _)

/-- The ten digits are numbers. -/
theorem numeric_digit {c : Char} (hLow : 0x30 ≤ c.toNat) (hHigh : c.toNat < 0x3A) :
    numeric.contains c = true :=
  CodePointSet.contains_of_isRange isRange_numeric.2.1 hLow hHigh

theorem isBlank_space : isBlank ' ' = true :=
  CodePointSet.contains_of_isRange (by decide : blank.isRange 0x20 0x21 3 = true) (Nat.le_refl _)
    (Nat.lt_succ_self _)

theorem isBlank_return : isBlank '\r' = true :=
  CodePointSet.contains_of_isRange (by decide : blank.isRange 0xD 0xE 1 = true) (Nat.le_refl _)
    (Nat.lt_succ_self _)

end ScriptBackend.Text
