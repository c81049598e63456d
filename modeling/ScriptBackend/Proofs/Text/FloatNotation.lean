import ScriptBackend.Binary32.Decimal
import ScriptBackend.Proofs.Text.Numerals

/-!
The parts of the text of a number: its sign, its digits with a point among or
beside them, and its exponent.
-/
namespace ScriptBackend.Binary32

open ScriptBackend.Text

/-- Digits and points. -/
def IsMantissa (text : List Char) : Prop :=
  ∀ c ∈ text, isDigit c = true ∨ c = '.'

/-- No exponent, or the mark of one with an optional sign and digits. -/
inductive IsExponent : List Char → Prop where
  | none : IsExponent []
  | plain {digits : List Char} (digits_eq : ∀ c ∈ digits, isDigit c = true) :
      IsExponent ('e' :: digits)
  | negative {digits : List Char} (digits_eq : ∀ c ∈ digits, isDigit c = true) :
      IsExponent ('e' :: '-' :: digits)

/-- A number from its first digit on, with a point or an exponent behind it. -/
structure IsDecimal (first : Char) (mantissa exponent : List Char) : Prop where
  starts : isDigit first = true
  digits : IsMantissa mantissa
  ends : IsExponent exponent
  marked : '.' ∈ mantissa ∨ exponent ≠ []

section Layouts

variable {digits : List Char} {point : Int}

theorem isDigit_of_mem_zeros {count : Nat} {c : Char} (h : c ∈ List.replicate count '0') :
    isDigit c = true := by
  rw [List.eq_of_mem_replicate h]
  decide

theorem exists_positional (hDigits : ∀ c ∈ digits, isDigit c = true) :
    ∃ first mantissa, positional digits point = first :: mantissa ∧
      IsDecimal first mantissa [] := by
  unfold positional
  split
  · refine ⟨'0', _, rfl, by decide, ?_, .none, .inl (by simp)⟩
    simp only [IsMantissa, List.mem_cons, List.mem_append]
    rintro c (rfl | hZero | hDigit)
    · exact .inr rfl
    · exact .inl (isDigit_of_mem_zeros hZero)
    · exact .inl (hDigits c hDigit)
  · next hPoint =>
      have hWhole : ∀ c ∈ digits.take point.toNat ++
          List.replicate (point.toNat - digits.length) '0', isDigit c = true := by
        intro c hc
        rcases List.mem_append.mp hc with hDigit | hZero
        · exact hDigits c (List.mem_of_mem_take hDigit)
        · exact isDigit_of_mem_zeros hZero
      have hNonempty :
          digits.take point.toNat ++ List.replicate (point.toNat - digits.length) '0' ≠ [] := by
        refine List.ne_nil_of_length_pos ?_
        simp
        omega
      have hFraction : ∀ c ∈ (if (digits.drop point.toNat).isEmpty then ['0']
          else digits.drop point.toNat), isDigit c = true := by
        intro c hc
        split at hc
        · exact @isDigit_of_mem_zeros 1 c hc
        · exact hDigits c (List.mem_of_mem_drop hc)
      obtain ⟨first, more, hText⟩ := List.exists_cons_of_ne_nil hNonempty
      dsimp only
      rw [hText] at hWhole ⊢
      rw [List.forall_mem_cons] at hWhole
      refine ⟨first, more ++ '.' :: _, rfl, hWhole.1, ?_, .none, .inl (by simp)⟩
      simp only [IsMantissa, List.mem_append, List.mem_cons]
      rintro c (hMore | rfl | hLast)
      · exact .inl (hWhole.2 c hMore)
      · exact .inr rfl
      · exact .inl (hFraction c hLast)

theorem isExponent_signedDecimal (value : Int) :
    IsExponent ('e' :: (signedDecimal value).toList) := by
  cases value with
  | ofNat n =>
      rw [signedDecimal, decimal, String.toList_ofList]
      exact .plain fun c => isDigit_of_mem_toDigits
  | negSucc n =>
      have hText : (signedDecimal (.negSucc n)).toList = '-' :: Nat.toDigits 10 (n + 1) := by
        simp [signedDecimal, decimal]
      rw [hText]
      exact .negative fun c => isDigit_of_mem_toDigits

theorem exists_scientific (hDigits : ∀ c ∈ digits, isDigit c = true) (hSome : digits ≠ []) :
    ∃ first mantissa exponent, scientific digits point = first :: (mantissa ++ exponent) ∧
      IsDecimal first mantissa exponent := by
  obtain ⟨first, more, rfl⟩ := List.exists_cons_of_ne_nil hSome
  rw [List.forall_mem_cons] at hDigits
  refine ⟨first, if more.isEmpty then [] else '.' :: more,
    'e' :: (signedDecimal (point - 1)).toList, ?_, hDigits.1, ?_,
    isExponent_signedDecimal _, .inr (by simp)⟩
  · simp [scientific]
  · intro c hc
    split at hc
    · cases hc
    · rcases List.mem_cons.mp hc with rfl | hMore
      · exact .inr rfl
      · exact .inl (hDigits.2 c hMore)

end Layouts

theorem isDigit_of_mem_shortestDigits {x : Binary32} {c : Char} (h : c ∈ x.shortestDigits.1) :
    isDigit c = true := by
  unfold shortestDigits at h
  dsimp only at h
  rw [List.mem_reverse] at h
  exact isDigit_of_mem_toDigits (List.mem_reverse.mp (List.dropWhile_subset _ h))

/-- A text that begins with a letter is no number, with or without a sign. -/
theorem ofText?_letter (negative : Bool) {letter : Char} (h : letter ∈ ['e', 'i', 'N'])
    (rest : List Char) :
    ofText? ((if negative then ['-'] else []) ++ letter :: rest) = none := by
  have hOthers : ∀ other ∈ ['e', 'i', 'N'], isDigit other = false ∧ other ≠ '.' ∧
      other ≠ '-' ∧ other ≠ '+' :=
    forall_mem_of_all (by decide)
  have hOther := hOthers letter h
  cases negative <;> simp [ofText?, signed, spanDigits, hOther]

/-- A number that reads back is written in decimal. -/
theorem exists_text {x : Binary32} (h : ofText? x.text.toList = some x) :
    ∃ first mantissa exponent, IsDecimal first mantissa exponent ∧
      x.text.toList = (if x.isNegative then ['-'] else []) ++ first :: (mantissa ++ exponent) := by
  have hDigits : ∀ c ∈ x.shortestDigits.1, isDigit c = true :=
    fun c => isDigit_of_mem_shortestDigits
  unfold text at h ⊢
  split at h
  · cases (ofText?_letter false (by decide) _).symm.trans h
  · next hNumber =>
      rw [if_neg hNumber]
      dsimp only at h ⊢
      rw [String.toList_ofList] at h ⊢
      by_cases hInfinite : (!x.isFinite) = true
      · rw [if_pos hInfinite] at h
        cases (ofText?_letter x.isNegative (by decide) _).symm.trans h
      by_cases hZero : x.units = 0
      · rw [if_neg hInfinite, if_pos hZero]
        exact ⟨'0', ['.', '0'], [],
          ⟨by decide, by simp [IsMantissa]; decide, .none, .inl (by simp)⟩, rfl⟩
      rw [if_neg hInfinite, if_neg hZero] at h ⊢
      by_cases hRange : (-3 ≤ x.shortestDigits.2 && x.shortestDigits.2 ≤ 16) = true
      · obtain ⟨first, mantissa, hText, hDecimal⟩ := exists_positional hDigits
        rw [if_pos hRange, hText]
        exact ⟨first, mantissa, [], hDecimal, by rw [List.append_nil]⟩
      · rw [if_neg hRange] at h ⊢
        have hSome : x.shortestDigits.1 ≠ [] := by
          intro hNone
          rw [hNone] at h
          cases (ofText?_letter x.isNegative (by decide) _).symm.trans h
        obtain ⟨first, mantissa, exponent, hText, hDecimal⟩ := exists_scientific hDigits hSome
        rw [hText]
        exact ⟨first, mantissa, exponent, hDecimal, rfl⟩

end ScriptBackend.Binary32
