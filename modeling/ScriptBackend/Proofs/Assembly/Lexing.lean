import ScriptBackend.Assembly.Tokens
import ScriptBackend.Proofs.Text.CodePoints
import ScriptBackend.Proofs.Text.FloatNotation

/-!
Reading back what is written as tokens. Names and numbers read as one token
wherever they end, that is, in front of a blank, a mark between tokens, or the
end of the line.
-/
namespace ScriptBackend.Assembly

open ScriptBackend.Text

/-! Token by token -/

/-- Tokens in front of those of the rest of a line. -/
def prepend (tokens : List Token) (others : List Token × Option (List Char)) :
    List Token × Option (List Char) :=
  (tokens ++ others.1, others.2)

section Steps

variable {c : Char} {rest after : List Char} {token : Token}

@[simp] theorem tokenize_nil : tokenize [] = .ok ([], none) := by
  rw [tokenize]

theorem tokenize_blank (h : separatesTokens c = true) : tokenize (c :: rest) = tokenize rest := by
  rw [tokenize, if_pos h]

@[simp] theorem tokenize_space : tokenize (' ' :: rest) = tokenize rest :=
  tokenize_blank rfl

@[simp] theorem tokenize_comment : tokenize (';' :: rest) = .ok ([], some (trim rest)) := by
  rw [tokenize]
  rfl

/-- A token is read from the text, and the others from what is left behind it. -/
theorem tokenize_token (hBlank : separatesTokens c = false) (hMark : c ≠ ';')
    (h : readToken c rest = .ok (token, after)) :
    tokenize (c :: rest) = (tokenize after).map (prepend [token]) := by
  rw [tokenize, if_neg (by simp [hBlank]), if_neg hMark]
  split
  · next hFault => cases hFault.symm.trans h
  · next found left hFound =>
      cases hFound.symm.trans h
      rfl

@[simp] theorem tokenize_colon : tokenize (':' :: rest) = (tokenize rest).map (prepend [.colon]) :=
  tokenize_token rfl (by decide) rfl

@[simp] theorem tokenize_comma : tokenize (',' :: rest) = (tokenize rest).map (prepend [.comma]) :=
  tokenize_token rfl (by decide) rfl

@[simp] theorem tokenize_leftParen :
    tokenize ('(' :: rest) = (tokenize rest).map (prepend [.leftParen]) :=
  tokenize_token rfl (by decide) rfl

@[simp] theorem tokenize_rightParen :
    tokenize (')' :: rest) = (tokenize rest).map (prepend [.rightParen]) :=
  tokenize_token rfl (by decide) rfl

theorem map_prepend_prepend (first second : List Token)
    (read : Except SyntaxFault (List Token × Option (List Char))) :
    (read.map (prepend second)).map (prepend first) = read.map (prepend (first ++ second)) := by
  cases read with
  | error fault => rfl
  | ok others => simp [Except.map, prepend]

end Steps

/-- Characters that continue neither a name nor a number. -/
def endMarks : List Char :=
  [' ', ',', ':', '(', ')']

/-- What stands behind a token: nothing, or one of those characters. -/
def Ends (rest : List Char) : Prop :=
  ∀ c ∈ rest.head?, c ∈ endMarks

def endsLine (c : Char) : Bool :=
  c == '\n' || c == '\r'

/-- A text on one line that reads as tokens wherever it ends. -/
structure Lexes (text : List Char) (tokens : List Token) : Prop where
  reads : ∀ rest, Ends rest → tokenize (text ++ rest) = (tokenize rest).map (prepend tokens)
  flat : ∀ c ∈ text, endsLine c = false

section Texts

variable {text other : List Char} {tokens others : List Token}

theorem ends_nil : Ends [] := by
  simp [Ends]

theorem ends_cons {c : Char} (rest : List Char) (h : c ∈ endMarks) : Ends (c :: rest) := by
  simpa [Ends] using h

/-- A text that is read up to any end is also read when nothing follows it. -/
theorem Lexes.tokenize_eq (h : Lexes text tokens) : tokenize text = .ok (tokens, none) := by
  have hText := h.reads [] ends_nil
  rwa [List.append_nil, tokenize_nil, Except.map, prepend, List.append_nil] at hText

/-- Texts one behind the other, where the second one does not continue the last
token of the first. -/
theorem Lexes.append (h : Lexes text tokens) (hOther : Lexes other others)
    (hEnds : ∀ rest, Ends rest → Ends (other ++ rest)) :
    Lexes (text ++ other) (tokens ++ others) where
  reads rest hRest := by
    rw [List.append_assoc, h.reads _ (hEnds rest hRest), hOther.reads rest hRest,
      map_prepend_prepend]
  flat := List.forall_mem_append.mpr ⟨h.flat, hOther.flat⟩

theorem lexes_nil : Lexes [] [] where
  reads rest _ := by
    cases h : tokenize rest with
    | error fault => simp [h, Except.map]
    | ok others => simp [h, Except.map, prepend]
  flat := by simp

/-- A kind of characters that excludes both ends of a line. -/
theorem not_endsLine {p : Char → Bool} {c : Char} (h : p c = true) (hFeed : p '\n' = false)
    (hReturn : p '\r' = false) : endsLine c = false := by
  have hFeed : c ≠ '\n' := by
    rintro rfl
    cases hFeed.symm.trans h
  have hReturn : c ≠ '\r' := by
    rintro rfl
    cases hReturn.symm.trans h
  simp [endsLine, hFeed, hReturn]

end Texts

/-! Names -/

/-- A text that reads as one name. -/
def IsName (name : String) : Prop :=
  ∃ c rest, name.toList = c :: rest ∧ startsName c = true ∧ ∀ d ∈ rest, continuesName d = true

section Names

variable {name : String} {c : Char} {rest after : List Char}

theorem startsName_eq_false (hLow : c.toNat < 0x41) (hPoint : c ≠ '.') : startsName c = false := by
  have hLine : c ≠ '_' := by
    rintro rfl
    revert hLow
    decide
  simp [startsName, isAlphabetic_eq_false hLow, hLine, hPoint]

theorem continuesName_eq_false (h : c ∈ endMarks ++ ['\n', '\r']) : continuesName c = false := by
  have hAll : ∀ d ∈ endMarks ++ ['\n', '\r'],
      d.toNat < 0x41 ∧ (d.toNat < 0x30 ∨ d = ':') ∧ (d == '_' || d == '.' || d == '@') = false :=
    forall_mem_of_all (by decide)
  have hLow := hAll c h
  have hNumber : numeric.contains c = false := by
    rcases hLow.2.1 with hNumber | rfl
    · exact numeric_eq_false hNumber
    · exact numeric_colon
  simp only [continuesName, isAlphanumeric, isAlphabetic_eq_false hLow.1, hNumber, Bool.false_or]
  exact hLow.2.2

theorem digit_range (h : isDigit c = true) : 48 ≤ c.toNat ∧ c.toNat ≤ 57 := by
  rw [isDigit, Bool.and_eq_true] at h
  exact ⟨of_decide_eq_true h.1, of_decide_eq_true h.2⟩

/-- Where the characters of a kind end, all of them are taken and no more. -/
theorem span_of_ends {p : Char → Bool} {text : List Char} (hText : ∀ c ∈ text, p c = true)
    (hRest : ∀ c ∈ rest.head?, p c = false) :
    (text ++ rest).takeWhile p = text ∧ (text ++ rest).dropWhile p = rest := by
  rw [List.takeWhile_append_of_pos hText, List.dropWhile_append_of_pos hText]
  cases rest with
  | nil => simp
  | cons c rest =>
      have hStop : p c = false := hRest c rfl
      simp [hStop]

/-- A name does not begin like any other token. -/
theorem ne_of_startsName {marks : List Char} (hStart : startsName c = true)
    (hMarks : marks.all (fun d => decide (d.toNat < 0x41 ∧ d ≠ '.')) = true) :
    ∀ d ∈ marks, c ≠ d := by
  rintro d hd rfl
  have hOther := forall_mem_of_all hMarks c hd
  rw [startsName_eq_false hOther.1 hOther.2] at hStart
  cases hStart

/-- A name reaches as far as characters go on with it. -/
theorem readToken_name (hStart : startsName c = true) :
    readToken c rest =
      .ok (.name (String.ofList (c :: rest.takeWhile continuesName)),
        rest.dropWhile continuesName) := by
  have hNe : ∀ d ∈ [':', ',', '(', ')', '\'', '"', '-', '+'], c ≠ d :=
    ne_of_startsName hStart (by decide)
  have hDigit : isDigit c = false := Bool.eq_false_iff.mpr fun h => by
    have hRange := digit_range h
    have hPoint : c ≠ '.' := by
      rintro rfl
      revert h
      decide
    rw [startsName_eq_false (by omega) hPoint] at hStart
    cases hStart
  simp [readToken, hNe, hDigit, hStart]

/-- Names read as names. -/
theorem IsName.lexes (h : IsName name) : Lexes name.toList [.name name] := by
  obtain ⟨c, text, hText, hStart, hContinues⟩ := h
  have hFlat : ∀ d ∈ name.toList, endsLine d = false := by
    rw [hText, List.forall_mem_cons]
    exact ⟨not_endsLine hStart (startsName_eq_false (by decide) (by decide))
        (startsName_eq_false (by decide) (by decide)), fun d hd =>
      not_endsLine (hContinues d hd) (continuesName_eq_false (by decide))
        (continuesName_eq_false (by decide))⟩
  refine ⟨fun rest hRest => ?_, hFlat⟩
  have hNe : ∀ d ∈ [' ', '\t', '\r', ';'], c ≠ d := ne_of_startsName hStart (by decide)
  have hEnd : ∀ d ∈ rest.head?, continuesName d = false := fun d hd =>
    continuesName_eq_false (List.mem_append_left _ (hRest d hd))
  have hSpan := span_of_ends hContinues hEnd
  have hName : String.ofList (c :: text) = name := by rw [← hText, String.ofList_toList]
  rw [hText, List.cons_append]
  refine tokenize_token (by simp [separatesTokens, hNe]) (hNe _ (by decide)) ?_
  rw [readToken_name hStart, hSpan.1, hSpan.2, hName]

theorem readNumber_ne_name {sign : List Char} :
    readNumber sign c rest ≠ .ok (.name name, after) := by
  intro h
  rw [readNumber.eq_def] at h
  unfold readHex readDecimal at h
  dsimp only at h
  repeat' split at h
  all_goals cases h

/-- Only a character that may begin a name begins one, and the name reaches as
far as it can. -/
theorem readToken_eq_name (h : readToken c rest = .ok (.name name, after)) :
    startsName c = true ∧ name.toList = c :: rest.takeWhile continuesName := by
  unfold readToken at h
  iterate 4
    split at h
    · cases h
  split at h
  · cases hText : readText c rest <;> rw [hText] at h <;> cases h
  split at h
  · exact absurd h readNumber_ne_name
  split at h
  · split at h
    · exact absurd h readNumber_ne_name
    · cases h
  split at h
  · next hStart =>
      cases h
      exact ⟨hStart, String.toList_ofList⟩
  · cases h

/-- A name at the beginning of what is read stands behind blanks. -/
theorem exists_of_tokenize_name {line : List Char} {more : List Token}
    {comment : Option (List Char)} (h : tokenize line = .ok (.name name :: more, comment)) :
    ∃ blanks c rest, line = blanks ++ c :: rest ∧ startsName c = true ∧
      name.toList = c :: rest.takeWhile continuesName := by
  fun_induction tokenize line with
  | case1 => cases h
  | case2 c rest hBlank ih =>
      obtain ⟨blanks, first, others, rfl, hStart, hName⟩ := ih h
      exact ⟨c :: blanks, first, others, rfl, hStart, hName⟩
  | case3 rest hBlank => cases h
  | case4 c rest hBlank hMark fault hRead => cases h
  | case5 c rest hBlank hMark token after hRead ih =>
      cases hAfter : tokenize after with
      | error fault =>
          rw [hAfter] at h
          cases h
      | ok others =>
          rw [hAfter] at h
          cases h
          obtain ⟨hStart, hName⟩ := readToken_eq_name hRead
          exact ⟨[], c, rest, rfl, hStart, hName⟩

/-- What reads as one name and nothing else is a name. -/
theorem isName_of_tokenize (h : tokenize name.toList = .ok ([.name name], none)) : IsName name := by
  obtain ⟨blanks, c, rest, hLine, hStart, hName⟩ := exists_of_tokenize_name h
  have hLength := congrArg List.length hLine
  have hTaken := (List.takeWhile_prefix continuesName (l := rest)).length_le
  rw [hName, List.length_cons, List.length_append, List.length_cons] at hLength
  have hAll : rest.takeWhile continuesName = rest :=
    (List.takeWhile_prefix continuesName).eq_of_length (by omega)
  refine ⟨c, rest, hAll ▸ hName, hStart, fun d hd => ?_⟩
  rw [← hAll] at hd
  exact List.all_eq_true.mp (List.all_takeWhile ..) d hd

end Names

/-! Numbers -/

section Numbers

variable {sign more rest : List Char} {first : Char} {token : Token}

/-- A digit is none of the characters that are not digits. -/
theorem ne_of_isDigit {marks : List Char} (h : isDigit first = true)
    (hMarks : marks.all (fun d => decide (isDigit d = false)) = true) : ∀ d ∈ marks, first ≠ d := by
  rintro d hd rfl
  rw [forall_mem_of_all hMarks first hd] at h
  cases h

theorem readToken_digit (h : isDigit first = true) :
    readToken first rest = readNumber [] first rest := by
  have hNe : ∀ d ∈ [':', ',', '(', ')', '\'', '"'], first ≠ d := ne_of_isDigit h (by decide)
  simp [readToken, hNe, h]

theorem readToken_minus (h : isDigit first = true) :
    readToken '-' (first :: rest) = readNumber ['-'] first rest := by
  have hMinus : isDigit '-' = false := by decide
  simp [readToken, hMinus, h]

/-- The characters that stand in a number anywhere behind its first digit. -/
def isNumeral (c : Char) : Bool :=
  isDigit c || c == '.' || c == 'e' || c == 'E'

/-- Digits, points and exponents are taken along, and the sign of an exponent
with the letter before it. -/
theorem numberSpan_append {before : Char} {text : List Char} (h : ∀ c ∈ text, isNumeral c = true) :
    numberSpan before (text ++ rest) = (text ++ (numberSpan (text.getLastD before) rest).1,
      (numberSpan (text.getLastD before) rest).2) := by
  induction text generalizing before with
  | nil => rfl
  | cons c text ih =>
      rw [List.forall_mem_cons] at h
      have hTaken : (isDigit c || c == '.' || c == 'e' || c == 'E' ||
          ((before == 'e' || before == 'E') && (c == '-' || c == '+'))) = true := by
        rw [← isNumeral, h.1, Bool.true_or]
      rw [List.cons_append, numberSpan, if_pos hTaken, ih h.2]
      cases text <;> rfl

/-- A number does not go on behind a mark that ends it. -/
theorem numberSpan_of_ends {before : Char} (h : Ends rest) :
    numberSpan before rest = ([], rest) := by
  cases rest with
  | nil => rfl
  | cons c rest =>
      have hStop : (isDigit c || c == '.' || c == 'e' || c == 'E' ||
          ((before == 'e' || before == 'E') && (c == '-' || c == '+'))) = false := by
        have hMarks : ∀ d ∈ endMarks, isNumeral d = false ∧ (d == '-' || d == '+') = false :=
          forall_mem_of_all (by decide)
        obtain ⟨hNumeral, hSign⟩ := hMarks c (h c rfl)
        rw [← isNumeral, hNumeral, hSign, Bool.and_false, Bool.or_false]
      rw [numberSpan, if_neg (by simp [hStop])]

/-- What belongs to a decimal number does not begin like the mark of a
hexadecimal one. -/
theorem readNumber_decimal (hSpan : numberSpan first (more ++ rest) = (more, rest))
    (hRest : Ends rest) :
    readNumber sign first (more ++ rest) = readDecimal sign first (more ++ rest) := by
  rw [readNumber.eq_def]
  split
  · next mark others hLine =>
      rw [hLine]
      refine if_neg ?_
      rw [Bool.and_eq_true, not_and]
      intro _ hMark
      have hMark : mark = 'x' ∨ mark = 'X' := by simpa using hMark
      have hOther : isNumeral mark = false ∧ (mark == '-' || mark == '+') = false ∧
          mark ∉ endMarks := by
        rcases hMark with rfl | rfl <;> decide
      have hNone : numberSpan first (mark :: others) = ([], mark :: others) := by
        rw [numberSpan, ← isNumeral, hOther.1, hOther.2.1, Bool.and_false, Bool.or_false]
        rfl
      rw [hLine, hNone] at hSpan
      cases hSpan
      exact hOther.2.2 (hRest mark rfl)
  · next hLine => rw [hLine]

theorem floatSuffix_of_ends (h : Ends rest) : floatSuffix rest = (false, rest) := by
  unfold floatSuffix
  split
  · exact absurd (h 'f' rfl) (by decide)
  · exact absurd (h 'F' rfl) (by decide)
  · rfl

/-- What stands in the span of a number is read as a float if it looks like one,
and as an integer otherwise. -/
theorem readDecimal_of_span (hSpan : numberSpan first (more ++ rest) = (more, rest))
    (hRest : Ends rest) :
    readDecimal sign first (more ++ rest) =
      if (first :: more).any (fun c => c == '.' || c == 'e' || c == 'E') then
        match Binary32.ofText? (sign ++ first :: more) with
        | some value => .ok (.float value, rest)
        | none => .error (.invalidFloat (sign ++ first :: more))
      else
        match integerOfDigits? (sign = ['-']) (first :: more) with
        | some value => .ok (.int value, rest)
        | none => .error (.invalidInteger (sign ++ first :: more)) := by
  rw [readDecimal, hSpan]
  dsimp only
  rw [floatSuffix_of_ends hRest]
  rfl

/-- A number reads as it is read from its sign and digits. -/
theorem lexes_number (hSign : sign = [] ∨ sign = ['-']) (hFirst : isDigit first = true)
    (hFlat : ∀ c ∈ more, endsLine c = false)
    (hSpan : ∀ rest, Ends rest → numberSpan first (more ++ rest) = (more, rest))
    (hRead : ∀ rest, Ends rest → readDecimal sign first (more ++ rest) = .ok (token, rest)) :
    Lexes (sign ++ first :: more) [token] := by
  have hText : ∀ c ∈ sign ++ first :: more, endsLine c = false := by
    rw [List.forall_mem_append, List.forall_mem_cons]
    refine ⟨?_, not_endsLine hFirst rfl rfl, hFlat⟩
    rcases hSign with rfl | rfl <;> exact forall_mem_of_all (by decide)
  refine ⟨fun rest hRest => ?_, hText⟩
  have hNumber : readNumber sign first (more ++ rest) = .ok (token, rest) :=
    (readNumber_decimal (hSpan rest hRest) hRest).trans (hRead rest hRest)
  rcases hSign with rfl | rfl
  · have hNe : ∀ d ∈ [' ', '\t', '\r', ';'], first ≠ d := ne_of_isDigit hFirst (by decide)
    exact tokenize_token (by simp [separatesTokens, hNe]) (hNe _ (by decide))
      ((readToken_digit hFirst).trans hNumber)
  · exact tokenize_token rfl (by decide) ((readToken_minus hFirst).trans hNumber)

/-- Digits belong to a number. -/
theorem isNumeral_of_isDigit {c : Char} (h : isDigit c = true) : isNumeral c = true := by
  simp [isNumeral, h]

theorem numberSpan_numerals (hMore : ∀ c ∈ more, isNumeral c = true) (hRest : Ends rest) :
    numberSpan first (more ++ rest) = (more, rest) := by
  rw [numberSpan_append hMore, numberSpan_of_ends hRest, List.append_nil]

theorem not_any_of_digits {digits : List Char} (h : ∀ c ∈ digits, isDigit c = true) :
    digits.any (fun c => c == '.' || c == 'e' || c == 'E') = false := by
  have hNe : ∀ c ∈ digits, ∀ d ∈ ['.', 'e', 'E'], c ≠ d := fun c hc =>
    ne_of_isDigit (h c hc) (by decide)
  rw [List.any_eq_false]
  intro c hc
  simp [hNe c hc]

/-- An integer reads from its sign and digits. -/
theorem lexes_digits {n : Nat} {value : Int64} (hSign : sign = [] ∨ sign = ['-'])
    (h : integerOfDigits? (sign = ['-']) (Nat.toDigits 10 n) = some value) :
    Lexes (sign ++ Nat.toDigits 10 n) [.int value] := by
  have hDigits : ∀ c ∈ Nat.toDigits 10 n, isDigit c = true := fun c => isDigit_of_mem_toDigits
  have hMarks := not_any_of_digits hDigits
  obtain ⟨first, more, hText⟩ := List.exists_cons_of_ne_nil (@Nat.toDigits_ne_nil n 10)
  rw [hText] at h hDigits hMarks ⊢
  rw [List.forall_mem_cons] at hDigits
  have hSpan : ∀ rest, Ends rest → numberSpan first (more ++ rest) = (more, rest) := fun rest =>
    numberSpan_numerals fun c hc => isNumeral_of_isDigit (hDigits.2 c hc)
  have hFlat : ∀ c ∈ more, endsLine c = false := fun c hc => not_endsLine (hDigits.2 c hc) rfl rfl
  refine lexes_number hSign hDigits.1 hFlat hSpan fun rest hRest => ?_
  rw [readDecimal_of_span (hSpan rest hRest) hRest, hMarks, h]
  rfl

/-- A natural number of 64 bits, written in decimal, is read as that number,
with a sign where it does not fit without one. -/
theorem lexes_decimal {n : Nat} (h : n < 0x10000000000000000) :
    Lexes (decimal n).toList [.int (Int64.ofNat n)] := by
  have hAll : (Nat.toDigits 10 n).all isDigit = true :=
    List.all_eq_true.mpr fun c => isDigit_of_mem_toDigits
  rw [decimal, String.toList_ofList]
  refine lexes_digits (.inl rfl) ?_
  simp [integerOfDigits?, hAll, ofDecimal_toDigits]
  omega

/-- Every integer of 64 bits reads as itself. -/
theorem lexes_int (value : Int64) : Lexes (signedDecimal value.toInt).toList [.int value] := by
  have hLow := value.le_toInt
  have hHigh := value.toInt_lt
  have hValue := Int64.ofInt_toInt value
  cases h : value.toInt with
  | ofNat n =>
      rw [h] at hHigh hValue
      have hSame : Int64.ofNat n = value := hValue ▸ (Int64.ofInt_eq_ofNat).symm
      exact hSame ▸ lexes_decimal (by simp at hHigh; omega)
  | negSucc n =>
      rw [h] at hLow hValue
      have hAll : (Nat.toDigits 10 (n + 1)).all isDigit = true :=
        List.all_eq_true.mpr fun c => isDigit_of_mem_toDigits
      have hBound : n + 1 ≤ 0x8000000000000000 := by omega
      have hRead : integerOfDigits? true (Nat.toDigits 10 (n + 1)) = some value := by
        rw [integerOfDigits?]
        rw [ofDecimal_toDigits, hAll]
        exact (if_pos hBound).trans (congrArg some hValue)
      have hText : (signedDecimal (.negSucc n)).toList = ['-'] ++ Nat.toDigits 10 (n + 1) := by
        simp [signedDecimal, decimal]
      exact hText ▸ lexes_digits (.inr rfl) hRead

/-- The hexadecimal form of a number below the limit reads as its bits. -/
theorem lexes_hex {width n : Nat} (h : n < 0x10000000000000000) :
    Lexes ('0' :: 'x' :: (hexUpper width n).toList) [.int (Int64.ofNat n)] := by
  have hFlat : ∀ c ∈ (hexUpper width n).toList, endsLine c = false := fun c hc =>
    not_endsLine (isHexDigit_of_mem_hexUpper hc) rfl rfl
  refine ⟨fun rest hRest => ?_, by simpa [endsLine] using hFlat⟩
  have hEnd : ∀ c ∈ endMarks, isHexDigit c = false := forall_mem_of_all (by decide)
  have hSpan :=
    span_of_ends (fun c (hc : c ∈ (hexUpper width n).toList) => isHexDigit_of_mem_hexUpper hc)
    fun c hc => hEnd c (hRest c hc)
  have hLimit : ¬0x10000000000000000 ≤ n := by omega
  have hHex : readHex [] ((hexUpper width n).toList ++ rest) =
      .ok (.int (Int64.ofNat n), rest) := by
    simp [readHex, hSpan, ofHex_hexUpper, hexUpper_ne_empty, hLimit]
  have hMark : readNumber [] '0' ('x' :: ((hexUpper width n).toList ++ rest)) =
      readHex [] ((hexUpper width n).toList ++ rest) := by
    rw [readNumber.eq_def]
    exact if_pos rfl
  exact tokenize_token rfl (by decide) ((readToken_digit (by decide)).trans (hMark.trans hHex))

/-- Behind the mark of an exponent a sign belongs to the number. -/
theorem numberSpan_decimal {mantissa exponent : List Char}
    (h : Binary32.IsDecimal first mantissa exponent) (hRest : Ends rest) :
    numberSpan first (mantissa ++ exponent ++ rest) = (mantissa ++ exponent, rest) := by
  have hMantissa : ∀ c ∈ mantissa, isNumeral c = true := by
    intro c hc
    rcases h.digits c hc with hDigit | rfl
    · exact isNumeral_of_isDigit hDigit
    · decide
  have hMark : isNumeral 'e' = true := by decide
  cases h.ends with
  | none => simpa using numberSpan_numerals hMantissa hRest
  | @plain digits digits_eq =>
      refine numberSpan_numerals (List.forall_mem_append.mpr ⟨hMantissa, ?_⟩) hRest
      exact List.forall_mem_cons.mpr ⟨hMark, fun c hc => isNumeral_of_isDigit (digits_eq c hc)⟩
  | @negative digits digits_eq =>
      have hFront : ∀ c ∈ mantissa ++ ['e'], isNumeral c = true :=
        List.forall_mem_append.mpr ⟨hMantissa, by simp [hMark]⟩
      have hDigits : numberSpan '-' (digits ++ rest) = (digits, rest) :=
        numberSpan_numerals (fun c hc => isNumeral_of_isDigit (digits_eq c hc)) hRest
      have hSign : numberSpan 'e' ('-' :: digits ++ rest) = ('-' :: digits, rest) := by
        rw [List.cons_append, numberSpan, if_pos (by decide), hDigits]
      have hSplit : numberSpan first (mantissa ++ ['e'] ++ ('-' :: digits ++ rest)) = _ :=
        numberSpan_append hFront
      rw [List.getLastD_concat, hSign] at hSplit
      simpa using hSplit

theorem flat_of_isDecimal {mantissa exponent : List Char}
    (h : Binary32.IsDecimal first mantissa exponent) :
    ∀ c ∈ mantissa ++ exponent, endsLine c = false := by
  have hDigit : ∀ {c}, isDigit c = true → endsLine c = false := fun h => not_endsLine h rfl rfl
  rw [List.forall_mem_append]
  refine ⟨fun c hc => ?_, ?_⟩
  · rcases h.digits c hc with hFigure | rfl
    · exact hDigit hFigure
    · rfl
  · cases h.ends with
    | none => simp
    | plain digits_eq =>
        rw [List.forall_mem_cons]
        exact ⟨rfl, fun c hc => hDigit (digits_eq c hc)⟩
    | negative digits_eq =>
        rw [List.forall_mem_cons, List.forall_mem_cons]
        exact ⟨rfl, rfl, fun c hc => hDigit (digits_eq c hc)⟩

/-- A number that reads back from its text reads back among other tokens. -/
theorem lexes_float {value : Binary32} (h : Binary32.ofText? value.text.toList = some value) :
    Lexes value.text.toList [.float value] := by
  obtain ⟨first, mantissa, exponent, hDecimal, hText⟩ := Binary32.exists_text h
  rw [hText] at h ⊢
  have hSpan : ∀ rest, Ends rest →
      numberSpan first (mantissa ++ exponent ++ rest) = (mantissa ++ exponent, rest) := fun rest =>
    numberSpan_decimal hDecimal
  have hMarked : (first :: (mantissa ++ exponent)).any (fun c => c == '.' || c == 'e' || c == 'E') =
      true := by
    rw [List.any_eq_true]
    rcases hDecimal.marked with hPoint | hExponent
    · exact ⟨'.', by simp [hPoint], by decide⟩
    · cases hDecimal.ends with
      | none => exact absurd rfl hExponent
      | plain => exact ⟨'e', by simp, by decide⟩
      | negative => exact ⟨'e', by simp, by decide⟩
  refine lexes_number (by cases value.isNegative <;> simp) hDecimal.starts
    (flat_of_isDecimal hDecimal) hSpan fun rest hRest => ?_
  rw [readDecimal_of_span (hSpan rest hRest) hRest, hMarked, if_pos rfl, h]

end Numbers

/-! Text -/

section Literals

/-- An escaped character reads as the character, up to the closing quote. -/
theorem readText_escape (c : Char) (line : List Char) :
    readText '\'' (sourceEscape c ++ line) =
      (readText '\'' line).map fun (text, after) => (c :: text, after) := by
  unfold sourceEscape
  split
  iterate 6 rfl
  next hQuote hSlash _ _ _ _ =>
    rw [List.singleton_append, readText.eq_def]
    exact (if_neg hQuote).trans (if_neg hSlash)

/-- A text is read back from its escaped form up to the closing quotation mark. -/
theorem readText_sourceEscape (text rest : List Char) :
    readText '\'' (text.flatMap sourceEscape ++ '\'' :: rest) = .ok (text, rest) := by
  induction text with
  | nil =>
      rw [List.flatMap_nil, List.nil_append, readText.eq_def]
      exact if_pos rfl
  | cons c text ih =>
      rw [List.flatMap_cons, List.append_assoc, readText_escape, ih]
      rfl

/-- Literals escape the ends of lines. -/
theorem flat_sourceEscape (c : Char) : ∀ d ∈ sourceEscape c, endsLine d = false := by
  unfold sourceEscape
  split
  iterate 6 exact forall_mem_of_all (by decide)
  next hFeed hReturn _ _ =>
    rw [List.forall_mem_singleton, endsLine, Bool.or_eq_false_iff, beq_eq_false_iff_ne,
      beq_eq_false_iff_ne]
    exact ⟨hFeed, hReturn⟩

/-- A quoted text does not break its line, since line ends are escaped. -/
theorem flat_sourceQuoted (text : String) :
    ∀ c ∈ (sourceQuoted text).toList, endsLine c = false := by
  rw [sourceQuoted, String.toList_ofList, List.forall_mem_cons, List.forall_mem_append,
    List.forall_mem_singleton]
  refine ⟨rfl, fun c hc => ?_, rfl⟩
  obtain ⟨source, _, hEscape⟩ := List.mem_flatMap.mp hc
  exact flat_sourceEscape source c hEscape

/-- A literal reads as its text. -/
theorem lexes_text (text : String) : Lexes (sourceQuoted text).toList [.text text] := by
  refine ⟨fun rest _ => ?_, flat_sourceQuoted text⟩
  have hToken : readToken '\'' (text.toList.flatMap sourceEscape ++ '\'' :: rest) =
      .ok (.text text, rest) := by
    have hQuote : readToken '\'' (text.toList.flatMap sourceEscape ++ '\'' :: rest) =
        (readText '\'' (text.toList.flatMap sourceEscape ++ '\'' :: rest)).map fun (text, after) =>
          (.text (String.ofList text), after) := rfl
    rw [hQuote, readText_sourceEscape]
    simp [Except.map]
  rw [sourceQuoted, String.toList_ofList, List.cons_append, List.append_assoc,
    List.singleton_append]
  exact tokenize_token rfl (by decide) hToken

end Literals
end ScriptBackend.Assembly
