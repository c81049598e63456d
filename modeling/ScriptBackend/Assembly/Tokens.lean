import ScriptBackend.Assembly.Fault
import ScriptBackend.Text.Blank
import ScriptBackend.Text.Bytes
import ScriptBackend.Text.Numeric

/-!
The tokens of a line. Every reader takes the characters of one token from the
front of the line and returns what is left, which is never longer than what it
was given.
-/
namespace ScriptBackend.Assembly

open ScriptBackend.Text

def startsName (c : Char) : Bool :=
  isAlphabetic c || c == '_' || c == '.'

def continuesName (c : Char) : Bool :=
  isAlphanumeric c || c == '_' || c == '.' || c == '@'

/-- The character that an escape stands for. -/
def escaped? : Char → Option Char
  | 'n' => some '\n'
  | 'r' => some '\r'
  | 't' => some '\t'
  | '0' => some '\x00'
  | '\\' => some '\\'
  | '\'' => some '\''
  | '"' => some '"'
  | _ => none

/-- The characters of a literal up to its closing quote, and what follows the
quote. -/
def readText (quote : Char) : List Char → Except SyntaxFault (List Char × List Char)
  | [] => .error .unterminatedText
  | c :: rest =>
    if c = quote then .ok ([], rest)
    else if c = '\\' then
      match rest with
      | [] => .error .unterminatedText
      | mark :: rest =>
        match escaped? mark with
        | none => .error (.unknownEscape mark)
        | some c => (readText quote rest).map fun (text, after) => (c :: text, after)
    else
      (readText quote rest).map fun (text, after) => (c :: text, after)

theorem readText_length {quote : Char} {line text after : List Char}
    (h : readText quote line = .ok (text, after)) : after.length ≤ line.length := by
  fun_induction readText quote line generalizing text after with
  | case1 => cases h
  | case2 => cases h; simp
  | case3 => cases h
  | case4 => cases h
  | case5 _ rest _ _ _ ih =>
    cases found : readText quote rest with
    | error fault => simp [found, Except.map] at h
    | ok pair =>
      simp only [found, Except.map, Except.ok.injEq, Prod.mk.injEq] at h
      have shorter := ih found
      rw [h.2] at shorter
      simp only [List.length_cons]
      omega
  | case6 _ rest _ _ ih =>
    cases found : readText quote rest with
    | error fault => simp [found, Except.map] at h
    | ok pair =>
      simp only [found, Except.map, Except.ok.injEq, Prod.mk.injEq] at h
      have shorter := ih found
      rw [h.2] at shorter
      simp only [List.length_cons]
      omega

/-- The characters that can belong to a decimal number, and what follows them. A
sign belongs to it only right after the mark of an exponent. -/
def numberSpan (before : Char) : List Char → List Char × List Char
  | [] => ([], [])
  | c :: rest =>
    let afterMark := before == 'e' || before == 'E'
    if isDigit c || c == '.' || c == 'e' || c == 'E' || (afterMark && (c == '-' || c == '+')) then
      let (span, after) := numberSpan c rest
      (c :: span, after)
    else
      ([], c :: rest)

theorem numberSpan_length (before : Char) (line : List Char) :
    (numberSpan before line).2.length ≤ line.length := by
  induction line generalizing before with
  | nil => simp [numberSpan]
  | cons c rest ih =>
    rw [numberSpan]
    split
    · have shorter := ih c
      simp only [List.length_cons]
      omega
    · simp

/-- An integer of 64 bits from its sign and digits. Numbers beyond the signed
range keep their bits. -/
def integerOfDigits? (negative : Bool) (digits : List Char) : Option Int64 :=
  let value := ofDecimal digits
  if !digits.all isDigit then none
  else if negative then (if value ≤ 0x8000000000000000 then some (Int64.ofInt (-value)) else none)
  else if value < 0x10000000000000000 then some (Int64.ofNat value) else none

/-- A hexadecimal integer after its mark. A minus sign negates within 64 bits. -/
def readHex (sign : List Char) (line : List Char) : Except SyntaxFault (Token × List Char) :=
  let digits := line.takeWhile isHexDigit
  let value := ofHex digits
  if digits.isEmpty || 0x10000000000000000 ≤ value then .error (.invalidHex digits)
  else
    let number := Int64.ofNat value
    .ok (.int (if sign = ['-'] then -number else number), line.dropWhile isHexDigit)

/-- Drops the suffix that marks a float, and tells whether there was one. -/
def floatSuffix : List Char → Bool × List Char
  | 'f' :: rest => (true, rest)
  | 'F' :: rest => (true, rest)
  | rest => (false, rest)

/-- A decimal number from its sign and first digit on. A point, an exponent or a
suffix makes it a float. -/
def readDecimal (sign : List Char) (first : Char) (line : List Char) :
    Except SyntaxFault (Token × List Char) :=
  let (span, after) := numberSpan first line
  let (suffixed, after) := floatSuffix after
  let digits := first :: span
  if suffixed || digits.any (fun c => c == '.' || c == 'e' || c == 'E') then
    match Binary32.ofText? (sign ++ digits) with
    | some value => .ok (.float value, after)
    | none => .error (.invalidFloat (sign ++ digits))
  else
    match integerOfDigits? (sign = ['-']) digits with
    | some value => .ok (.int value, after)
    | none => .error (.invalidInteger (sign ++ digits))

def readNumber (sign : List Char) (first : Char) (line : List Char) :
    Except SyntaxFault (Token × List Char) :=
  match line with
  | mark :: rest =>
    if first = '0' && (mark = 'x' || mark = 'X') then readHex sign rest
    else readDecimal sign first line
  | [] => readDecimal sign first []

theorem floatSuffix_length (line : List Char) : (floatSuffix line).2.length ≤ line.length := by
  unfold floatSuffix
  split <;> simp

theorem readHex_length {sign line after : List Char} {token : Token}
    (h : readHex sign line = .ok (token, after)) : after.length ≤ line.length := by
  rw [readHex] at h
  dsimp only at h
  split at h
  · cases h
  · cases h
    exact (List.dropWhile_sublist isHexDigit).length_le

theorem readDecimal_length {sign line after : List Char} {first : Char} {token : Token}
    (h : readDecimal sign first line = .ok (token, after)) : after.length ≤ line.length := by
  have bound := Nat.le_trans (floatSuffix_length (numberSpan first line).2)
    (numberSpan_length first line)
  rw [readDecimal] at h
  dsimp only at h
  split at h
  · split at h
    · cases h; exact bound
    · cases h
  · split at h
    · cases h; exact bound
    · cases h

theorem readNumber_length {sign line after : List Char} {first : Char} {token : Token}
    (h : readNumber sign first line = .ok (token, after)) : after.length ≤ line.length := by
  rw [readNumber.eq_def] at h
  split at h
  · split at h
    · have bound := readHex_length h
      simp only [List.length_cons]
      omega
    · exact readDecimal_length h
  · exact readDecimal_length h

def readToken (c : Char) (rest : List Char) : Except SyntaxFault (Token × List Char) :=
  if c = ':' then .ok (.colon, rest)
  else if c = ',' then .ok (.comma, rest)
  else if c = '(' then .ok (.leftParen, rest)
  else if c = ')' then .ok (.rightParen, rest)
  else if c = '\'' || c = '"' then
    (readText c rest).map fun (text, after) => (.text (String.ofList text), after)
  else if isDigit c then readNumber [] c rest
  else if (c = '-' || c = '+') && (rest.head?.any isDigit) then
    match rest with
    | first :: rest => readNumber [c] first rest
    | [] => .error (.unexpectedCharacter c)
  else if startsName c then
    .ok (.name (String.ofList (c :: rest.takeWhile continuesName)), rest.dropWhile continuesName)
  else .error (.unexpectedCharacter c)

theorem readToken_length {c : Char} {rest after : List Char} {token : Token}
    (h : readToken c rest = .ok (token, after)) : after.length ≤ rest.length := by
  unfold readToken at h
  repeat' split at h
  all_goals first
    | (cases h; done)
    | (cases h; exact Nat.le_refl _)
    | (cases h; exact (List.dropWhile_sublist continuesName).length_le)
    | skip
  · cases found : readText c rest with
    | error fault => simp [found, Except.map] at h
    | ok pair =>
      simp only [found, Except.map, Except.ok.injEq, Prod.mk.injEq] at h
      have bound := readText_length found
      rw [h.2] at bound
      exact bound
  · exact readNumber_length h
  · have bound := readNumber_length h
    simp only [List.length_cons]
    omega

def separatesTokens (c : Char) : Bool :=
  c == ' ' || c == '\t' || c == '\r'

/-- The tokens of a line, and the text after the mark of a comment, trimmed. -/
def tokenize (line : List Char) : Except SyntaxFault (List Token × Option (List Char)) :=
  match line with
  | [] => .ok ([], none)
  | c :: rest =>
    if separatesTokens c then tokenize rest
    else if c = ';' then .ok ([], some (trim rest))
    else
      match _h : readToken c rest with
      | .error fault => .error fault
      | .ok (token, after) =>
        (tokenize after).map fun (tokens, comment) => (token :: tokens, comment)
termination_by line.length
decreasing_by
  · simp
  · have bound := readToken_length _h
    simp only [List.length_cons]
    omega

end ScriptBackend.Assembly
