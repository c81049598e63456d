import ScriptBackend.Text.Digits
import ScriptBackend.Text.Numeric
import ScriptBackend.Toml.Value

/-!
Numbers and truth values of TOML. Each is one word without blanks, and the whole
word must be of one of the forms here.
-/
namespace ScriptBackend.Toml

open ScriptBackend.Text

/-- Digits in which single underscores may stand between two of them, without
the underscores. -/
def grouped? (isDigit : Char → Bool) : List Char → Option (List Char)
  | [] => none
  | [c] => if isDigit c then some [c] else none
  | c :: '_' :: rest => if isDigit c then (grouped? isDigit rest).map (c :: ·) else none
  | c :: rest => if isDigit c then (grouped? isDigit rest).map (c :: ·) else none

def decimalDigits? (word : List Char) : Option (List Char) := do
  let digits ← grouped? isDigit word
  if digits.head? = some '0' && word.length ≠ 1 then none else some digits

/-- An integer in decimal. It fits 64 bits with a sign. -/
def decimalInteger? (word : List Char) : Option Value := do
  let (negative, unsigned) := signed word
  let magnitude := ofDecimal (← decimalDigits? unsigned)
  let number : Int := if negative then -magnitude else magnitude
  if -0x8000000000000000 ≤ number && number < 0x8000000000000000 then some (.int number) else none

/-- An integer in a base of its own, which is never negative. -/
def integerInBase? (base : Nat) (isDigit : Char → Bool) (word : List Char) : Option Value := do
  let digits ← grouped? isDigit word
  let number := ofDigits base hexDigitValue digits
  if number < 0x8000000000000000 then some (.int number) else none

/-- Whether what the digits denote times ten to the power `exponent` is so large
that it rounds to infinity in double precision. Far exponents are decided by the
number of digits, before any power is computed. -/
def exceedsDouble (digits : List Char) (exponent : Int) : Bool :=
  let significant := digits.dropWhile (· == '0')
  let places : Int := significant.length + exponent
  let bound := 0x3FFFFFFFFFFFFF <<< 970
  if significant.isEmpty || places < 309 then false
  else if 309 < places then true
  else
    let number := ofDecimal significant
    if 0 ≤ exponent then bound ≤ number * Nat.pow 10 exponent.toNat
    else bound * Nat.pow 10 (-exponent).toNat ≤ number

/-- The exponent at the end of a floating-point number. -/
def exponent? : List Char → Option Int
  | mark :: rest =>
    if mark = 'e' || mark = 'E' then do
      let (negative, digits) := signed rest
      let magnitude := exponentOfDecimal (← grouped? isDigit digits)
      return if negative then -magnitude else magnitude
    else none
  | [] => none

/-- The digits of a fraction and the exponent after them. One of the two may be
missing. -/
def fractionAndExponent? : List Char → Option (List Char × Int)
  | '.' :: rest => do
    let belongs (c : Char) : Bool := isDigit c || c = '_'
    let fraction ← grouped? isDigit (rest.takeWhile belongs)
    match rest.dropWhile belongs with
    | [] => return (fraction, 0)
    | rest => return (fraction, ← exponent? rest)
  | rest => (exponent? rest).map ([], ·)

/-- A floating-point number. A positive one must not round to infinity. -/
def float? (word : List Char) : Option Value := do
  let (negative, unsigned) := signed word
  if unsigned = ['i', 'n', 'f'] || unsigned = ['n', 'a', 'n'] then
    return .float (String.ofList word)
  let belongs (c : Char) : Bool := isDigit c || c = '_'
  let whole ← decimalDigits? (unsigned.takeWhile belongs)
  let (fraction, exponent) ← fractionAndExponent? (unsigned.dropWhile belongs)
  if !negative && exceedsDouble (whole ++ fraction) (exponent - fraction.length) then none
  else return .float (String.ofList word)

def ofWord? : List Char → Option Value
  | ['t', 'r', 'u', 'e'] => some (.bool true)
  | ['f', 'a', 'l', 's', 'e'] => some (.bool false)
  | '0' :: 'x' :: rest => integerInBase? 16 isHexDigit rest
  | '0' :: 'o' :: rest => integerInBase? 8 (fun c => '0' ≤ c && c ≤ '7') rest
  | '0' :: 'b' :: rest => integerInBase? 2 (fun c => c = '0' || c = '1') rest
  | word => (decimalInteger? word).or (float? word)

end ScriptBackend.Toml
