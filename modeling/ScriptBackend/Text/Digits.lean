/-!
Numbers as digits: decimal with and without padding, and hexadecimal of a fixed
width.
-/
namespace ScriptBackend.Text

/-- A natural number in decimal, without leading zeros. -/
def decimal (n : Nat) : String :=
  String.ofList (Nat.toDigits 10 n)

/-- An integer in decimal, with a minus sign when it is negative. -/
def signedDecimal : Int → String
  | .ofNat n => decimal n
  | .negSucc n => "-" ++ decimal (n + 1)

def zeroFilled (width : Nat) (digits : List Char) : List Char :=
  List.replicate (width - digits.length) '0' ++ digits

/-- A code address in decimal, at least six digits wide. -/
def address (n : Nat) : String :=
  String.ofList (zeroFilled 6 (Nat.toDigits 10 n))

/-- Upper-case hexadecimal, at least `width` digits wide. -/
def hexUpper (width n : Nat) : String :=
  String.ofList (zeroFilled width ((Nat.toDigits 16 n).map Char.toUpper))

/-- Lower-case hexadecimal, at least `width` digits wide. -/
def hexLower (width n : Nat) : String :=
  String.ofList (zeroFilled width (Nat.toDigits 16 n))

def digitValue (c : Char) : Nat :=
  c.toNat - '0'.toNat

/-- The value of a hexadecimal digit of either case. -/
def hexDigitValue (c : Char) : Nat :=
  if 'a' ≤ c then c.toNat - 'a'.toNat + 10
  else if 'A' ≤ c then c.toNat - 'A'.toNat + 10
  else digitValue c

/-- The number that digits denote in a base. Long texts are halved `depth`
times, so that they need few long multiplications. -/
def ofHalves (base : Nat) (value : Char → Nat) : Nat → List Char → Nat
  | 0, digits => digits.foldl (fun n c => base * n + value c) 0
  | depth + 1, digits =>
    let upper := digits.take (digits.length / 2)
    let lower := digits.drop (digits.length / 2)
    Nat.pow base lower.length * ofHalves base value depth upper + ofHalves base value depth lower

def ofDigits (base : Nat) (value : Char → Nat) (digits : List Char) : Nat :=
  ofHalves base value (Nat.log2 (digits.length / 64)) digits

theorem foldl_digits_add (base : Nat) (value : Char → Nat) (digits : List Char) (start : Nat) :
    digits.foldl (fun n c => base * n + value c) start =
      Nat.pow base digits.length * start + digits.foldl (fun n c => base * n + value c) 0 := by
  induction digits generalizing start with
  | nil => simp
  | cons c digits ih =>
    rw [List.foldl_cons, List.foldl_cons, ih (base * start + value c), ih (base * 0 + value c)]
    simp only [List.length_cons, Nat.pow_eq, Nat.pow_succ, Nat.mul_zero, Nat.zero_add, Nat.mul_add,
      Nat.mul_assoc, Nat.add_assoc]

theorem ofHalves_eq_foldl (base : Nat) (value : Char → Nat) (depth : Nat) (digits : List Char) :
    ofHalves base value depth digits = digits.foldl (fun n c => base * n + value c) 0 := by
  induction depth generalizing digits with
  | zero => rfl
  | succ depth ih =>
    rw [ofHalves, ih, ih, ← foldl_digits_add, ← List.foldl_append, List.take_append_drop]

/-- Halving a text changes nothing: every digit moves what stands before it up
by one place. -/
theorem ofDigits_eq_foldl (base : Nat) (value : Char → Nat) (digits : List Char) :
    ofDigits base value digits = digits.foldl (fun n c => base * n + value c) 0 :=
  ofHalves_eq_foldl base value _ digits

def ofDecimal (digits : List Char) : Nat :=
  ofDigits 10 digitValue digits

def ofHex (digits : List Char) : Nat :=
  ofDigits 16 hexDigitValue digits

/-- The exponent that decimal digits denote. Once it has reached 65536 the
digits that follow do not count. -/
def exponentOfDecimal (digits : List Char) : Nat :=
  digits.foldl (fun n c => if n < 0x10000 then 10 * n + digitValue c else n) 0

end ScriptBackend.Text
