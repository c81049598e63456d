import ScriptBackend.Binary32.Rounding
import ScriptBackend.Text.Digits
import ScriptBackend.Text.Numeric

/-!
Single-precision numbers in decimal. Reading rounds the exact value once.
Writing takes the fewest digits that read back as the same number, and of those
the nearest.
-/
namespace ScriptBackend.Binary32

open ScriptBackend.Text

/-- The number nearest to what the digits denote times ten to the power
`exponent`. Exponents beyond every finite number and below every positive one
are decided by the number of digits, before any power is computed. -/
def ofDecimal (negative : Bool) (digits : List Char) (exponent : Int) : Binary32 :=
  let significant := digits.dropWhile (· == '0')
  let places : Int := significant.length + exponent
  if significant.isEmpty || places < -60 then ofMagnitude negative 0
  else if 60 < places then ofMagnitude negative infinite
  else
    let number := Text.ofDecimal significant
    if 0 ≤ exponent then ofRatio negative (number * Nat.pow 10 exponent.toNat) 1
    else ofRatio negative number (Nat.pow 10 (-exponent).toNat)

/-- The exponent after the digits of a number: nothing, or `e` and a signed
integer. -/
def exponent? : List Char → Option Int
  | [] => some 0
  | mark :: rest =>
    if mark = 'e' || mark = 'E' then
      let (negative, digits) := signed rest
      if digits.isEmpty || !digits.all isDigit then none
      else if negative then some (-(exponentOfDecimal digits : Int))
      else some (exponentOfDecimal digits)
    else
      none

/-- Reads a decimal number: an optional sign, digits with at most one point
among or beside them, and an optional exponent. -/
def ofText? (text : List Char) : Option Binary32 :=
  let (negative, unsigned) := signed text
  let (whole, afterWhole) := spanDigits unsigned
  let (fraction, rest) :=
    match afterWhole with
    | '.' :: tail => spanDigits tail
    | tail => ([], tail)
  if whole.isEmpty && fraction.isEmpty then none
  else
    (exponent? rest).map fun exponent =>
      ofDecimal negative (whole ++ fraction) (exponent - fraction.length)

/-- A power of ten by which every positive number becomes greater than any
nine-digit grid needs. -/
def decimalScale : Nat := Nat.pow 10 60

/-- The reals that read back as a positive number, in quarters of a unit: from
the middle to the number below up to the middle to the number above. The number
below a power of two is nearer. -/
def readBackRange (x : Binary32) : Nat × Nat :=
  let spacing := 1 <<< x.shift
  let below := if x.significand = 0x800000 && 0 < x.shift then spacing else 2 * spacing
  (4 * x.units - below, 4 * x.units + 2 * spacing)

/-- The grid point of `count` digits that reads back as the number, if there is
one: of the two neighbours on the grid the nearer, and the upper one when both
are equally near. `places` is the number of digits of the scaled number before
its point. -/
def onGrid? (x : Binary32) (places count : Nat) : Option Nat :=
  let exact := 4 * x.units * decimalScale
  let (low, high) := x.readBackRange
  let step := Nat.pow 10 (places - count) * (4 * unitsPerOne)
  let inside (point : Nat) : Bool :=
    if x.significand % 2 = 0 then
      low * decimalScale ≤ point && point ≤ high * decimalScale
    else
      low * decimalScale < point && point < high * decimalScale
  let lower := exact / step
  let down := inside (lower * step)
  let up := inside ((lower + 1) * step)
  if down && (!up || exact - lower * step < (lower + 1) * step - exact) then some lower
  else if up then some (lower + 1)
  else none

/-- The shortest digits of a positive number, and the position of the point
after their beginning. Nine digits always suffice. -/
def shortestDigits (x : Binary32) : List Char × Int :=
  let places := (Nat.toDigits 10 (x.units * decimalScale / unitsPerOne)).length
  let point := ((List.range' 1 9).findSome? fun count =>
    (x.onGrid? places count).map fun digits => (digits, count)).getD (0, 1)
  let digits := Nat.toDigits 10 point.1
  let carried : Int := digits.length - point.2
  ((digits.reverse.dropWhile (· == '0')).reverse, places - 60 + carried)

/-- Digits with the point among or beside them, and at least one digit on each
side. -/
def positional (digits : List Char) (point : Int) : List Char :=
  if point ≤ 0 then
    '0' :: '.' :: (List.replicate (-point).toNat '0' ++ digits)
  else
    let whole := digits.take point.toNat
    let padding := List.replicate (point.toNat - digits.length) '0'
    let fraction := digits.drop point.toNat
    whole ++ padding ++ '.' :: (if fraction.isEmpty then ['0'] else fraction)

/-- Digits with one before the point, and the exponent of ten. -/
def scientific (digits : List Char) (point : Int) : List Char :=
  let fraction := digits.drop 1
  digits.take 1 ++ (if fraction.isEmpty then [] else '.' :: fraction) ++
    'e' :: (signedDecimal (point - 1)).toList

/-- The text of a number: positional from `0.0001` up to below ten to the
sixteenth, with an exponent outside. -/
def text (x : Binary32) : String :=
  if x.isNaN then "NaN"
  else
    let sign := if x.isNegative then ['-'] else []
    let body :=
      if !x.isFinite then ['i', 'n', 'f']
      else if x.units = 0 then ['0', '.', '0']
      else
        let (digits, point) := x.shortestDigits
        if -3 ≤ point && point ≤ 16 then positional digits point else scientific digits point
    String.ofList (sign ++ body)

end ScriptBackend.Binary32
