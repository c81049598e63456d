import ScriptBackend.Binary32.Basic

/-!
The nearest single-precision number to a quotient, a tie going to the even
neighbour, and the conversions from and to integers.
-/
namespace ScriptBackend.Binary32

/-- The nearest integer to a quotient; of two equally near ones the even one. -/
def roundedQuotient (numerator denominator : Nat) : Nat :=
  let quotient := numerator / denominator
  let remainder := numerator % denominator
  if denominator < 2 * remainder || (denominator = 2 * remainder && quotient % 2 = 1) then
    quotient + 1
  else
    quotient

/-- The magnitude nearest to a quotient. The spacing of the numbers there is two
to the power `step` units; carrying into the next binade needs no case of its
own because magnitudes count through. -/
def nearestMagnitude (numerator denominator : Nat) : Nat :=
  let step := Nat.log2 (numerator * unitsPerOne / denominator) - 23
  let spacings := roundedQuotient (numerator * unitsPerOne) (denominator <<< step)
  min infinite (step * 0x800000 + spacings)

/-- The number nearest to a quotient, with a given sign. Quotients too large
become infinite. -/
def ofRatio (negative : Bool) (numerator denominator : Nat) : Binary32 :=
  ofMagnitude negative (nearestMagnitude numerator denominator)

def ofInt (n : Int) : Binary32 :=
  ofRatio (n < 0) n.natAbs 1

/-- The integer next to a number towards zero, held within 32 signed bits. A NaN
gives zero. -/
def toInt32 (x : Binary32) : Int32 :=
  if x.isNaN then 0
  else if !x.isFinite then (if x.isNegative then Int32.minValue else Int32.maxValue)
  else
    let whole : Int := x.units / unitsPerOne
    let signed := if x.isNegative then -whole else whole
    if signed < -0x80000000 then Int32.minValue
    else if 0x80000000 ≤ signed then Int32.maxValue
    else Int32.ofInt signed

end ScriptBackend.Binary32
