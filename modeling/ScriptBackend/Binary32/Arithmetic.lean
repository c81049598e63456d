import ScriptBackend.Binary32.Rounding

/-!
Arithmetic of finite single-precision numbers. Each operation is exact on units
and rounded once; it has no result when the rounded value is not finite or does
not exist.
-/
namespace ScriptBackend.Binary32

def finite? (x : Binary32) : Option Binary32 :=
  if x.isFinite then some x else none

/-- The rounded sum. An exact zero is positive unless both operands are negative. -/
def add? (x y : Binary32) : Option Binary32 :=
  if x.isFinite && y.isFinite then
    let sum := x.signedUnits + y.signedUnits
    let negative := if sum = 0 then x.isNegative && y.isNegative else sum < 0
    finite? (ofRatio negative sum.natAbs unitsPerOne)
  else
    none

def sub? (x y : Binary32) : Option Binary32 :=
  x.add? y.neg

def mul? (x y : Binary32) : Option Binary32 :=
  if x.isFinite && y.isFinite then
    finite? (ofRatio (x.isNegative != y.isNegative) (x.units * y.units) (unitsPerOne * unitsPerOne))
  else
    none

/-- The rounded quotient, absent when the divisor is a zero. -/
def div? (x y : Binary32) : Option Binary32 :=
  if x.isFinite && y.isFinite && y.units != 0 then
    finite? (ofRatio (x.isNegative != y.isNegative) x.units y.units)
  else
    none

/-- The remainder of division towards zero, with the sign of the dividend. It is
always exact. -/
def rem? (x y : Binary32) : Option Binary32 :=
  if x.isFinite && y.isFinite && y.units != 0 then
    finite? (ofRatio x.isNegative (x.units % y.units) unitsPerOne)
  else
    none

end ScriptBackend.Binary32
