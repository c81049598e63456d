/-!
Single-precision numbers as their 32 bits. Every finite number is a whole
multiple of the smallest positive one, so sums, products and comparisons are
questions about integers.
-/
namespace ScriptBackend

/-- A single-precision number, kept as its bits so that signs of zero and
payloads survive. -/
structure Binary32 where
  bits : UInt32
deriving DecidableEq, Inhabited

namespace Binary32

def zero : Binary32 := ⟨0⟩

def isNegative (x : Binary32) : Bool :=
  0x80000000 ≤ x.bits

def magnitude (x : Binary32) : Nat :=
  x.bits.toNat % 0x80000000

/-- The magnitude of an infinity; greater magnitudes are NaNs. -/
def infinite : Nat := 0x7F800000

def isFinite (x : Binary32) : Bool :=
  x.magnitude < infinite

def isNaN (x : Binary32) : Bool :=
  infinite < x.magnitude

/-- The number with a given sign and given remaining bits. -/
def ofMagnitude (negative : Bool) (magnitude : Nat) : Binary32 :=
  ⟨UInt32.ofNat (if negative then 0x80000000 + magnitude else magnitude)⟩

/-- The opposite number: only the sign bit changes. -/
def neg (x : Binary32) : Binary32 :=
  ⟨x.bits ^^^ 0x80000000⟩

/-- The significand of a finite number, the leading bit included. -/
def significand (x : Binary32) : Nat :=
  if x.magnitude < 0x800000 then x.magnitude else 0x800000 + x.magnitude % 0x800000

/-- The exponent of a finite number above the least exponent. -/
def shift (x : Binary32) : Nat :=
  x.magnitude / 0x800000 - 1

/-- How many smallest positive numbers, of two to the power -149 each, a finite
number's magnitude is made of. -/
def units (x : Binary32) : Nat :=
  x.significand <<< x.shift

def signedUnits (x : Binary32) : Int :=
  if x.isNegative then -(x.units : Int) else x.units

def unitsPerOne : Nat := 1 <<< 149

/-- A key that grows with the number; both zeros have the same key. -/
def orderKey (x : Binary32) : Int :=
  if x.isNegative then -(x.magnitude : Int) else x.magnitude

/-- Equality of numbers: zeros are equal, a NaN equals nothing. -/
def eq (x y : Binary32) : Bool :=
  !x.isNaN && !y.isNaN && x.orderKey == y.orderKey

/-- The strict order of numbers, in which no NaN takes part. -/
def lt (x y : Binary32) : Bool :=
  !x.isNaN && !y.isNaN && x.orderKey < y.orderKey

/-- The order of numbers, in which no NaN takes part. -/
def le (x y : Binary32) : Bool :=
  x.lt y || x.eq y

end Binary32
end ScriptBackend
