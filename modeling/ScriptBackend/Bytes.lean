/-!
Integers as bytes, low byte first, and bytes as integers.
-/
namespace ScriptBackend.Bytes

/-- The `count` low bytes of a number, the lowest first. -/
def little : Nat → Nat → List UInt8
  | 0, _ => []
  | count + 1, n => UInt8.ofNat n :: little count (n / 256)

/-- The low bytes of an integer in two's complement. -/
def littleInt (count : Nat) (n : Int) : List UInt8 :=
  little count (n % (1 <<< (8 * count) : Nat)).toNat

/-- The number that bytes denote, the lowest first. -/
def ofLittle : List UInt8 → Nat
  | [] => 0
  | byte :: rest => byte.toNat + 256 * ofLittle rest

/-- The signed number that 16 bits denote in two's complement. -/
def signed16 (n : Nat) : Int :=
  if n < 0x8000 then n else (n : Int) - 0x10000

end ScriptBackend.Bytes
