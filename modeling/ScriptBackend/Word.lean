import ScriptBackend.Binary32.Rounding

/-!
Words: the slots of the data image. A slot is 64 bits wide, of which numbers use
the low half.
-/
namespace ScriptBackend

/-- One slot of static or global data. -/
structure Word where
  bits : UInt64
deriving DecidableEq, Inhabited

namespace Word

def zero : Word := ⟨0⟩

/-- The slot of an integer: its low 32 bits, and zeros above. -/
def ofInt (n : Int) : Word :=
  ⟨UInt64.ofNat (n % 0x100000000).toNat⟩

/-- The slot of a single-precision number: its bits, and zeros above. -/
def ofFloat (x : Binary32) : Word :=
  ⟨x.bits.toUInt64⟩

def toInt (word : Word) : Int32 :=
  word.bits.toUInt32.toInt32

/-- The single-precision number in the low half of a slot. -/
def toFloat (word : Word) : Binary32 :=
  ⟨word.bits.toUInt32⟩

end Word
end ScriptBackend
