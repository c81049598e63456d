import ScriptBackend.Text.Bytes

/-!
The hash under which the machine knows scripts and instructions: Jenkins'
one-at-a-time hash of a name, in which the case of ASCII letters does not
matter.
-/
namespace ScriptBackend

def mixByte (hash : UInt32) (byte : UInt8) : UInt32 :=
  let lowered := if 0x41 ≤ byte && byte ≤ 0x5A then byte + 0x20 else byte
  let added := hash + lowered.toUInt32
  let spread := added + (added <<< 10)
  spread ^^^ (spread >>> 6)

/-- The closing steps, which let the last bytes reach every bit. -/
def mixEnd (hash : UInt32) : UInt32 :=
  let spread := hash + (hash <<< 3)
  let folded := spread ^^^ (spread >>> 11)
  folded + (folded <<< 15)

def nameHash (name : String) : UInt32 :=
  mixEnd ((Text.utf8 name).foldl mixByte 0)

end ScriptBackend
