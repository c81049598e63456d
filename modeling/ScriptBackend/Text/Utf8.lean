/-!
Reading bytes as UTF-8 text when some of them may not be. A well-formed sequence
gives its character; the longest beginning of one that is cut short gives a
single replacement character.
-/
namespace ScriptBackend.Text

/-- What stands for bytes that are no character. -/
def replacement : Char := '\uFFFD'

/-- For a byte that begins a sequence of several bytes: how many follow, and the
range of the first of them. The narrowed ranges exclude overlong forms,
surrogates and values past the last code point. -/
def following (lead : UInt8) : Option (Nat × UInt8 × UInt8) :=
  if 0xC2 ≤ lead && lead ≤ 0xDF then some (1, 0x80, 0xBF)
  else if lead == 0xE0 then some (2, 0xA0, 0xBF)
  else if lead == 0xED then some (2, 0x80, 0x9F)
  else if 0xE1 ≤ lead && lead ≤ 0xEF then some (2, 0x80, 0xBF)
  else if lead == 0xF0 then some (3, 0x90, 0xBF)
  else if 0xF1 ≤ lead && lead ≤ 0xF3 then some (3, 0x80, 0xBF)
  else if lead == 0xF4 then some (3, 0x80, 0x8F)
  else none

/-- The continuation bytes at the beginning of a list, at most `count` of them. -/
def continuation (low high : UInt8) : Nat → List UInt8 → List UInt8
  | 0, _ => []
  | _ + 1, [] => []
  | count + 1, byte :: rest =>
    if low ≤ byte && byte ≤ high then byte :: continuation 0x80 0xBF count rest else []

/-- The character that a leading byte begins, and how many of the next bytes
belong to it. -/
def firstCharacter (lead : UInt8) (rest : List UInt8) : Char × Nat :=
  if lead < 0x80 then
    (Char.ofNat lead.toNat, 0)
  else
    match following lead with
    | none => (replacement, 0)
    | some (count, low, high) =>
      let tail := continuation low high count rest
      if tail.length = count then
        let start := lead.toNat % (1 <<< (6 - count))
        (Char.ofNat (tail.foldl (fun value byte => 64 * value + byte.toNat % 64) start), count)
      else
        (replacement, tail.length)

/-- The text that bytes hold, with every malformed part replaced. -/
def ofUtf8 : List UInt8 → List Char
  | [] => []
  | lead :: rest =>
    let (c, used) := firstCharacter lead rest
    c :: ofUtf8 (rest.drop used)
termination_by bytes => bytes.length
decreasing_by simp only [List.length_drop, List.length_cons]; omega

end ScriptBackend.Text
