import ScriptBackend.Text.CodePointSet

/-!
Blanks: the Unicode property White_Space, and texts without blanks at either
end.
-/
namespace ScriptBackend.Text

/-- The characters with the property White_Space. -/
def blank : CodePointSet where
  changes := #[
    0x9, 0xE, 0x20, 0x21, 0x85, 0x86, 0xA0, 0xA1, 0x1680, 0x1681, 0x2000, 0x200B, 0x2028,
    0x202A, 0x202F, 0x2030, 0x205F, 0x2060, 0x3000, 0x3001]

def isBlank (c : Char) : Bool :=
  blank.contains c

def trimStart (text : List Char) : List Char :=
  text.dropWhile isBlank

def trim (text : List Char) : List Char :=
  (trimStart (trimStart text).reverse).reverse

end ScriptBackend.Text
