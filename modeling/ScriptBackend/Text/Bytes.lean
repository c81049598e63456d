import ScriptBackend.Text.Utf8

/-!
Text as bytes, and the comparison of names that ignores the case of ASCII
letters only.
-/
namespace ScriptBackend.Text

def utf8 (text : String) : List UInt8 :=
  text.toList.flatMap String.utf8EncodeChar

/-- An ASCII letter in upper case, any other character unchanged. -/
def asciiUpper (c : Char) : Char :=
  if 'a' ≤ c && c ≤ 'z' then Char.ofNat (c.toNat - 32) else c

/-- An ASCII letter in lower case, any other character unchanged. -/
def asciiLower (c : Char) : Char :=
  if 'A' ≤ c && c ≤ 'Z' then Char.ofNat (c.toNat + 32) else c

def upperCased (name : String) : String :=
  name.map asciiUpper

def lowerCased (name : String) : String :=
  name.map asciiLower

/-- Whether two names differ at most in the case of ASCII letters. -/
def sameName (first second : String) : Bool :=
  lowerCased first == lowerCased second

end ScriptBackend.Text
