import ScriptBackend.Text.Digits
import ScriptBackend.Text.Printable

/-!
Quoted text. Script source quotes with apostrophes and escapes six characters; a
diagnostic quotes with double quotes and also escapes whatever would not be
visible.
-/
namespace ScriptBackend.Text

def sourceEscape : Char → List Char
  | '\'' => ['\\', '\'']
  | '\\' => ['\\', '\\']
  | '\n' => ['\\', 'n']
  | '\r' => ['\\', 'r']
  | '\t' => ['\\', 't']
  | '\x00' => ['\\', '0']
  | c => [c]

def sourceQuoted (text : String) : String :=
  String.ofList ('\'' :: (text.toList.flatMap sourceEscape ++ ['\'']))

def diagnosticEscape (c : Char) : List Char :=
  match c with
  | '"' => ['\\', '"']
  | '\\' => ['\\', '\\']
  | '\n' => ['\\', 'n']
  | '\r' => ['\\', 'r']
  | '\t' => ['\\', 't']
  | '\x00' => ['\\', '0']
  | c =>
    if isPrintable c then [c]
    else ['\\', 'u', '\x7b'] ++ Nat.toDigits 16 c.toNat ++ ['\x7d']

def diagnosticQuoted (text : String) : String :=
  String.ofList ('"' :: (text.toList.flatMap diagnosticEscape ++ ['"']))

end ScriptBackend.Text
