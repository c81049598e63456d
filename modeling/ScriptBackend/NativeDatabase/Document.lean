import ScriptBackend.NativeDatabase
import ScriptBackend.Text.Blank
import ScriptBackend.Text.Digits
import ScriptBackend.Toml.Document

/-!
Native databases as TOML documents. The array `native` has a record for every
native, with its name, its hash as a text, and the optional counts `params` and
`returns`.
-/
namespace ScriptBackend.NativeDatabase

open ScriptBackend.Text ScriptBackend.Toml

/-- A record of a document, before its hash is read. -/
structure NativeRecord where
  name : String
  hash : String
  parameters : UInt32
  returns : UInt32

def NativeRecord.ofValue? (value : Value) : Option NativeRecord := do
  match ← value.fields? ["name", "hash", "params", "returns"] with
  | [some name, some hash, parameters, returns] =>
    return { name := ← name.text?
             hash := ← hash.text?
             parameters := ← fieldOr 0 Value.word? parameters
             returns := ← fieldOr 0 Value.word? returns }
  | _ => none

/-- A number of 64 bits without a sign other than plus. -/
def unsigned64? (isDigit : Char → Bool) (value : List Char → Nat) (text : List Char) :
    Option UInt64 :=
  let digits :=
    match text with
    | '+' :: rest => rest
    | text => text
  if digits.isEmpty || !digits.all isDigit || 0x10000000000000000 ≤ value digits then none
  else some (UInt64.ofNat (value digits))

/-- Reads a hash, in hexadecimal after `0x` and else in decimal. Blanks around
it do not count. -/
def hash? (text : String) : Option UInt64 :=
  match trim text.toList with
  | '0' :: 'x' :: rest => unsigned64? isHexDigit ofHex rest
  | '0' :: 'X' :: rest => unsigned64? isHexDigit ofHex rest
  | text => unsigned64? isDigit ofDecimal text

def insertRecord (database : NativeDatabase) (record : NativeRecord) :
    Except DatabaseFault NativeDatabase :=
  match hash? record.hash with
  | none => .error (.invalidHash record.name record.hash)
  | some hash => database.insert ⟨record.name, hash, record.parameters, record.returns⟩

/-- The records of a document. Without the array there are none. -/
def records? (document : Value) : Option (List NativeRecord) := do
  match ← document.fields? ["native"] with
  | [some array] => (← array.items?).mapM NativeRecord.ofValue?
  | _ => return []

def ofToml (text : String) : Except DatabaseFault NativeDatabase :=
  match (parse? text).bind records? with
  | none => .error .malformed
  | some records => records.foldlM insertRecord empty

end ScriptBackend.NativeDatabase
