import ScriptBackend.Bytes
import ScriptBackend.NameHash
import ScriptBackend.NativeTable
import ScriptBackend.Page
import ScriptBackend.Text.Digits
import ScriptBackend.Word

/-!
Scripts as the machine loads them: paged code and strings, statics with the
argument slots behind them, an optional block of globals and the rotated native
table. A script has a flat form, which is what a file holds.
-/
namespace ScriptBackend

/-- A finished script. -/
structure Script where
  name : String
  nameHash : UInt32
  hash : UInt32
  codePages : List (List UInt8)
  codeLength : Nat
  stringPages : List (List UInt8)
  stringsLength : Nat
  /-- Statics, then arguments. -/
  statics : Array Word
  argumentCount : Nat
  globalsBlock : Option UInt8
  globalsPages : List (List Word)
  globalsLength : Nat
  /-- Native hashes as stored. -/
  natives : List UInt64
deriving BEq

namespace Script

def code (script : Script) : List UInt8 :=
  script.codePages.flatten

def strings (script : Script) : List UInt8 :=
  script.stringPages.flatten

/-- The hash of the native at an index, turned back. -/
def nativeHash? (script : Script) (index : Nat) : Option UInt64 :=
  script.natives[index]?.map fun hash => rotateLeft hash (nativeRotation index script.codeLength)

/-- The bytes of the string at an offset, which end before a zero byte on the
same page. -/
def stringBytes? (script : Script) (offset : Nat) : Option (List UInt8) := do
  let page ← script.stringPages[offset / Page.size]?
  let start := offset % Page.size
  if page.length < start then none
  else
    let rest := page.drop start
    if rest.contains 0 then some (rest.takeWhile (· ≠ 0)) else none

/-- The string at an offset. -/
def stringAt? (script : Script) (offset : Nat) : Option String :=
  (script.stringBytes? offset).map fun bytes => String.ofList (Text.ofUtf8 bytes)

def magic : List UInt8 := [0x53, 0x43, 0x46, 0x31]

/-- The header of the flat form: hashes, lengths and counts as 32-bit words. A
script without globals has no block number there. -/
def header (script : Script) : List Nat :=
  [script.nameHash.toNat, script.hash.toNat, script.codeLength, script.stringsLength,
    script.statics.size, script.argumentCount, script.natives.length,
    (script.globalsBlock.map UInt8.toNat).getD 0xFFFFFFFF, script.globalsLength,
    (Text.utf8 script.name).length]

def wordBytes (word : Word) : List UInt8 :=
  Bytes.little 8 word.bits.toNat

/-- The flat form: magic, header, name, code, strings, statics, natives and
globals. -/
def flat (script : Script) : List UInt8 :=
  magic ++ script.header.flatMap (Bytes.little 4) ++ Text.utf8 script.name ++ script.code ++
    script.strings ++ script.statics.toList.flatMap wordBytes ++
    script.natives.flatMap (fun hash => Bytes.little 8 hash.toNat) ++
    script.globalsPages.flatten.flatMap wordBytes

def summary (script : Script) : String :=
  let pages (count : Nat) := " bytes in " ++ Text.decimal count ++ " page(s)\n"
  let globals :=
    match script.globalsBlock with
    | some block =>
      "Globals:        block " ++ Text.decimal block.toNat ++ " with " ++
        Text.decimal script.globalsLength ++ " values\n"
    | none => ""
  "Name:           " ++ script.name ++ " (0x" ++ Text.hexUpper 8 script.nameHash.toNat ++ ")\n" ++
    "Hash:           0x" ++ Text.hexUpper 8 script.hash.toNat ++ "\n" ++
    "Code:           " ++ Text.decimal script.codeLength ++ pages script.codePages.length ++
    "Strings:        " ++ Text.decimal script.stringsLength ++ pages script.stringPages.length ++
    "Statics:        " ++ Text.decimal script.statics.size ++ " (" ++
    Text.decimal script.argumentCount ++ " args)\n" ++ globals ++
    "Natives:        " ++ Text.decimal script.natives.length

end Script
end ScriptBackend
