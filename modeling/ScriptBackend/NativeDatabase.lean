import ScriptBackend.Table
import ScriptBackend.Text.Bytes

/-!
The native database: the natives of one target with their hashes and signatures.
Names are looked up without regard to the case of ASCII letters, hashes lead to
the entry stored last.
-/
namespace ScriptBackend

/-- A native of the target. The counts are in words. -/
structure NativeEntry where
  name : String
  hash : UInt64
  parameters : UInt32
  returns : UInt32
deriving DecidableEq

/-- What the assembler and the code generator ask about natives: a lookup by
name and one by hash. -/
structure NativeSource where
  named? : String → Option NativeEntry
  ofHash? : UInt64 → Option NativeEntry

/-- Why a database cannot be made or read. -/
inductive DatabaseFault where
  /-- The document is no native database. -/
  | malformed
  /-- The hash of an entry is no 64-bit number. -/
  | invalidHash (name value : String)
  /-- Two entries have the same name. -/
  | duplicateName (name : String)
deriving DecidableEq

def DatabaseFault.message : DatabaseFault → String
  | .malformed => "Malformed native database: expected a list of natives"
  | .invalidHash name value => "Native '" ++ name ++ "' has invalid hash '" ++ value ++ "'"
  | .duplicateName name => "Native '" ++ name ++ "' declared twice"

/-- Natives by upper-case name, in the order of insertion, with the last
position of each hash. -/
structure NativeDatabase where
  entries : Table String NativeEntry
  byHash : Std.TreeMap UInt64 Nat

namespace NativeDatabase

def empty : NativeDatabase := ⟨Table.empty, ∅⟩

def size (database : NativeDatabase) : Nat :=
  database.entries.size

/-- Adds a native whose name is new up to the case of letters. -/
def insert (database : NativeDatabase) (entry : NativeEntry) :
    Except DatabaseFault NativeDatabase :=
  let key := Text.upperCased entry.name
  if database.entries.contains key then .error (.duplicateName entry.name)
  else
    .ok { entries := database.entries.insertNew key entry
          byHash := database.byHash.insert entry.hash database.size }

def named? (database : NativeDatabase) (name : String) : Option NativeEntry :=
  database.entries.find? (Text.upperCased name)

def ofHash? (database : NativeDatabase) (hash : UInt64) : Option NativeEntry :=
  database.byHash[hash]?.bind fun position => database.entries.entries[position]?.map Prod.snd

def source (database : NativeDatabase) : NativeSource :=
  ⟨database.named?, database.ofHash?⟩

instance : Coe NativeDatabase NativeSource := ⟨source⟩

end NativeDatabase
end ScriptBackend
