import ScriptBackend.Table

/-!
The native table: the hashes of the natives that a script uses, in the order of
first use. The machine reads them rotated by an amount that depends on their
position and on the code length.
-/
namespace ScriptBackend

/-- Distinct native hashes in table order. -/
structure NativeTable where
  table : Table UInt64 Unit

/-- Why a hash gets no entry. -/
inductive NativeTableFault where
  /-- The hash has an entry already. -/
  | duplicate (hash : UInt64)
  /-- Every index is taken. -/
  | full
deriving DecidableEq

namespace NativeTable

/-- The number of entries that an index of 16 bits can tell apart. -/
def limit : Nat := 0x10000

def empty : NativeTable := ⟨Table.empty⟩

def size (natives : NativeTable) : Nat :=
  natives.table.size

def hashes (natives : NativeTable) : List UInt64 :=
  natives.table.keys

def index? (natives : NativeTable) (hash : UInt64) : Option Nat :=
  natives.table.position? hash

/-- Gives a hash that has no entry the next index. A full table stays as it is. -/
def append (natives : NativeTable) (hash : UInt64) : Except NativeTableFault Nat × NativeTable :=
  let next := natives.size
  if limit ≤ next then (.error .full, natives)
  else (.ok next, ⟨natives.table.insertNew hash ()⟩)

/-- Gives a new entry to a hash that must not have one yet. -/
def add (natives : NativeTable) (hash : UInt64) : Except NativeTableFault Nat × NativeTable :=
  match natives.index? hash with
  | some _ => (.error (.duplicate hash), natives)
  | none => natives.append hash

/-- The index of a hash, which gets an entry on its first use. -/
def addOrGet (natives : NativeTable) (hash : UInt64) :
    Except NativeTableFault Nat × NativeTable :=
  match natives.index? hash with
  | some index => (.ok index, natives)
  | none => natives.append hash

end NativeTable

/-- How far the hash at an index is rotated: the sum of the index and the code
length, of which six bits count. -/
def nativeRotation (index codeLength : Nat) : Nat :=
  (index + codeLength) % 64

def rotateRight (hash : UInt64) (amount : Nat) : UInt64 :=
  ⟨hash.toBitVec.rotateRight amount⟩

def rotateLeft (hash : UInt64) (amount : Nat) : UInt64 :=
  ⟨hash.toBitVec.rotateLeft amount⟩

/-- The hashes as a script stores them. -/
def NativeTable.rotated (natives : NativeTable) (codeLength : Nat) : List UInt64 :=
  natives.hashes.mapIdx fun index hash => rotateRight hash (nativeRotation index codeLength)

end ScriptBackend
