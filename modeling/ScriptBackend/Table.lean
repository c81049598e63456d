import Std.Data.TreeMap

/-!
Tables that keep the order in which their keys were first stored. An index finds
the position of a key; that the index tells the truth about the entries is part
of the type.
-/
namespace ScriptBackend

/-- Keys with values in the order of their insertion. No key occurs twice. -/
structure Table (κ ν : Type) [Ord κ] where
  entries : Array (κ × ν)
  positions : Std.TreeMap κ Nat
  /-- The index leads to a position exactly when that entry has the key. -/
  position_iff : ∀ (key : κ) (i : Nat), positions[key]? = some i ↔
    entries[i]?.map Prod.fst = some key

namespace Table

variable {κ ν : Type} [Ord κ] [Std.TransOrd κ] [Std.LawfulEqOrd κ]

def empty : Table κ ν where
  entries := #[]
  positions := ∅
  position_iff := by simp

def size (table : Table κ ν) : Nat :=
  table.entries.size

def position? (table : Table κ ν) (key : κ) : Option Nat :=
  table.positions[key]?

def contains (table : Table κ ν) (key : κ) : Bool :=
  (table.position? key).isSome

def find? (table : Table κ ν) (key : κ) : Option ν :=
  (table.position? key).bind fun i => table.entries[i]?.map Prod.snd

def keys (table : Table κ ν) : List κ :=
  table.entries.toList.map Prod.fst

/-- Stores a value under a key that is not present. A key that is present keeps
its value. -/
def insertNew (table : Table κ ν) (key : κ) (value : ν) : Table κ ν :=
  match fresh : table.positions[key]? with
  | some _ => table
  | none =>
    let next := table.entries.size
    { entries := table.entries.push (key, value)
      positions := table.positions.insert key next
      position_iff := by
        intro other i
        have known := table.position_iff
        rw [Std.TreeMap.getElem?_insert, Array.getElem?_push,
          show next = table.entries.size from rfl]
        by_cases same : key = other
        · subst same
          by_cases last : i = table.entries.size
          · simp [last]
          · have absent : ¬ table.entries[i]?.map Prod.fst = some key := by
              rw [← known key i, fresh]
              simp
            have distinct : ¬ table.entries.size = i := fun h => last h.symm
            simp [last, distinct] at absent ⊢
            exact absent
        · by_cases last : i = table.entries.size
          · have absent : table.positions[other]? ≠ some i := by
              intro found
              have entry := (known other i).mp found
              simp [last] at entry
            simp [same, last] at absent ⊢
            exact absent
          · simp [same, last, known other i] }

end Table
end ScriptBackend
