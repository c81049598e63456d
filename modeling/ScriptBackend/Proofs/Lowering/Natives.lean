import ScriptBackend.Lowering.Compiled
import ScriptBackend.Proofs.Table
import ScriptBackend.Proofs.Text.LetterCase

/-!
The natives that code calls: each is included once, under the name in capitals
by which it is called.
-/
namespace ScriptBackend

/-- A native is found under its name in capitals. -/
theorem NativeDatabase.named?_upperCased (database : NativeDatabase) (name : String) :
    database.named? (Text.upperCased name) = database.named? name := by
  rw [named?, Text.upperCased_upperCased]
  rfl

namespace Lowering

open Assembly

/-- The natives that statements call, by their names in capitals. -/
def usedNatives (statements : Code) : List String :=
  statements.filterMap calledNative?

/-- The natives that code calls are those named by its statements, each of them
once. -/
theorem calledNatives_eq (code : Code) :
    calledNatives code.toArray = (usedNatives code).foldl (fun natives label =>
      natives.insertNew label ⟨⟩) Table.empty := by
  rw [calledNatives, List.foldl_toArray']
  · generalize (Table.empty : Table String PUnit) = table
    induction code generalizing table with
    | nil => rfl
    | cons first rest ih =>
        rw [List.foldl_cons, ih]
        cases h : calledNative? first <;> simp [usedNatives, h]
  · rfl

/-- Natives that the database knows by different names have different hashes. -/
def HashesApart (natives : NativeSource) (names : List String) : Prop :=
  ∀ first ∈ names, ∀ second ∈ names, ∀ entry other, natives.named? first = some entry →
    natives.named? second = some other → entry.hash = other.hash → first = second

/-- The natives in the order of their first calls are those that the code calls. -/
theorem mem_calledNatives {code : Code} {name : String} :
    name ∈ (calledNatives code.toArray).keys ↔ name ∈ usedNatives code := by
  rw [Table.mem_keys_iff, Table.contains_eq_isSome_find?, calledNatives_eq,
    Table.find?_foldl_insertNew]
  by_cases h : name ∈ usedNatives code <;> simp [h]

end Lowering
end ScriptBackend
