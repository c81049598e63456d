import Mathlib.Data.List.Pairwise
import ScriptBackend.NativeDatabase
import ScriptBackend.Proofs.Table
import ScriptBackend.Proofs.Text.LetterCase

/-!
Runs of insertions into a native database. After any of them, refused ones
included, its lookups are those in the list of the natives that were stored: a
name finds the only native of that name, a hash the last one of that hash, and
no position leads behind the natives.
-/
namespace ScriptBackend.NativeDatabase

/-- The database after an insertion is tried. One that is refused leaves it as
it is. -/
def attempt (database : NativeDatabase) (entry : NativeEntry) : NativeDatabase :=
  match database.insert entry with
  | .ok next => next
  | .error _ => database

/-- The database after insertions are tried in order. -/
def attemptAll (database : NativeDatabase) (entries : List NativeEntry) : NativeDatabase :=
  entries.foldl attempt database

/-- The natives that are stored when insertions are tried in order. -/
def stored (database : NativeDatabase) : List NativeEntry → List NativeEntry
  | [] => []
  | entry :: rest =>
    match database.insert entry with
    | .ok next => entry :: next.stored rest
    | .error _ => database.stored rest

section

variable {database : NativeDatabase} {entry : NativeEntry}

/-! One insertion -/

def extended (database : NativeDatabase) (entry : NativeEntry) : NativeDatabase where
  entries := database.entries.insertNew (Text.upperCased entry.name) entry
  byHash := database.byHash.insert entry.hash database.size

/-- What an insertion can do. -/
theorem insert_cases (database : NativeDatabase) (entry : NativeEntry) :
    (database.named? entry.name).isSome = true ∧
        database.insert entry = .error (.duplicateName entry.name) ∨
      database.named? entry.name = none ∧
        database.insert entry = .ok (database.extended entry) := by
  have hKnown : database.entries.contains (Text.upperCased entry.name) =
      (database.named? entry.name).isSome :=
    Table.contains_eq_isSome_find? ..
  rw [insert, hKnown]
  cases database.named? entry.name with
  | some native => exact .inl ⟨rfl, rfl⟩
  | none => exact .inr ⟨rfl, rfl⟩

theorem entries_extended (hNew : database.named? entry.name = none) :
    (database.extended entry).entries.entries =
      database.entries.entries.push (Text.upperCased entry.name, entry) := by
  refine Table.insertNew_fresh entry ?_
  rw [Table.contains_eq_isSome_find?, ← named?, hNew]
  rfl

theorem size_extended (hNew : database.named? entry.name = none) :
    (database.extended entry).size = database.size + 1 := by
  rw [size, Table.size, entries_extended hNew, Array.size_push]
  rfl

/-- A name finds the first native that has it, in letters of any case. -/
theorem named?_extended (database : NativeDatabase) (entry : NativeEntry) (name : String) :
    (database.extended entry).named? name =
      (database.named? name).or (if Text.sameName entry.name name then some entry else none) := by
  simp only [named?, extended, Table.find?_insertNew, Text.sameName_iff,
    eq_comm (a := Text.upperCased name)]

/-- The positions of hashes lead to natives. -/
def InRange (database : NativeDatabase) : Prop :=
  ∀ (hash : UInt64) (position : Nat), database.byHash[hash]? = some position →
    position < database.size

/-- The positions of hashes lead to natives when one more is stored. -/
theorem InRange.extended (h : database.InRange) (hNew : database.named? entry.name = none) :
    (database.extended entry).InRange := by
  intro hash position hPosition
  rw [NativeDatabase.extended, Std.TreeMap.getElem?_insert] at hPosition
  rw [size_extended hNew]
  split at hPosition
  · cases hPosition
    exact Nat.lt_succ_self _
  · exact Nat.lt_succ_of_lt (h hash position hPosition)

/-- The native that comes last takes its hash over from those before it. -/
theorem ofHash?_extended (h : database.InRange)
    (hNew : database.named? entry.name = none) (hash : UInt64) :
    (database.extended entry).ofHash? hash =
      if entry.hash == hash then some entry else database.ofHash? hash := by
  have hPositions : (database.extended entry).byHash[hash]? =
      if entry.hash == hash then some database.size else database.byHash[hash]? := by
    rw [NativeDatabase.extended, Std.TreeMap.getElem?_insert]
    simp only [Std.compare_eq_iff_eq, beq_iff_eq]
  rw [ofHash?, entries_extended hNew, hPositions]
  split
  · have hLast : database.size = database.entries.entries.size := rfl
    rw [hLast, Option.bind_some, Array.getElem?_push_size]
    rfl
  · rw [ofHash?]
    cases hFound : database.byHash[hash]? with
    | none => rfl
    | some position =>
        have hRange : position < database.entries.entries.size := h hash position hFound
        rw [Option.bind_some, Option.bind_some, Array.getElem?_push, if_neg (Nat.ne_of_lt hRange)]

end

/-! Runs of insertions -/

/-- The lookups in a database are those in a list of natives, in which no name
comes twice. -/
structure Lists (database : NativeDatabase) (natives : List NativeEntry) : Prop where
  size : database.size = natives.length
  inRange : database.InRange
  named : ∀ name, database.named? name = natives.find? fun native => Text.sameName native.name name
  newest : ∀ hash, database.ofHash? hash = natives.reverse.find? fun native => native.hash == hash
  apart : natives.Pairwise fun first second => Text.sameName first.name second.name = false

theorem lists_empty : empty.Lists [] where
  size := rfl
  inRange := by simp [InRange, empty]
  named name := Table.find?_empty _
  newest hash := by simp [ofHash?, empty]
  apart := .nil

namespace Lists

variable {database : NativeDatabase} {natives : List NativeEntry} {entry : NativeEntry}

/-- A native is refused exactly when there is one of its name. -/
theorem refused_iff (h : database.Lists natives) (entry : NativeEntry) :
    (∃ fault, database.insert entry = .error fault) ↔
      ∃ native ∈ natives, Text.sameName native.name entry.name = true := by
  rw [← List.find?_isSome, ← h.named]
  rcases insert_cases database entry with ⟨hKnown, hRefused⟩ | ⟨hNew, hStored⟩
  · exact ⟨fun _ => hKnown, fun _ => ⟨_, hRefused⟩⟩
  · rw [hStored, hNew]
    exact ⟨nofun, nofun⟩

/-- A native with a new name comes behind the others. -/
theorem extended (h : database.Lists natives) (hNew : database.named? entry.name = none) :
    (database.extended entry).Lists (natives ++ [entry]) where
  size := by rw [size_extended hNew, h.size, List.length_append, List.length_singleton]
  inRange := h.inRange.extended hNew
  named name := by rw [named?_extended, h.named, List.find?_append, List.find?_singleton]
  newest hash := by
    rw [ofHash?_extended h.inRange hNew, h.newest, List.reverse_append, List.reverse_singleton,
      List.singleton_append, List.find?_cons]
    cases entry.hash == hash <;> rfl
  apart := by
    rw [h.named, List.find?_eq_none] at hNew
    refine List.pairwise_append.mpr ⟨h.apart, List.pairwise_singleton ..,
      fun native hMem other hOther => ?_⟩
    rw [List.mem_singleton.mp hOther]
    exact Bool.eq_false_iff.mpr (hNew native hMem)

/-- Insertions that are tried in order add those that are stored. -/
theorem attemptAll (h : database.Lists natives) (entries : List NativeEntry) :
    (database.attemptAll entries).Lists (natives ++ database.stored entries) := by
  induction entries generalizing database natives with
  | nil => rwa [stored, List.append_nil]
  | cons entry rest ih =>
      have hStep : database.attemptAll (entry :: rest) = (database.attempt entry).attemptAll rest :=
        rfl
      rw [hStep, attempt, stored]
      rcases insert_cases database entry with ⟨_, hRefused⟩ | ⟨hNew, hStored⟩
      · rw [hRefused]
        exact ih h
      · rw [hStored, List.append_cons]
        exact ih (h.extended hNew)

/-- A name finds a native of the list exactly if it is its name. -/
theorem named_eq_some_iff (h : database.Lists natives) {name : String} {native : NativeEntry} :
    database.named? name = some native ↔
    native ∈ natives ∧ Text.sameName native.name name = true := by
  rw [h.named]
  constructor
  · intro hFound
    have hName := List.find?_some hFound
    exact ⟨List.mem_of_find?_eq_some hFound, hName⟩
  · rintro ⟨hMem, hName⟩
    have hSome : (natives.find? fun native => Text.sameName native.name name).isSome = true :=
      List.find?_isSome.mpr ⟨native, hMem, hName⟩
    obtain ⟨found, hFound⟩ := Option.isSome_iff_exists.mp hSome
    have hFoundName := List.find?_some hFound
    rw [hFound]
    by_contra hOther
    -- both have the name, so one would have been refused
    have hSame : Text.sameName found.name native.name = true :=
      Text.sameName_iff.mpr ((Text.sameName_iff.mp hFoundName).trans
        (Text.sameName_iff.mp hName).symm)
    have : Std.Symm fun first second : NativeEntry =>
        Text.sameName first.name second.name = false :=
      ⟨fun first second hApart => (Text.sameName_comm ..).trans hApart⟩
    have hApart := h.apart.forall (List.mem_of_find?_eq_some hFound) hMem fun hSame =>
      hOther (congrArg some hSame)
    rw [hSame] at hApart
    cases hApart

end Lists

/-- Insertions are tried one behind the other. -/
theorem attemptAll_append (database : NativeDatabase) (first second : List NativeEntry) :
    database.attemptAll (first ++ second) = (database.attemptAll first).attemptAll second :=
  List.foldl_append

/-- A native that is refused is passed over. -/
theorem attemptAll_refused {database : NativeDatabase} {before : List NativeEntry}
    {entry : NativeEntry}
    {fault : DatabaseFault} (h : (database.attemptAll before).insert entry = .error fault)
    (later : List NativeEntry) :
    database.attemptAll (before ++ entry :: later) = database.attemptAll (before ++ later) := by
  have hStep : (database.attemptAll before).attempt entry =
      database.attemptAll before := by rw [attempt, h]
  rw [attemptAll_append, attemptAll_append]
  exact congrArg (fun database => database.attemptAll later) hStep

/-- A position under which a name is found leads to a native. -/
theorem position_lt_size {database : NativeDatabase} {key : String} {position : Nat}
    (h : database.entries.position? key = some position) : position < database.size := by
  rw [Table.position?_eq_some_iff] at h
  obtain ⟨entry, hEntry, _⟩ := Option.map_eq_some_iff.mp h
  exact (Array.getElem?_eq_some_iff.mp hEntry).1

/-- Whatever insertions were tried, one more is refused exactly when a native of
its name was stored, and then everything goes on as if it had not been tried. A
name finds the only native of that name, a hash the last one of that hash, and
no lookup meets a position without a native. -/
theorem lookups_of_stored (entries : List NativeEntry) :
    (∀ entry, (∃ fault, (empty.attemptAll entries).insert entry = .error fault) ↔
        ∃ native ∈ empty.stored entries, Text.sameName native.name entry.name = true) ∧
      (∀ entry fault, (empty.attemptAll entries).insert entry = .error fault →
        fault = .duplicateName entry.name ∧
          ∀ later, empty.attemptAll (entries ++ entry :: later) =
            empty.attemptAll (entries ++ later)) ∧
      (empty.attemptAll entries).size = (empty.stored entries).length ∧
      (empty.stored entries).Pairwise
      (fun first second => Text.sameName first.name second.name = false) ∧
      (∀ name native, (empty.attemptAll entries).named? name = some native ↔
        native ∈ empty.stored entries ∧ Text.sameName native.name name = true) ∧
      (∀ hash, (empty.attemptAll entries).ofHash? hash =
        (empty.stored entries).reverse.find? fun native => native.hash == hash) ∧
      (∀ key position, (empty.attemptAll entries).entries.position? key = some position →
        position < (empty.attemptAll entries).size) ∧
      ∀ (hash : UInt64) (position : Nat), (empty.attemptAll entries).byHash[hash]? = some position →
        position < (empty.attemptAll entries).size := by
  have hLists : (empty.attemptAll entries).Lists (empty.stored entries) :=
    lists_empty.attemptAll entries
  refine ⟨hLists.refused_iff, fun entry fault hRefused => ⟨?_, attemptAll_refused hRefused⟩,
    hLists.size, hLists.apart, fun name native =>
      hLists.named_eq_some_iff, hLists.newest, fun key position => position_lt_size, hLists.inRange⟩
  rcases insert_cases (empty.attemptAll entries) entry with ⟨_, hFault⟩ | ⟨_, hStored⟩
  · cases hFault.symm.trans hRefused
    rfl
  · cases hStored.symm.trans hRefused

end ScriptBackend.NativeDatabase
