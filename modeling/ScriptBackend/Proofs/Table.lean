import ScriptBackend.StringPages
import ScriptBackend.Table

/-!
What lookups find in tables and string pages. A stored key keeps its value
whatever is stored later, so every table is described by one equation about
lookups after an insertion.
-/
namespace ScriptBackend

namespace Table

variable {κ ν : Type} [Ord κ]

/-- The position of a key is where its entry stands. -/
theorem position?_eq_some_iff {table : Table κ ν} {key : κ} {i : Nat} :
    table.position? key = some i ↔ table.entries[i]?.map Prod.fst = some key :=
  table.position_iff key i

/-- A lookup finds exactly the entries that are stored. -/
theorem find?_eq_some_iff {table : Table κ ν} {key : κ} {value : ν} :
    table.find? key = some value ↔ ∃ i : Nat, table.entries[i]? = some (key, value) := by
  simp only [find?, Option.bind_eq_some_iff, position?_eq_some_iff, Option.map_eq_some_iff]
  constructor
  · intro hFound
    obtain ⟨i, ⟨first, hFirst, rfl⟩, second, hSecond, rfl⟩ := hFound
    rw [hFirst, Option.some.injEq] at hSecond
    exact ⟨i, by rw [hFirst, hSecond]⟩
  · intro hFound
    obtain ⟨i, h⟩ := hFound
    exact ⟨i, ⟨_, h, rfl⟩, _, h, rfl⟩

theorem contains_eq_isSome_find? (table : Table κ ν) (key : κ) :
    table.contains key = (table.find? key).isSome := by
  cases hp : table.position? key with
  | none => simp [contains, find?, hp]
  | some i =>
      have hEntry := position?_eq_some_iff.mp hp
      cases he : table.entries[i]? with
      | none => simp [he] at hEntry
      | some entry => simp [contains, find?, hp, he]

/-- The keys are those that the table contains. -/
theorem mem_keys_iff {table : Table κ ν} {key : κ} :
    key ∈ table.keys ↔ table.contains key = true := by
  simp only [keys, List.mem_map, Array.mem_toList_iff, Array.mem_iff_getElem?,
    contains_eq_isSome_find?, Option.isSome_iff_exists, find?_eq_some_iff]
  constructor
  · intro hFound
    obtain ⟨⟨_, value⟩, ⟨i, h⟩, rfl⟩ := hFound
    exact ⟨value, i, h⟩
  · intro hFound
    obtain ⟨value, i, h⟩ := hFound
    exact ⟨(key, value), ⟨i, h⟩, rfl⟩

/-- No key is stored twice. -/
theorem nodup_keys (table : Table κ ν) : table.keys.Nodup := by
  rw [List.nodup_iff_pairwise_ne, List.pairwise_iff_getElem]
  intro i j hi hj hLess hSame
  have hKey : ∀ k (hk : k < table.keys.length), table.position? table.keys[k] = some k := by
    intro k hk
    have hSize : k < table.entries.size := by simpa [keys] using hk
    exact position?_eq_some_iff.mpr (by simp [keys, hSize])
  have hPosition := hKey i hi
  rw [hSame, hKey j hj, Option.some.injEq] at hPosition
  omega

variable [Std.TransOrd κ]

@[simp] theorem find?_empty (key : κ) : (empty : Table κ ν).find? key = none := by
  cases h : (empty : Table κ ν).find? key with
  | none => rfl
  | some value =>
      obtain ⟨i, hi⟩ := find?_eq_some_iff.mp h
      simp [empty] at hi

@[simp] theorem contains_empty (key : κ) : (empty : Table κ ν).contains key = false := by
  simp [contains_eq_isSome_find?]

variable [Std.LawfulEqOrd κ]

/-- A key that is present keeps its place and its value. -/
theorem insertNew_known {table : Table κ ν} {key : κ} (value : ν)
    (h : table.contains key = true) : table.insertNew key value = table := by
  unfold insertNew
  split
  · rfl
  · next hFresh => simp [contains, position?, hFresh] at h

/-- A new key gets the next place. -/
theorem insertNew_fresh {table : Table κ ν} {key : κ} (value : ν)
    (h : table.contains key = false) :
    (table.insertNew key value).entries = table.entries.push (key, value) := by
  unfold insertNew
  split
  · next i hKnown => simp [contains, position?, hKnown] at h
  · rfl

/-- A lookup after an insertion finds what was there, and only then the new
value. -/
theorem find?_insertNew [DecidableEq κ] (table : Table κ ν) (key other : κ) (value : ν) :
    (table.insertNew key value).find? other =
      (table.find? other).or (if other = key then some value else none) := by
  cases hKey : table.contains key with
  | true =>
      rw [insertNew_known value hKey]
      by_cases he : other = key
      · subst he
        rw [contains_eq_isSome_find?, Option.isSome_iff_exists] at hKey
        obtain ⟨known, hKnown⟩ := hKey
        simp [hKnown]
      · simp [he]
  | false =>
      have hEntries := insertNew_fresh (ν := ν) value hKey
      have hAbsent : table.find? key = none := by
        simpa [contains_eq_isSome_find?] using hKey
      ext found
      rw [find?_eq_some_iff, hEntries]
      by_cases he : other = key
      · subst he
        simp only [hAbsent, Option.none_or, if_true, Option.some.injEq, Array.getElem?_push]
        constructor
        · intro hFound
          obtain ⟨i, hi⟩ := hFound
          split at hi
          · simpa using hi
          · rw [find?_eq_some_iff.mpr ⟨i, hi⟩] at hAbsent
            cases hAbsent
        · rintro rfl
          exact ⟨table.entries.size, by simp⟩
      · simp only [if_neg he, Option.or_none, find?_eq_some_iff, Array.getElem?_push]
        constructor
        · intro hFound
          obtain ⟨i, hi⟩ := hFound
          split at hi
          · simp only [Option.some.injEq, Prod.mk.injEq] at hi
            exact absurd hi.1.symm he
          · exact ⟨i, hi⟩
        · intro hFound
          obtain ⟨i, hi⟩ := hFound
          have hBound : i < table.entries.size := (Array.getElem?_eq_some_iff.mp hi).1
          exact ⟨i, by rw [if_neg (Nat.ne_of_lt hBound), hi]⟩

/-- Insertion adds one key and keeps the others. -/
theorem contains_insertNew [DecidableEq κ] (table : Table κ ν) (key other : κ) (value : ν) :
    (table.insertNew key value).contains other = (table.contains other || other = key) := by
  rw [contains_eq_isSome_find?, contains_eq_isSome_find?, find?_insertNew]
  by_cases he : other = key <;> simp [he]

/-- Many keys with one value: a lookup finds what was there, and only then that
value. -/
theorem find?_foldl_insertNew [DecidableEq κ] (names : List κ) (table : Table κ ν) (value : ν)
    (other : κ) :
    (names.foldl (fun known name => known.insertNew name value) table).find? other =
      (table.find? other).or (if other ∈ names then some value else none) := by
  induction names generalizing table with
  | nil => simp
  | cons name rest ih =>
      rw [List.foldl_cons, ih, find?_insertNew, Option.or_assoc]
      by_cases he : other = name <;> simp [he]

end Table

namespace StringPages

/-- Every literal of the first pages has the same offset on the second. -/
def Keeps (before after : StringPages) : Prop :=
  ∀ text offset, before.offset? text = some offset → after.offset? text = some offset

theorem Keeps.refl (pages : StringPages) : pages.Keeps pages :=
  fun _ _ h => h

theorem Keeps.trans {first second third : StringPages} (h : first.Keeps second)
    (hNext : second.Keeps third) : first.Keeps third :=
  fun text offset hText => hNext text offset (h text offset hText)

/-- Storing a literal moves none that is stored already. -/
theorem keeps_intern (pages : StringPages) (text : String) :
    pages.Keeps (pages.intern text).2 := by
  intro other offset hOther
  simp only [offset?] at hOther ⊢
  unfold intern
  split
  · exact hOther
  · next hFresh =>
      dsimp only
      split
      · exact hOther
      · have hne : text ≠ other := by
          rintro rfl
          rw [hFresh] at hOther
          cases hOther
        simpa [Std.TreeMap.getElem?_insert, hne] using hOther

end StringPages
end ScriptBackend
