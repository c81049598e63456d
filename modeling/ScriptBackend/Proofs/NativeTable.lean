import ScriptBackend.NativeTable
import ScriptBackend.Proofs.Table

/-!
The native table step by step: a hash that gets an entry stands behind those
before it, which keep their indices, and a hash that gets none was there already
or met a full table. Rotating the hashes back gives the table again.
-/
namespace ScriptBackend

/-- Turning back what was turned gives it again. -/
theorem rotateLeft_rotateRight (hash : UInt64) (amount : Nat) :
    rotateLeft (rotateRight hash amount) amount = hash := by
  have hBits : (hash.toBitVec.rotateRight amount).rotateLeft amount = hash.toBitVec := by
    ext i hi
    rw [BitVec.getElem_rotateLeft]
    split
    · rw [BitVec.getElem_rotateRight, dif_neg (by omega)]
      congr 1
      omega
    · rw [BitVec.getElem_rotateRight, dif_pos (by omega)]
      congr 1
      omega
  rw [rotateLeft, rotateRight, hBits]

namespace NativeTable

variable {natives next : NativeTable} {hash : UInt64} {index : Nat} {fault : NativeTableFault}

theorem length_hashes (natives : NativeTable) : natives.hashes.length = natives.size := by
  simp [hashes, Table.keys, size, Table.size]

/-- The index of a hash is its place in the table. -/
theorem index?_eq_some_iff :
    natives.index? hash = some index ↔ natives.hashes[index]? = some hash := by
  rw [index?, Table.position?_eq_some_iff, hashes, Table.keys, List.getElem?_map,
    Array.getElem?_toList]

/-- No hash is stored twice, since the table looks each of them up first. -/
theorem nodup_hashes (natives : NativeTable) : natives.hashes.Nodup :=
  natives.table.nodup_keys

/-- Rotating back finds the hashes again, however long the code is. -/
theorem getElem?_rotated (natives : NativeTable) (codeLength index : Nat) :
    (natives.rotated codeLength)[index]?.map
    (fun hash => rotateLeft hash (nativeRotation index codeLength)) =
      natives.hashes[index]? := by
  rw [rotated, List.getElem?_mapIdx, Option.map_map]
  have hBack : (fun hash => rotateLeft hash (nativeRotation index codeLength)) ∘
      (fun hash => rotateRight hash (nativeRotation index codeLength)) = id :=
    funext fun hash => rotateLeft_rotateRight hash _
  rw [hBack, Option.map_id, id]

/-- The hashes that have an index are those in the table. -/
theorem mem_hashes : hash ∈ natives.hashes ↔ (natives.index? hash).isSome = true :=
  Table.mem_keys_iff

/-- A hash has no index exactly when it is not stored. -/
theorem index?_eq_none_iff : natives.index? hash = none ↔ hash ∉ natives.hashes := by
  rw [mem_hashes, Option.not_isSome_iff_eq_none]

theorem contains_eq_false (hFresh : natives.index? hash = none) :
    natives.table.contains hash = false := by
  rw [Table.contains, ← index?, hFresh]
  rfl

/-- A new hash gets the next index, and the others keep theirs. -/
theorem index?_insertNew (hFresh : natives.index? hash = none) :
    (∀ other index, natives.index? other = some index →
        (⟨natives.table.insertNew hash ()⟩ : NativeTable).index? other = some index) ∧
      (⟨natives.table.insertNew hash ()⟩ : NativeTable).index? hash = some natives.size := by
  have hEntries := Table.insertNew_fresh () (contains_eq_false hFresh)
  constructor
  · intro other index hIndex
    rw [NativeTable.index?, Table.position?_eq_some_iff] at hIndex ⊢
    obtain ⟨entry, hEntry, _⟩ := Option.map_eq_some_iff.mp hIndex
    have hBound := (Array.getElem?_eq_some_iff.mp hEntry).1
    rw [hEntries, Array.getElem?_push, if_neg (by omega), hIndex]
  · rw [NativeTable.index?, Table.position?_eq_some_iff, hEntries, Array.getElem?_push]
    exact congrArg (Option.map Prod.fst) (if_pos rfl)

/-- A new hash stands behind the others. -/
theorem hashes_insertNew (hFresh : natives.index? hash = none) :
    (⟨natives.table.insertNew hash ()⟩ : NativeTable).hashes = natives.hashes ++ [hash] := by
  rw [hashes, Table.keys, Table.insertNew_fresh () (contains_eq_false hFresh),
    Array.toList_push, List.map_append]
  rfl

/-- A full table refuses the hash and stays as it is. -/
theorem append_full (h : limit ≤ natives.size) : natives.append hash = (.error .full, natives) :=
  if_pos h

/-- A table with room gives the hash the next index. -/
theorem append_room (h : natives.size < limit) :
    natives.append hash = (.ok natives.size, ⟨natives.table.insertNew hash ()⟩) :=
  if_neg (Nat.not_le.mpr h)

/-- A hash only gets an entry where an index is left for it. -/
theorem append_ok (h : natives.append hash = (.ok index, next)) :
    index = natives.size ∧ natives.size < limit ∧ next = ⟨natives.table.insertNew hash ()⟩ := by
  rcases Nat.lt_or_ge natives.size limit with hRoom | hFull
  · rw [append_room hRoom] at h
    cases h
    exact ⟨rfl, hRoom, rfl⟩
  · rw [append_full hFull] at h
    cases h

theorem length_append_le (h : natives.append hash = (.ok index, next))
    (hFresh : natives.index? hash = none) :
    next.hashes.length ≤ limit := by
  obtain ⟨_, hRoom, rfl⟩ := append_ok h
  rw [hashes_insertNew hFresh, List.length_append, List.length_singleton, length_hashes]
  exact hRoom

/-- Only a full table has no room for a hash. -/
theorem append_error (h : natives.append hash = (.error fault, next)) : fault = .full := by
  rcases Nat.lt_or_ge natives.size limit with hRoom | hFull
  · rw [append_room hRoom] at h
    cases h
  · rw [append_full hFull] at h
    cases h
    rfl

/-- After an append only the hash of it has an index besides those before. -/
theorem index?_append (h : natives.append hash = (.ok index, next)) (other : UInt64)
    (hOther : (next.index? other).isSome) : (natives.index? other).isSome ∨ other = hash := by
  obtain ⟨_, _, rfl⟩ := append_ok h
  have hContains := Table.contains_insertNew natives.table hash other ()
  rw [Table.contains, Table.contains] at hContains
  rw [NativeTable.index?, hContains] at hOther
  simpa [NativeTable.index?] using hOther

/-- Only a native that was not included before is, at the end of the table. -/
theorem append_of_add (h : natives.add hash = (.ok index, next)) :
    natives.index? hash = none ∧ natives.append hash = (.ok index, next) := by
  unfold add at h
  split at h
  · cases h
  · next hFresh => exact ⟨hFresh, h⟩

/-- A native that is included gets an index, and the others keep theirs. -/
theorem add_ok (h : natives.add hash = (.ok index, next)) :
    (∀ other index, natives.index? other = some index → next.index? other = some index) ∧
      next.index? hash = some index := by
  obtain ⟨hFresh, hAppend⟩ := append_of_add h
  obtain ⟨rfl, _, rfl⟩ := append_ok hAppend
  exact index?_insertNew hFresh

/-- A native that is included stands behind the others. -/
theorem hashes_add (h : natives.add hash = (.ok index, next)) :
    next.hashes = natives.hashes ++ [hash] := by
  obtain ⟨hFresh, hAppend⟩ := append_of_add h
  obtain ⟨_, _, rfl⟩ := append_ok hAppend
  exact hashes_insertNew hFresh

/-- Insertion does not exceed the limit. -/
theorem length_add_le (h : natives.add hash = (.ok index, next)) : next.hashes.length ≤ limit :=
  have ⟨hFresh, hAppend⟩ := append_of_add h
  length_append_le hAppend hFresh

/-- A native that cannot be included was included before, or met a full table. -/
theorem add_error (h : natives.add hash = (.error fault, next)) :
    fault = .duplicate hash ∧ hash ∈ natives.hashes ∨ fault = .full := by
  unfold add at h
  split at h
  · next found hFound =>
      cases h
      exact .inl ⟨rfl, mem_hashes.mpr (by rw [hFound]; rfl)⟩
  · exact .inr (append_error h)

/-- What a hash adds to hashes in which none comes twice. -/
theorem removeAll_singleton (hash : UInt64) (hashes : List UInt64) :
    [hash].removeAll hashes = if hash ∈ hashes then [] else [hash] := by
  by_cases h : hash ∈ hashes <;> simp [List.removeAll, h]

/-- A native that is used is in the table from then on. It stands behind the
others if it is new. -/
theorem addOrGet_ok (h : natives.addOrGet hash = (.ok index, next)) :
    next.hashes = natives.hashes ++ [hash].removeAll natives.hashes ∧
    next.hashes[index]? = some hash := by
  unfold addOrGet at h
  split at h
  · next found hFound =>
      cases h
      have hPlace := index?_eq_some_iff.mp hFound
      exact ⟨by rw [removeAll_singleton, if_pos (List.mem_of_getElem? hPlace), List.append_nil],
        hPlace⟩
  · next hFresh =>
      obtain ⟨rfl, _, rfl⟩ := append_ok h
      have hPlace := index?_eq_some_iff.mp (index?_insertNew hFresh).2
      exact ⟨by rw [removeAll_singleton, if_neg (index?_eq_none_iff.mp hFresh),
        hashes_insertNew hFresh], hPlace⟩

/-- A native that is used gets its index in the table that is being filled. -/
theorem addOrGet_of_prefix {total : List UInt64} (hTotal : total.Nodup)
    (hPrefix : natives.hashes ++ [hash].removeAll natives.hashes <+: total)
    (hIndex : total[index]? = some hash) (hBound : index < limit) :
    ∃ next, natives.addOrGet hash = (.ok index, next) ∧
      next.hashes = natives.hashes ++ [hash].removeAll natives.hashes := by
  -- no other place of the whole table has the hash
  have hOnly : ∀ place, (natives.hashes ++ [hash].removeAll natives.hashes)[place]? = some hash →
      place = index := by
    intro place hPlace
    have hSame : total[place]? = total[index]? := by
      obtain ⟨rest, rfl⟩ := hPrefix
      rw [hIndex, List.getElem?_append_left (List.getElem?_eq_some_iff.mp hPlace).1, hPlace]
    rw [hIndex] at hSame
    exact (List.getElem?_inj (List.getElem?_eq_some_iff.mp hSame).1 hTotal).mp
      (hSame.trans hIndex.symm)
  unfold addOrGet
  cases hKnown : natives.index? hash with
  | some found =>
      have hFound := index?_eq_some_iff.mp hKnown
      have hNone : [hash].removeAll natives.hashes = [] := by
        rw [removeAll_singleton, if_pos (List.mem_of_getElem? hFound)]
      rw [hNone, List.append_nil] at hOnly ⊢
      exact ⟨natives, by rw [hOnly found hFound], rfl⟩
  | none =>
      have hOne : [hash].removeAll natives.hashes = [hash] := by
        rw [removeAll_singleton, if_neg (index?_eq_none_iff.mp hKnown)]
      rw [hOne] at hOnly ⊢
      have hSize := hOnly natives.size (by rw [← length_hashes, List.getElem?_concat_length])
      refine ⟨⟨natives.table.insertNew hash ()⟩, ?_, hashes_insertNew hKnown⟩
      rw [append_room (hSize ▸ hBound), hSize]

/-- Neither an insertion nor a reuse exceeds the limit. -/
theorem length_addOrGet_le (h : natives.addOrGet hash = (.ok index, next))
    (hSize : natives.hashes.length ≤ limit) :
    next.hashes.length ≤ limit := by
  unfold addOrGet at h
  split at h
  · cases h
    exact hSize
  · next hFresh => exact length_append_le h hFresh

/-- A hash that gets an entry on its first use can only meet a full table. -/
theorem addOrGet_error (h : natives.addOrGet hash = (.error fault, next)) : fault = .full := by
  unfold addOrGet at h
  split at h
  · cases h
  · exact append_error h

end NativeTable
end ScriptBackend
