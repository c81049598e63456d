import Mathlib.Data.List.Induction
import Mathlib.Data.List.Nodup
import ScriptBackend.Proofs.NativeTable

/-!
Runs of calls on a native table. Whether natives are included or used, the table
holds the hashes of the calls in the order of their first calls, as many of them
as there are indices; so what a call answers can be read off the calls before
it, and what it answered stays true after all later ones.
-/
namespace ScriptBackend.NativeTable

/-- What a table is asked: to include a native that it must not have yet, or to
give the index of one that is used. -/
inductive Call where
  | add (hash : UInt64)
  | addOrGet (hash : UInt64)

namespace Call

def hash : Call → UInt64
  | .add hash => hash
  | .addOrGet hash => hash

def known (index : Nat) : Call → Except NativeTableFault Nat
  | .add hash => .error (.duplicate hash)
  | .addOrGet _ => .ok index

end Call

def call (natives : NativeTable) : Call → Except NativeTableFault Nat × NativeTable
  | .add hash => natives.add hash
  | .addOrGet hash => natives.addOrGet hash

/-- The table after calls, one behind the other. -/
def callAll (natives : NativeTable) (calls : List Call) : NativeTable :=
  calls.foldl (fun natives call => (natives.call call).2) natives

/-! One call -/

section

variable {natives : NativeTable} {asked : Call} {index : Nat}

theorem call_known (h : natives.index? asked.hash = some index) :
    natives.call asked = (asked.known index, natives) := by
  cases asked with
  | add hash => simp only [call, add, show natives.index? hash = some index from h, Call.known]
  | addOrGet hash =>
      simp only [call, addOrGet, show natives.index? hash = some index from h, Call.known]

/-- A new hash is put behind the others, by whichever call. -/
theorem call_new (h : natives.index? asked.hash = none) :
    natives.call asked = natives.append asked.hash := by
  cases asked with
  | add hash => simp only [call, add, show natives.index? hash = none from h, Call.hash]
  | addOrGet hash => simp only [call, addOrGet, show natives.index? hash = none from h, Call.hash]

/-- What a call can do: its hash is there already, meets a full table, or gets
the next index. -/
theorem call_cases (natives : NativeTable) (asked : Call) :
    (∃ index, natives.hashes[index]? = some asked.hash ∧
      natives.call asked = (asked.known index, natives)) ∨
      (asked.hash ∉ natives.hashes ∧ limit ≤ natives.hashes.length ∧
        natives.call asked = (.error .full, natives)) ∨
      (asked.hash ∉ natives.hashes ∧ natives.hashes.length < limit ∧
        ∃ next : NativeTable, next.hashes = natives.hashes ++ [asked.hash] ∧
          natives.call asked = (.ok natives.hashes.length, next)) := by
  cases hKnown : natives.index? asked.hash with
  | some index => exact .inl ⟨index, index?_eq_some_iff.mp hKnown, call_known hKnown⟩
  | none =>
      have hNew := index?_eq_none_iff.mp hKnown
      rw [call_new hKnown, length_hashes]
      rcases Nat.lt_or_ge natives.size limit with hRoom | hFull
      · exact .inr (.inr ⟨hNew, hRoom, _, hashes_insertNew hKnown, append_room hRoom⟩)
      · exact .inr (.inl ⟨hNew, hFull, append_full hFull⟩)

/-- A call adds its hash if it is new, as long as there are indices. -/
theorem hashes_call (asked : Call) (hSize : natives.hashes.length ≤ limit) :
    (natives.call asked).2.hashes =
      (natives.hashes ++ [asked.hash].removeAll natives.hashes).take limit := by
  rw [removeAll_singleton]
  rcases call_cases natives asked with ⟨_, hPlace, hCall⟩ | ⟨hNew, hFull, hCall⟩
      | ⟨hNew, hRoom, next, hNext, hCall⟩
  · rw [hCall, if_pos (List.mem_of_getElem? hPlace), List.append_nil, List.take_of_length_le hSize]
  · rw [hCall, if_neg hNew, List.take_append_of_le_length hFull, List.take_of_length_le hSize]
  · rw [hCall, if_neg hNew, hNext, List.take_of_length_le]
    rw [List.length_append, List.length_singleton]
    exact hRoom

/-- No call moves a hash. -/
theorem prefix_call (natives : NativeTable) (asked : Call) :
    natives.hashes <+: (natives.call asked).2.hashes := by
  rcases call_cases natives asked with ⟨_, _, hCall⟩ | ⟨_, _, hCall⟩ | ⟨_, _, next, hNext, hCall⟩
  · simp only [hCall, List.prefix_rfl]
  · simp only [hCall, List.prefix_rfl]
  · rw [hCall, hNext]
    exact List.prefix_append ..

/-- What a call answers is the index of its hash from then on. -/
theorem getElem?_call (h : (natives.call asked).1 = .ok index) :
    (natives.call asked).2.hashes[index]? = some asked.hash := by
  rcases call_cases natives asked with ⟨_, hPlace, hCall⟩ | ⟨_, _, hCall⟩
      | ⟨_, _, next, hNext, hCall⟩ <;>
    rw [hCall] at h ⊢
  · cases asked with
    | add hash => cases h
    | addOrGet hash =>
        cases h
        exact hPlace
  · cases h
  · cases h
    rw [hNext, List.getElem?_concat_length]

/-- A native is refused as a duplicate exactly when it must be new and is there. -/
theorem call_duplicate_iff {hash : UInt64} :
    (natives.call asked).1 = .error (.duplicate hash) ↔
    asked = .add hash ∧ hash ∈ natives.hashes := by
  rcases call_cases natives asked with ⟨_, hPlace, hCall⟩ | ⟨hNew, _, hCall⟩
      | ⟨hNew, _, next, _, hCall⟩ <;> rw [hCall]
  · have hMem := List.mem_of_getElem? hPlace
    cases asked with
    | add other =>
        constructor
        · rintro ⟨⟩
          exact ⟨rfl, hMem⟩
        · rintro ⟨⟨⟩, -⟩
          rfl
    | addOrGet other => exact ⟨nofun, nofun⟩
  · exact ⟨nofun, fun h => absurd (h.1 ▸ h.2) hNew⟩
  · exact ⟨nofun, fun h => absurd (h.1 ▸ h.2) hNew⟩

/-- A call meets a full table exactly when its hash is new and no index is left. -/
theorem call_full_iff (hSize : natives.hashes.length ≤ limit) :
    (natives.call asked).1 = .error .full ↔
    asked.hash ∉ natives.hashes ∧ natives.hashes.length = limit := by
  rcases call_cases natives asked with ⟨_, hPlace, hCall⟩ | ⟨hNew, hFull, hCall⟩
      | ⟨hNew, hRoom, next, _, hCall⟩ <;>
    rw [hCall]
  · refine ⟨fun h => ?_, fun h => absurd (List.mem_of_getElem? hPlace) h.1⟩
    cases asked <;> cases h
  · exact ⟨fun _ => ⟨hNew, Nat.le_antisymm hSize hFull⟩, fun _ => rfl⟩
  · exact ⟨nofun, fun h => absurd h.2 (Nat.ne_of_lt hRoom)⟩

/-- A call that fails changes nothing. -/
theorem call_error {fault : NativeTableFault} (h : (natives.call asked).1 = .error fault) :
    (natives.call asked).2 = natives := by
  rcases call_cases natives asked with ⟨_, _, hCall⟩ | ⟨_, _, hCall⟩
      | ⟨_, _, next, _, hCall⟩ <;> rw [hCall] at h ⊢
  cases h

end

/-! Runs of calls -/

theorem callAll_append (natives : NativeTable) (first second : List Call) :
    natives.callAll (first ++ second) = (natives.callAll first).callAll second :=
  List.foldl_append

theorem callAll_concat (natives : NativeTable) (calls : List Call) (asked : Call) :
    natives.callAll (calls ++ [asked]) = ((natives.callAll calls).call asked).2 :=
  callAll_append ..

theorem hashes_empty : empty.hashes = [] := by
  simp [hashes, Table.keys, empty, Table.empty]

/-- After a run the table holds the hashes of the calls in the order of their
first calls, until it is full. -/
theorem hashes_callAll (calls : List Call) :
    (empty.callAll calls).hashes = (calls.map Call.hash).eraseDups.take limit := by
  induction calls using List.reverseRecOn with
  | nil => simp [callAll, hashes_empty]
  | append_singleton init last ih =>
      have hSize : (empty.callAll init).hashes.length ≤ limit := ih ▸ List.length_take_le ..
      have hSingle : ([last.hash].removeAll (init.map Call.hash)).eraseDups =
          [last.hash].removeAll (init.map Call.hash).eraseDups := by
        simp only [removeAll_singleton, List.mem_eraseDups]
        split <;> rfl
      rw [callAll_concat, hashes_call last hSize, ih, List.map_append, List.map_singleton,
        List.eraseDups_append, hSingle]
      generalize (init.map Call.hash).eraseDups = known
      rcases Nat.le_total known.length limit with hRoom | hFull
      · rw [List.take_of_length_le hRoom]
      · -- the table has been full before, so what comes behind does not count
        have hLength : limit ≤ (known.take limit).length :=
          Nat.le_of_eq (List.length_take_of_le hFull).symm
        rw [List.take_append_of_le_length hLength, List.take_append_of_le_length hFull,
          List.take_take, Nat.min_self]

theorem length_callAll_le (calls : List Call) : (empty.callAll calls).hashes.length ≤ limit :=
  hashes_callAll calls ▸ List.length_take_le ..

theorem prefix_callAll (natives : NativeTable) (calls : List Call) :
    natives.hashes <+: (natives.callAll calls).hashes := by
  induction calls generalizing natives with
  | nil => exact List.prefix_rfl
  | cons first rest ih => exact (prefix_call natives first).trans (ih _)

/-- The rotation as 32-bit numbers give it: what wraps around is a multiple of
64. -/
theorem nativeRotation_eq_wrapping (index : Nat) (codeLength : UInt32) :
    nativeRotation index codeLength.toNat = ((UInt32.ofNat index + codeLength) &&& 0x3F).toNat := by
  rw [UInt32.toNat_and, show (0x3F : UInt32).toNat = 2 ^ 6 - 1 from rfl,
    Nat.and_two_pow_sub_one_eq_mod, UInt32.toNat_add, UInt32.toNat_ofNat', nativeRotation]
  omega

/-- What a call behind others is answered, and what it does to the table. -/
structure Answered (earlier : List Call) (asked : Call) : Prop where
  /-- The index, of which 16 bits are kept, is the place of the hash, whatever
  is called later. -/
  index : ∀ index, ((empty.callAll earlier).call asked).1 = .ok index → ∀ later,
    (empty.callAll (earlier ++ asked :: later)).hashes[(UInt16.ofNat index).toNat]? =
      some asked.hash
  duplicate : ∀ hash, ((empty.callAll earlier).call asked).1 = .error (.duplicate hash) ↔
    asked = .add hash ∧ hash ∈ (empty.callAll earlier).hashes
  full : ((empty.callAll earlier).call asked).1 = .error .full ↔
    asked.hash ∉ (empty.callAll earlier).hashes ∧ (empty.callAll earlier).hashes.length = limit
  unchanged : ∀ fault, ((empty.callAll earlier).call asked).1 = .error fault →
    ((empty.callAll earlier).call asked).2 = empty.callAll earlier

theorem answered (earlier : List Call) (asked : Call) : Answered earlier asked := by
  refine ⟨fun index hOk later => ?_, fun hash => call_duplicate_iff,
    call_full_iff (length_callAll_le earlier), fun fault => call_error⟩
  have hPlace := getElem?_call hOk
  rw [← callAll_concat] at hPlace
  have hInside := (List.getElem?_eq_some_iff.mp hPlace).1
  have hBound : index < 2 ^ 16 := Nat.lt_of_lt_of_le hInside (length_callAll_le _)
  obtain ⟨rest, hRest⟩ := prefix_callAll (empty.callAll (earlier ++ [asked])) later
  rw [UInt16.toNat_ofNat_of_lt' hBound, List.append_cons, callAll_append, ← hRest,
    List.getElem?_append_left hInside, hPlace]

/-- Whatever calls a table has seen, it holds different hashes, no more than
there are indices, in the order of their first calls; a further call gets the
place of its hash or one of two refusals, which change nothing; and turning back
what a script stores, by 32-bit numbers, gives the hashes again. -/
theorem calls_answered (calls : List Call) :
    (empty.callAll calls).hashes.Nodup ∧ (empty.callAll calls).hashes.length ≤ limit ∧
      (empty.callAll calls).hashes = (calls.map Call.hash).eraseDups.take limit ∧
      (∀ asked, Answered calls asked) ∧
      ∀ (codeLength : UInt32) (index : Nat),
        ((empty.callAll calls).rotated codeLength.toNat)[index]?.map (fun hash =>
          rotateLeft hash ((UInt32.ofNat index + codeLength) &&& 0x3F).toNat) =
        (empty.callAll calls).hashes[index]? := by
  refine ⟨nodup_hashes _, length_callAll_le calls, hashes_callAll calls, answered calls,
    fun codeLength index => ?_⟩
  rw [← nativeRotation_eq_wrapping]
  exact getElem?_rotated ..

/-- The calls that use as many natives as there are indices. -/
def fillingCalls : List Call :=
  (List.range limit).map fun n => .addOrGet (UInt64.ofNat n)

theorem eraseDups_of_nodup {hashes : List UInt64} (h : hashes.Nodup) :
    hashes.eraseDups = hashes := by
  induction hashes with
  | nil => rfl
  | cons first rest ih =>
      rw [List.nodup_cons] at h
      have hOther : rest.filter (fun other => !other == first) = rest :=
        List.filter_eq_self.mpr fun other hMem => by
          rw [Bool.not_eq_true', beq_eq_false_iff_ne]
          exact fun hSame => h.1 (hSame ▸ hMem)
      rw [List.eraseDups_cons, hOther, ih h.2]

/-- A table that is full refuses a hash that is new, and refuses to include one
that it has. -/
theorem calls_answered_full :
    (empty.callAll fillingCalls).hashes.length = limit ∧
      ((empty.callAll fillingCalls).call (.addOrGet 0xFFFFFFFFFFFFFFFF)).1 = .error .full ∧
      ((empty.callAll fillingCalls).call (.add 0)).1 = .error (.duplicate 0) := by
  obtain ⟨_, _, hHashes, hAnswered, _⟩ := calls_answered fillingCalls
  have hMap : fillingCalls.map Call.hash = (List.range limit).map UInt64.ofNat := List.map_map
  have hSmall : ∀ n ∈ List.range limit, (UInt64.ofNat n).toNat = n := fun n hn =>
    UInt64.toNat_ofNat_of_lt' (Nat.lt_trans (List.mem_range.mp hn) (by decide))
  have hNodup : ((List.range limit).map UInt64.ofNat).Nodup := by
    refine List.Nodup.map_on (fun n hn m hm hSame => ?_) List.nodup_range
    rw [← hSmall n hn, hSame, hSmall m hm]
  rw [hMap, eraseDups_of_nodup hNodup, List.take_of_length_le (by simp)] at hHashes
  have hFull : (empty.callAll fillingCalls).hashes.length = limit := by simp [hHashes]
  refine ⟨hFull, (hAnswered _).full.mpr ⟨fun hMem => ?_, hFull⟩,
    ((hAnswered _).duplicate 0).mpr ⟨rfl, ?_⟩⟩
  · rw [hHashes] at hMem
    obtain ⟨n, hn, hSame⟩ := List.mem_map.mp hMem
    have hLarge : n = 0xFFFFFFFFFFFFFFFF := (hSmall n hn).symm.trans (congrArg UInt64.toNat hSame)
    have hLess : n < 0x10000 := List.mem_range.mp hn
    omega
  · rw [hHashes]
    exact List.mem_map.mpr ⟨0, List.mem_range.mpr (by decide), rfl⟩

end ScriptBackend.NativeTable
