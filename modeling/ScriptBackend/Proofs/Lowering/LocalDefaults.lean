import ScriptBackend.Proofs.Machine.Statements

/-!
Locals without an initializer. The code of their declaration leaves the defaults
of their type in a frame that is zero at first, though it stores no zeros.
-/
namespace ScriptBackend.Lowering

open ScriptBackend.Assembly

/-- All bits of a word are zero if it is one of two zeros; a text or an address
never counts as zero. -/
theorem Datum.isZero_iff {word : Datum} :
    word.isZero = true ↔ word = .int 0 ∨ word = .float Binary32.zero := by
  cases word <;> simp [Datum.isZero]

namespace Machine

variable {machine : Machine} {position offset : Nat} {stack : List Word} {memory : Memory}

theorem word_of_isZero {word : Datum} (h : word.isZero = true) : machine.word word = .zero := by
  rcases Datum.isZero_iff.mp h with rfl | rfl <;> rfl

/-- Words that are zero need not be written where memory is zero. -/
theorem written_zeros {words : List Datum} (hZero : ∀ word ∈ words, word.isZero = true)
    (hClear : ∀ i < words.length, memory (position + i) = .zero) :
    written memory position (words.map machine.word) = memory := by
  refine written_eq_self fun i found hFound => ?_
  rw [List.getElem?_map] at hFound
  obtain ⟨word, hWord, rfl⟩ := Option.map_eq_some_iff.mp hFound
  rw [hClear i (List.getElem?_eq_some_iff.mp hWord).1,
    word_of_isZero (hZero word (List.mem_of_getElem? hWord))]

/-- A word goes to an offset from the address on top. -/
theorem runs_storeWord (word : Datum) (hOffset : offset < 0x80000000)
    (hFits : position + offset < addressLimit) :
    machine.Runs (storeWord offset word) ⟨addressOf position :: stack, memory⟩
      ⟨addressOf position :: stack, written memory (position + offset) [machine.word word]⟩ := by
  have hCopy : machine.Runs [plain "DUP"] ⟨addressOf position :: stack, memory⟩
      ⟨addressOf position :: addressOf position :: stack, memory⟩ :=
        .motion (motion?_plain .dup) rfl
  have hMove := @Execution.atOffset machine machine.plainly (addressOf position)
    (addressOf position :: stack) memory offset (by omega)
  rw [moved_addressOf position hOffset] at hMove
  have hPush := @Execution.pushData machine machine.plainly
    ⟨addressOf (position + offset) :: addressOf position :: stack, memory⟩ [word]
  have hStore : machine.Runs [plain "STORE_REV"]
      ⟨machine.word word :: addressOf (position + offset) :: addressOf position :: stack, memory⟩
      ⟨addressOf (position + offset) :: addressOf position :: stack,
        written memory (addressOf (position + offset)).position [machine.word word]⟩ :=
    .motion (motion?_plain .storeRev) rfl
  rw [position_addressOf hFits] at hStore
  have hDrop : machine.Runs [plain "DROP"]
      ⟨addressOf (position + offset) :: addressOf position :: stack,
        written memory (position + offset) [machine.word word]⟩
      ⟨addressOf position :: stack, written memory (position + offset) [machine.word word]⟩ :=
    .motion (motion?_plain .drop) rfl
  exact ((hCopy.cons hMove).append hPush).append (hStore.cons hDrop)

/-- Where memory is zero, the words that are not are all that has to be stored. -/
theorem runs_storeWords {words : List Datum} (hOffset : offset + words.length ≤ 0x80000000)
    (hFits : position + offset + words.length ≤ addressLimit)
    (hClear : ∀ i < words.length, memory (position + offset + i) = .zero) :
    machine.Runs (storeWords offset words) ⟨addressOf position :: stack, memory⟩
      ⟨addressOf position :: stack,
        written memory (position + offset) (words.map machine.word)⟩ := by
  induction words generalizing offset memory with
  | nil =>
      rw [List.map_nil, written_nil]
      exact .nil _
  | cons word rest ih =>
      rw [List.length_cons] at hOffset hFits hClear
      have hRest :=
        @ih (offset + 1) (written memory (position + offset) [machine.word word])
        (by omega) (by omega) fun i hi => by
          rw [written_of_ge (by simp; omega)]
          have hNext := hClear (i + 1) (by omega)
          rwa [Nat.add_comm i 1, ← Nat.add_assoc] at hNext
      rw [← Nat.add_assoc, written_cons] at hRest
      rw [storeWords, List.map_cons]
      refine Runs.append ?_ hRest
      split
      · next hWord =>
          have hFirst : ∀ i < [word].length, memory (position + offset + i) = .zero :=
            fun i hi => hClear i (by simp at hi; omega)
          have hSame := @written_zeros machine _ memory [word] (by simpa using hWord) hFirst
          rw [List.map_singleton] at hSame
          rw [hSame]
          exact .nil _
      · exact runs_storeWord word (by omega) (by omega)

/-- In a frame that is zero, the code of defaults leaves the words of the
defaults. -/
theorem runs_storeDefaults {words : List Datum} {slot : Slot} (hLength : words.length ≤ 0x80000000)
    (hFits : machine.bases.frame + slot.index + words.length ≤ addressLimit)
    (hClear : ∀ i < words.length, memory (machine.bases.frame + slot.index + i) = .zero)
    (name : String) :
    machine.Runs (storeDefaults name slot words) ⟨stack, memory⟩
      ⟨stack, written memory (machine.bases.frame + slot.index) (words.map machine.word)⟩ := by
  unfold storeDefaults
  split
  · next hAll =>
      rw [written_zeros (List.all_eq_true.mp hAll) hClear]
      exact .nil _
  · have hIndex : slot.index < 2 ^ 63 := by
      unfold addressLimit at hFits
      omega
    have hLocal : machine.Runs
        [commented ("defaults of " ++ name) (counted "LOCAL" [slot.index])] ⟨stack, memory⟩
        ⟨addressOf (machine.bases.frame + slot.index) :: stack, memory⟩ :=
      @Execution.slot machine machine.plainly _ .locate ⟨stack, memory⟩ _ ⟨.locals, slot.index⟩ rfl
        hIndex rfl fun _ => trivial
    have hStored :=
      @runs_storeWords machine (machine.bases.frame + slot.index) 0 stack memory words (by omega)
      hFits hClear
    have hDrop : ∀ memory : Memory, machine.Runs [plain "DROP"]
        ⟨addressOf (machine.bases.frame + slot.index) :: stack, memory⟩ ⟨stack, memory⟩ :=
      fun _ => .motion (motion?_plain .drop) rfl
    exact hLocal.cons (hStored.append (hDrop _))

end Machine

/-- The code of defaults is empty exactly if all words are zero. -/
theorem storeDefaults_eq_nil {name : String} {slot : Slot} {words : List Datum} :
    storeDefaults name slot words = [] ↔ ∀ word ∈ words, word = .int 0 ∨
    word = .float Binary32.zero := by
  simp only [← Datum.isZero_iff, ← List.all_eq_true]
  unfold storeDefaults
  split
  · next hAll => exact iff_of_true rfl hAll
  · next hSome => exact iff_of_false (List.cons_ne_nil _ _) hSome

/-- A local that is declared without an initializer. -/
structure Environment.DeclaresBare (environment : Environment) (id : Nat)
    (declared : Variable) (slot : Slot) : Prop where
  declaration : environment.declaration id = .ok declared
  placed : environment.slots.slot environment.program id = .ok slot
  isValue : declared.ty.isRef = false
  uninitialized : declared.initializer = none

/-- The code of the declaration of a local without an initializer leaves the
default words of its type in the words of the local if these are zero at first,
and changes nothing else. It is empty exactly if all default words are zero.
Frames, whose sizes have 16 bits, are never as large as the distances that
instructions move addresses by. -/
theorem declare_leaves_defaults {environment : Environment} {id n m : Nat} {code : Code}
    {declared : Variable} {slot : Slot} (hDeclares : environment.DeclaresBare id declared slot)
    (h : (declare environment id).run n = .ok (code, m)) :
    ∃ words, defaultWords environment.toSetting declared.ty = .ok words ∧
      (code = [] ↔ ∀ word ∈ words, word = .int 0 ∨ word = .float Binary32.zero) ∧
      ∀ (machine : Machine) (stack : List Word) (memory : Memory), words.length ≤ 0x80000000 →
        machine.bases.frame + slot.index + words.length ≤ addressLimit →
        (∀ i < words.length, memory (machine.bases.frame + slot.index + i) = .zero) →
        machine.Runs code ⟨stack, memory⟩
          ⟨stack, written memory (machine.bases.frame + slot.index) (words.map machine.word)⟩ := by
  obtain ⟨_, hDeclared, h⟩ := run_lift_bind_eq_ok.mp h
  obtain ⟨_, hPlaced, h⟩ := run_lift_bind_eq_ok.mp h
  cases hDeclared.symm.trans hDeclares.declaration
  cases hPlaced.symm.trans hDeclares.placed
  simp only [hDeclares.isValue, hDeclares.uninitialized, Bool.false_eq_true, if_false] at h
  obtain ⟨words, hWords, h⟩ := run_lift_bind_eq_ok.mp h
  obtain ⟨rfl, rfl⟩ := run_pure_eq_ok.mp h
  exact ⟨words, hWords, storeDefaults_eq_nil, fun machine stack memory hLength hFits hClear =>
    Machine.runs_storeDefaults hLength hFits hClear declared.name⟩

/-- Inside of a function with a local of two structs, whose fields begin as a
negative zero, a text, a zero and the address of the function. -/
def nestedEnvironment : Environment where
  program := ⟨"p", none, none,
    #[⟨"S", [⟨"f", .float, some (.ofFloat ⟨0x80000000⟩)⟩, ⟨"t", .string, some (.ofText "hi")⟩,
      ⟨"z", .int, none⟩, ⟨"g", .functionPointer 0, some (.ofFunction 0 0)⟩]⟩],
    #[⟨"G", [], .void⟩], #[⟨"a", .array (.struct 0) 2, .placed .locals, none⟩],
    #[⟨"MAIN", [], .void, [.declare 0]⟩], #[]⟩
  sizes := ⟨#[], #[4], #[true]⟩
  slots := ⟨#[some ⟨.locals, 2⟩], #[⟨0, 9, 0, 0, #[0]⟩], [], [], [], 0, 0, 0⟩
  natives := NativeDatabase.empty
  frame := ⟨0, 9, 0, 0, #[0]⟩

/-- The length is stored and all fields but the one that is zero. -/
theorem declare_leaves_defaults_nested :
    nestedEnvironment.DeclaresBare 0 ⟨"a", .array (.struct 0) 2,
      .placed .locals, none⟩ ⟨.locals, 2⟩ ∧
    ∃ code, (declare nestedEnvironment 0).run 0 = .ok (code, 0) ∧ code ≠ [] ∧
      ∀ (machine : Machine) (stack : List Word), machine.bases.frame = 0x10000 →
        machine.Runs code ⟨stack, fun _ => .zero⟩
          ⟨stack, written (fun _ => .zero) 0x10002
            [.ofInt 2, .ofFloat ⟨0x80000000⟩, machine.texts "hi", .zero, machine.names "MAIN",
              .ofFloat ⟨0x80000000⟩, machine.texts "hi", .zero, machine.names "MAIN"]⟩ := by
  have hDeclares : nestedEnvironment.DeclaresBare 0 ⟨"a", .array (.struct 0) 2,
      .placed .locals, none⟩ ⟨.locals, 2⟩ := ⟨rfl, rfl, rfl, rfl⟩
  have hCode : ∃ code, (declare nestedEnvironment 0).run 0 = .ok (code, 0) := ⟨_, rfl⟩
  obtain ⟨code, hCode⟩ := hCode
  obtain ⟨words, hWords, hEmpty, hRuns⟩ := declare_leaves_defaults hDeclares hCode
  have hDefaults : defaultWords nestedEnvironment.toSetting (.array (.struct 0) 2) =
      .ok [.int 2, .float ⟨0x80000000⟩, .text "hi", .int 0, .address "MAIN", .float ⟨0x80000000⟩,
        .text "hi", .int 0, .address "MAIN"] := rfl
  cases hWords.symm.trans hDefaults
  refine ⟨hDeclares, code, hCode, fun hNone => ?_, fun machine stack hFrame => ?_⟩
  · rcases hEmpty.mp hNone (.text "hi") (by simp) with hInt | hFloat
    · cases hInt
    · cases hFloat
  · have hLeft := hRuns machine stack (fun _ => .zero)
    rw [hFrame] at hLeft
    exact hLeft (by decide) (by decide) fun _ _ => rfl

end ScriptBackend.Lowering
