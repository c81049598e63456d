import ScriptBackend.Instruction.Listing
import ScriptBackend.Proofs.Bytes

/-!
Decoding undoes encoding. Instructions whose operand bytes can be read are cut
out of their bytes as they were, and a walk over the bytes of a chain of them,
each beginning where the one before it ends, finds the chain. Code with padding
is such a chain.
-/
namespace ScriptBackend

namespace Opcode

set_option maxRecDepth 1000 in
/-- The instructions are listed in the order of their bytes. -/
theorem ctorIdx_all : all.map Opcode.ctorIdx = List.range 127 :=
  rfl

/-- A byte begins the instruction that is written with it. -/
theorem ofByte?_eq_some_iff {byte : UInt8} {opcode : Opcode} :
    ofByte? byte = some opcode ↔ opcode.toByte = byte := by
  have hOrder : ∀ position : Nat, all[position]?.map Opcode.ctorIdx =
      (List.range 127)[position]? := fun position => by
    rw [← ctorIdx_all, List.getElem?_map]
  rw [ofByte?, table, List.getElem?_toArray, toByte]
  constructor
  · intro h
    have hPlace := hOrder byte.toNat
    rw [h, Option.map_some, eq_comm, List.getElem?_eq_some_iff] at hPlace
    obtain ⟨_, hIndex⟩ := hPlace
    rw [← hIndex, List.getElem_range, UInt8.ofNat_toNat]
  · rintro rfl
    have hBound : opcode.ctorIdx < 127 := by cases opcode <;> decide
    have hPlace := hOrder opcode.ctorIdx
    rw [List.getElem?_range hBound, Option.map_eq_some_iff] at hPlace
    obtain ⟨found, hFound, hIndex⟩ := hPlace
    rw [UInt8.toNat_ofNat', Nat.mod_eq_of_lt (by omega), hFound, ← ofNat_ctorIdx found,
      hIndex, ofNat_ctorIdx]

/-- Every instruction is found by its byte. -/
theorem ofByte?_toByte (opcode : Opcode) : ofByte? opcode.toByte = some opcode :=
  ofByte?_eq_some_iff.mpr rfl

/-- Each opcode stands in the table, so a search in it misses none. -/
theorem mem_all (opcode : Opcode) : opcode ∈ all := by
  have hByte := ofByte?_toByte opcode
  rw [ofByte?, table] at hByte
  exact List.mem_toArray.mp (Array.mem_of_getElem? hByte)

theorem format_eq_enter_iff {opcode : Opcode} : opcode.format = .enter ↔ opcode = .enter := by
  cases opcode <;> decide

theorem format_eq_switch_iff {opcode : Opcode} : opcode.format = .switch ↔ opcode = .switch := by
  cases opcode <;> decide

end Opcode

namespace OperandValues

variable {bytes : List UInt8}

theorem read?_word (h : bytes.length = 4) :
    read? .word bytes = some (.word (UInt32.ofNat (Bytes.ofLittle bytes))) :=
  match bytes, h with
  | [_, _, _, _], _ => rfl

theorem read?_float (h : bytes.length = 4) :
    read? .float bytes = some (.float ⟨UInt32.ofNat (Bytes.ofLittle bytes)⟩) :=
  match bytes, h with
  | [_, _, _, _], _ => rfl

theorem read?_signed16 (h : bytes.length = 2) :
    read? .signed16 bytes = some (.signed16 (Bytes.signed16 (Bytes.ofLittle bytes))) :=
  match bytes, h with
  | [_, _], _ => rfl

theorem read?_unsigned16 (h : bytes.length = 2) :
    read? .unsigned16 bytes = some (.unsigned16 (Bytes.ofLittle bytes)) :=
  match bytes, h with
  | [_, _], _ => rfl

theorem read?_relative (h : bytes.length = 2) :
    read? .relative bytes = some (.relative (Bytes.signed16 (Bytes.ofLittle bytes))) :=
  match bytes, h with
  | [_, _], _ => rfl

theorem read?_call (h : bytes.length = 3) :
    read? .call bytes = some (.call (Bytes.ofLittle bytes)) :=
  match bytes, h with
  | [_, _, _], _ => rfl

theorem read?_unsigned24 (h : bytes.length = 3) :
    read? .unsigned24 bytes = some (.unsigned24 (Bytes.ofLittle bytes)) :=
  match bytes, h with
  | [_, _, _], _ => rfl

/-- The bytes of a frame are a number of parameters, the size of the frame, and
a name with its length in front. -/
theorem read?_enter {parameters length : UInt8} {frame stored : List UInt8}
    (hFrame : frame.length = 2) (hStored : stored.length = length.toNat) :
    read? .enter (parameters :: (frame ++ length :: stored)) =
      some (.enter parameters.toNat (Bytes.ofLittle frame) (frameName stored)) :=
  match frame, hFrame with
  | [_, _], _ => if_pos hStored

/-- The bytes of a branch are the number of its cases and then the cases. -/
theorem read?_switch {count : UInt8} {entries : List UInt8} {cases : List (UInt32 × Int)}
    (hEntries : readCases entries = some cases) (hCount : cases.length = count.toNat) :
    read? .switch (count :: entries) = some (.switch cases) := by
  have hRead : read? .switch (count :: entries) = (readCases entries).bind fun cases =>
      if cases.length = count.toNat then some (.switch cases) else .none := rfl
  rw [hRead, hEntries, Option.bind_some, if_pos hCount]

/-- An entry of a branch in front of others. -/
theorem readCases_append {value distance : List UInt8} (rest : List UInt8)
    (hValue : value.length = 4) (hDistance : distance.length = 2) :
    readCases (value ++ distance ++ rest) =
      (readCases rest).map fun cases =>
        (UInt32.ofNat (Bytes.ofLittle value), Bytes.signed16 (Bytes.ofLittle distance)) :: cases :=
  match value, distance, hValue, hDistance with
  | [_, _, _, _], [_, _], _, _ => rfl

/-- Cases are read six bytes at a time, and nothing is left over. -/
theorem length_of_readCases {cases : List (UInt32 × Int)} (h : readCases bytes = some cases) :
    bytes.length = 6 * cases.length := by
  induction bytes using readCases.induct generalizing cases with
  | case1 =>
      cases h
      rfl
  | case2 v0 v1 v2 v3 d0 d1 rest ih =>
      rw [readCases, Option.map_eq_some_iff] at h
      obtain ⟨others, hOthers, rfl⟩ := h
      simp only [List.length_cons, ih hOthers]
      omega
  | case3 bytes hEmpty hEntry =>
      unfold readCases at h
      split at h
      · exact absurd rfl hEmpty
      · exact absurd rfl (hEntry _ _ _ _ _ _ _)
      · cases h

/-- A format of a fixed size is read from exactly that many bytes. -/
theorem length_of_read? {format : OperandFormat} {values : OperandValues} {count : Nat}
    (h : read? format bytes = some values) (hFormat : format.size? = some count) :
    bytes.length = count := by
  unfold read? at h
  split at h <;> simp_all [OperandFormat.size?]

/-- A distance is a number of 16 bits with a sign, forwards or backwards. -/
theorem relative_of_read? {values : OperandValues} (h : read? .relative bytes = some values) :
    ∃ distance, values = .relative distance ∧ -0x8000 ≤ distance ∧ distance < 0x8000 :=
  match bytes, length_of_read? h rfl, h with
  | [_, _], _, rfl => ⟨_, rfl, Bytes.signed16_range rfl⟩

theorem word_of_read? {values : OperandValues} (h : read? .word bytes = some values) :
    ∃ value, values = .word value :=
  match bytes, length_of_read? h rfl, h with
  | [_, _, _, _], _, rfl => ⟨_, rfl⟩

theorem call_of_read? {values : OperandValues} (h : read? .call bytes = some values) :
    ∃ target, values = .call target :=
  match bytes, length_of_read? h rfl, h with
  | [_, _, _], _, rfl => ⟨_, rfl⟩

theorem unsigned24_of_read? {values : OperandValues} (h : read? .unsigned24 bytes = some values) :
    ∃ value, values = .unsigned24 value :=
  match bytes, length_of_read? h rfl, h with
  | [_, _, _], _, rfl => ⟨_, rfl⟩

theorem enter_of_read? {values : OperandValues} (h : read? .enter bytes = some values) :
    ∃ parameters frame name, values = .enter parameters frame name := by
  match bytes, h with
  | _ :: _ :: _ :: _ :: _, h =>
      obtain ⟨_, hValues⟩ := Option.ite_none_right_eq_some.mp h
      exact ⟨_, _, _, (Option.some.inj hValues).symm⟩

theorem range_of_readCases {cases : List (UInt32 × Int)} (h : readCases bytes = some cases) :
    ∀ entry ∈ cases, -0x8000 ≤ entry.2 ∧ entry.2 < 0x8000 := by
  induction bytes using readCases.induct generalizing cases with
  | case1 =>
      cases h
      simp
  | case2 v0 v1 v2 v3 d0 d1 rest ih =>
      rw [readCases, Option.map_eq_some_iff] at h
      obtain ⟨others, hOthers, rfl⟩ := h
      intro entry hEntry
      rcases List.mem_cons.mp hEntry with rfl | hLater
      · exact Bytes.signed16_range rfl
      · exact ih hOthers entry hLater
  | case3 bytes hEmpty hEntry =>
      unfold readCases at h
      split at h
      · exact absurd rfl hEmpty
      · exact absurd rfl (hEntry _ _ _ _ _ _ _)
      · cases h

/-- The distances of cases are numbers of 16 bits with a sign, as those of jumps
are. -/
theorem switch_of_read? {values : OperandValues} (h : read? .switch bytes = some values) :
    ∃ cases, values = .switch cases ∧
      ∀ entry ∈ cases, -0x8000 ≤ entry.2 ∧ entry.2 < 0x8000 := by
  match bytes, h with
  | count :: entries, h =>
      obtain ⟨cases, hEntries, hCount⟩ := Option.bind_eq_some_iff.mp h
      split at hCount
      · cases hCount
        exact ⟨cases, rfl, range_of_readCases hEntries⟩
      · cases hCount

/-- Only the call of a native has an index. -/
theorem format_of_native {format : OperandFormat} {arguments returns index : Nat}
    (h : read? format bytes = some (.native arguments returns index)) : format = .native := by
  unfold read? at h
  split at h
  all_goals first
    | rfl
    | cases h
    | skip
  · split at h <;> cases h
  · obtain ⟨cases, _, hCases⟩ := Option.bind_eq_some_iff.mp h
    split at hCases <;> cases hCases

end OperandValues

namespace Instruction

/-- The size of an instruction follows from its operand bytes, whatever comes
behind them. -/
theorem size?_of_read? {opcode : Opcode} {bytes : List UInt8} {values : OperandValues}
    (h : OperandValues.read? opcode.format bytes = some values) (rest : List UInt8) :
    size? opcode (bytes ++ rest) = some (bytes.length + 1) := by
  unfold size? Opcode.fixedSize?
  cases hFormat : opcode.format with
  | enter =>
      rw [hFormat] at h
      match bytes, h with
      | parameters :: f0 :: f1 :: length :: stored, h =>
          obtain ⟨hLength, _⟩ := Option.ite_none_right_eq_some.mp h
          simp [OperandFormat.size?, Opcode.format_eq_enter_iff.mp hFormat, ← hLength]
          omega
  | switch =>
      have hOpcode := Opcode.format_eq_switch_iff.mp hFormat
      rw [hFormat] at h
      match bytes, h with
      | count :: entries, h =>
          obtain ⟨cases, hEntries, hCount⟩ := Option.bind_eq_some_iff.mp h
          split at hCount
          · next hCount =>
              rw [hOpcode, List.length_cons, OperandValues.length_of_readCases hEntries]
              simp [OperandFormat.size?, Opcode.switchSize]
              omega
          · cases hCount
  | _ =>
      rw [hFormat] at h
      rw [OperandValues.length_of_read? h rfl]
      rfl

/-- An instruction in front of any bytes is read as it was. -/
theorem decodeFirst_bytes {instruction : Instruction} {values : OperandValues}
    (h : instruction.operands? = some values) (rest : List UInt8) :
    decodeFirst instruction.address (instruction.bytes ++ rest) = .ok instruction := by
  have hSize := size?_of_read? h rest
  have hOpcode := instruction.opcode.ofByte?_toByte
  unfold bytes decodeFirst
  simp only [List.cons_append, hOpcode, hSize, Nat.add_sub_cancel, List.take_left, Nat.lt_irrefl,
    if_false]

theorem endAddress_mk {address size : Nat} {opcode : Opcode} {bytes : List UInt8}
    (h : bytes.length + 1 = size) : endAddress ⟨address, opcode, bytes⟩ = address + size :=
  congrArg (address + ·) h

/-- Instructions from one address to another, each of which begins where the one
before it ends. -/
def Chained : Nat → List Instruction → Nat → Prop
  | start, [], finish => start = finish
  | start, instruction :: rest, finish =>
    instruction.address = start ∧ Chained instruction.endAddress rest finish

/-- Instructions from one address to a second one, and from there to a third
one, reach from the first to the third. -/
theorem Chained.append {first second : List Instruction} {start middle finish : Nat}
    (h : Chained start first middle) (hNext : Chained middle second finish) :
    Chained start (first ++ second) finish := by
  induction first generalizing start with
  | nil =>
      cases h
      exact hNext
  | cons instruction rest ih => exact ⟨h.1, ih h.2⟩

theorem Chained.le_address {instructions : List Instruction} {start finish : Nat}
    (h : Chained start instructions finish) :
    ∀ instruction ∈ instructions, start ≤ instruction.address := by
  induction instructions generalizing start with
  | nil => simp
  | cons first rest ih =>
      obtain ⟨rfl, hRest⟩ := h
      intro instruction hMem
      rcases List.mem_cons.mp hMem with rfl | hLater
      · exact Nat.le_refl _
      · exact Nat.le_trans (Nat.le_add_right _ _) (ih hRest instruction hLater)

/-- Instructions of a chain stand one behind the other. -/
theorem Chained.pairwise_address {instructions : List Instruction} {start finish : Nat}
    (h : Chained start instructions finish) : (instructions.map address).Pairwise (· < ·) := by
  induction instructions generalizing start with
  | nil => exact .nil
  | cons first rest ih =>
      obtain ⟨rfl, hRest⟩ := h
      refine .cons (fun later hLater => ?_) (ih hRest)
      obtain ⟨instruction, hMem, rfl⟩ := List.mem_map.mp hLater
      exact Nat.lt_of_lt_of_le (Nat.lt_add_of_pos_right (Nat.succ_pos _))
        (hRest.le_address instruction hMem)

/-- No instruction of a chain ends behind the end of the chain. -/
theorem Chained.endAddress_le {instructions : List Instruction} {start finish : Nat}
    (h : Chained start instructions finish) :
    start ≤ finish ∧ ∀ instruction ∈ instructions, instruction.endAddress ≤ finish := by
  induction instructions generalizing start with
  | nil => exact ⟨Nat.le_of_eq h, by simp⟩
  | cons first rest ih =>
      obtain ⟨rfl, hRest⟩ := h
      obtain ⟨hEnd, hOthers⟩ := ih hRest
      exact ⟨Nat.le_trans (Nat.le_add_right _ _) hEnd, List.forall_mem_cons.mpr ⟨hEnd, hOthers⟩⟩

/-- At the address of an instruction of a chain stands its opcode. -/
theorem Chained.getElem?_bytes {instructions : List Instruction} {start finish : Nat}
    (h : Chained start instructions finish) {instruction : Instruction}
    (hMem : instruction ∈ instructions) :
    (instructions.flatMap bytes)[instruction.address - start]? =
      some instruction.opcode.toByte := by
  induction instructions generalizing start with
  | nil => cases hMem
  | cons first rest ih =>
      obtain ⟨rfl, hRest⟩ := h
      rcases List.mem_cons.mp hMem with rfl | hLater
      · rw [Nat.sub_self]
        rfl
      · have hAddress : first.address + first.size ≤ instruction.address :=
          hRest.le_address instruction hLater
        have hLength : first.bytes.length = first.size := rfl
        rw [List.flatMap_cons, List.getElem?_append_right (by omega), hLength, Nat.sub_sub]
        exact ih hRest hLater

/-- A walk over the bytes of a chain finds its instructions. -/
theorem walk_flatMap_bytes {instructions found : List Instruction} {start finish : Nat}
    (h : Chained start instructions finish)
    (hRead : ∀ instruction ∈ instructions, ∃ values, instruction.operands? = some values) :
    Disassembly.walk start (instructions.flatMap bytes) found =
      ⟨found.reverse ++ instructions, none⟩ := by
  induction instructions generalizing start found with
  | nil =>
      rw [Disassembly.walk]
      simp
  | cons instruction rest ih =>
      obtain ⟨values, hValues⟩ := hRead instruction (by simp)
      have hFirst := decodeFirst_bytes hValues (rest.flatMap bytes)
      obtain ⟨rfl, hRest⟩ := h
      have hDrop : (instruction.bytes ++ rest.flatMap bytes).drop instruction.size =
          rest.flatMap bytes := List.drop_left
      rw [List.flatMap_cons, Disassembly.walk, dif_neg (by simp [bytes])]
      simp only [hFirst, hDrop]
      rw [ih hRest fun other hOther => hRead other (by simp [hOther])]
      simp

/-- Instructions that do nothing, from an address on. -/
def nops : Nat → Nat → List Instruction
  | _, 0 => []
  | address, count + 1 => ⟨address, .nop, []⟩ :: nops (address + 1) count

theorem chained_nops (start count : Nat) : Chained start (nops start count) (start + count) := by
  induction count generalizing start with
  | zero => rfl
  | succ count ih =>
      refine ⟨rfl, ?_⟩
      rw [show start + (count + 1) = start + 1 + count by omega]
      exact ih (start + 1)

/-- Padding is made of single bytes, each of them the opcode that does nothing. -/
theorem flatMap_bytes_nops (start count : Nat) :
    (nops start count).flatMap bytes = List.replicate count Opcode.nop.toByte := by
  induction count generalizing start with
  | zero => rfl
  | succ count ih =>
      rw [nops, List.flatMap_cons, ih]
      rfl

theorem of_mem_nops {start count : Nat} {instruction : Instruction}
    (h : instruction ∈ nops start count) :
    instruction.opcode = .nop ∧ instruction.operandBytes = [] := by
  induction count generalizing start with
  | zero => cases h
  | succ count ih =>
      rcases List.mem_cons.mp h with rfl | hRest
      · exact ⟨rfl, rfl⟩
      · exact ih hRest

theorem operands?_of_mem_nops {start count : Nat} {instruction : Instruction}
    (h : instruction ∈ nops start count) : instruction.operands? = some .none := by
  obtain ⟨hOpcode, hBytes⟩ := of_mem_nops h
  rw [operands?, hOpcode, hBytes]
  rfl

theorem size_of_mem_nops {start count : Nat} {instruction : Instruction}
    (h : instruction ∈ nops start count) : instruction.size = 1 := by
  rw [size, (of_mem_nops h).2]
  rfl

/-- Instructions with the gaps between them filled. -/
def padded : Nat → List Instruction → List Instruction
  | _, [] => []
  | position, instruction :: rest =>
    nops position (instruction.address - position) ++
      instruction :: padded instruction.endAddress rest

@[simp] theorem padded_nil (position : Nat) : padded position [] = [] :=
  rfl

/-- The gap in front of an instruction is filled, and the rest is padded from
its end on. -/
theorem padded_cons (position : Nat) (instruction : Instruction) (rest : List Instruction) :
    padded position (instruction :: rest) =
      nops position (instruction.address - position) ++
        instruction :: padded instruction.endAddress rest :=
  rfl

/-- A chain has no gaps. -/
theorem padded_of_chained {instructions : List Instruction} {start finish : Nat}
    (h : Chained start instructions finish) : padded start instructions = instructions := by
  induction instructions generalizing start with
  | nil => rfl
  | cons first rest ih =>
      obtain ⟨rfl, hRest⟩ := h
      rw [padded_cons, ih hRest, Nat.sub_self]
      rfl

theorem mem_padded {start : Nat} {instructions : List Instruction} {instruction : Instruction}
    (h : instruction ∈ instructions) : instruction ∈ padded start instructions := by
  induction instructions generalizing start with
  | nil => cases h
  | cons first rest ih =>
      rw [padded_cons, List.mem_append, List.mem_cons]
      rcases List.mem_cons.mp h with rfl | hLater
      · exact .inr (.inl rfl)
      · exact .inr (.inr (ih hLater))

/-- An instruction of padded code is one of those given, or one of the padding. -/
theorem operands?_of_mem_padded {start : Nat} {instructions : List Instruction}
    (hRead : ∀ instruction ∈ instructions, ∃ values, instruction.operands? = some values) :
    ∀ instruction ∈ padded start instructions, ∃ values, instruction.operands? = some values := by
  induction instructions generalizing start with
  | nil => simp
  | cons instruction rest ih =>
      intro other hOther
      rcases List.mem_append.mp hOther with hPadding | hRest
      · exact ⟨.none, operands?_of_mem_nops hPadding⟩
      · rcases List.mem_cons.mp hRest with rfl | hRest
        · exact hRead other (by simp)
        · exact ih (fun later hLater => hRead later (by simp [hLater])) other hRest

end Instruction

theorem Instruction.address_of_decodeFirst {address : Nat} {code : List UInt8}
    {instruction : Instruction}
    (h : decodeFirst address code = .ok instruction) : instruction.address = address := by
  unfold decodeFirst at h
  split at h
  · cases h
  · split at h
    · cases h
    · split at h
      · cases h
      · dsimp only at h
        split at h <;> cases h
        rfl

/-- What a walk finds is what stands in the code. -/
theorem Disassembly.decodeFirst_of_mem_walk {address : Nat} {code : List UInt8}
    {found : List Instruction}
    {instruction : Instruction} (h : instruction ∈ (walk address code found).instructions) :
    instruction ∈ found ∨ address ≤ instruction.address ∧
      Instruction.decodeFirst instruction.address (code.drop (instruction.address - address)) =
        .ok instruction := by
  induction address, code, found using walk.induct with
  | case1 address code found hEmpty =>
      rw [walk, dif_pos hEmpty] at h
      exact .inl (List.mem_reverse.mp h)
  | case2 address code found hSome fault hFault =>
      rw [walk, dif_neg hSome, hFault] at h
      exact .inl (List.mem_reverse.mp h)
  | case3 address code found hSome first hFirst ih =>
      rw [walk, dif_neg hSome, hFirst] at h
      have hAddress := Instruction.address_of_decodeFirst hFirst
      rcases ih h with hFound | ⟨hLow, hDecoded⟩
      · rcases List.mem_cons.mp hFound with rfl | hOld
        · rw [hAddress, Nat.sub_self]
          exact .inr ⟨Nat.le_refl _, hFirst⟩
        · exact .inl hOld
      · unfold Instruction.endAddress at hLow hDecoded
        rw [List.drop_drop, hAddress] at hDecoded
        have hSame : first.size + (instruction.address - (address + first.size)) =
            instruction.address - address := by omega
        rw [hSame] at hDecoded
        exact .inr ⟨by omega, hDecoded⟩

/-- At the address of every instruction of code that instruction is read. -/
theorem Disassembly.decodeAt_of_mem {code : List UInt8} {instruction : Instruction}
    (h : instruction ∈ (ofCode code).instructions) :
    Instruction.decodeAt code instruction.address = .ok instruction := by
  rcases decodeFirst_of_mem_walk h with hNone | ⟨_, hDecoded⟩
  · cases hNone
  · exact hDecoded

end ScriptBackend
