import ScriptBackend.Proofs.Instruction.Decoding

/-!
Decoding takes any bytes apart. An instruction is read where its bytes stand and
hold what its format asks for, so that no operand is looked for behind its end.
A walk over code of any kind ends, and what it finds are the bytes in front of
the place where it ends, one instruction behind the other.
-/
namespace ScriptBackend

namespace OperandValues

/-- Six bytes for each case are cases. -/
theorem exists_readCases {bytes : List UInt8} {count : Nat} (h : bytes.length = 6 * count) :
    ∃ cases, readCases bytes = some cases ∧ cases.length = count := by
  induction count generalizing bytes with
  | zero =>
      obtain rfl := List.length_eq_zero_iff.mp h
      exact ⟨[], rfl, rfl⟩
  | succ count ih =>
      match bytes, h with
      | _ :: _ :: _ :: _ :: _ :: _ :: rest, h =>
          have hRest : rest.length = 6 * count := by
            simp only [List.length_cons] at h
            omega
          obtain ⟨cases, hCases, hLength⟩ := ih hRest
          exact ⟨_ :: cases, by rw [readCases, hCases]; rfl, congrArg (· + 1) hLength⟩

/-- Bytes are values of a format that has as many. -/
theorem exists_read?_of_size? {format : OperandFormat} {bytes : List UInt8}
    (h : format.size? = some bytes.length) :
    ∃ values, read? format bytes = some values := by
  have hLength : ∀ count, format.size? = some count → bytes.length = count := fun count hCount =>
    Option.some.inj (h.symm.trans hCount)
  match format, hLength with
  | .none, hLength => match bytes, hLength 0 rfl with | [], _ => exact ⟨_, rfl⟩
  | .byte, hLength => match bytes, hLength 1 rfl with | [_], _ => exact ⟨_, rfl⟩
  | .twoBytes, hLength => match bytes, hLength 2 rfl with | [_, _], _ => exact ⟨_, rfl⟩
  | .threeBytes, hLength => match bytes, hLength 3 rfl with | [_, _, _], _ => exact ⟨_, rfl⟩
  | .word, hLength => exact ⟨_, read?_word (hLength 4 rfl)⟩
  | .float, hLength => exact ⟨_, read?_float (hLength 4 rfl)⟩
  | .native, hLength => match bytes, hLength 3 rfl with | [_, _, _], _ => exact ⟨_, rfl⟩
  | .signed16, hLength => exact ⟨_, read?_signed16 (hLength 2 rfl)⟩
  | .unsigned16, hLength => exact ⟨_, read?_unsigned16 (hLength 2 rfl)⟩
  | .relative, hLength => exact ⟨_, read?_relative (hLength 2 rfl)⟩
  | .call, hLength => exact ⟨_, read?_call (hLength 3 rfl)⟩
  | .unsigned24, hLength => exact ⟨_, read?_unsigned24 (hLength 3 rfl)⟩
  | .enter, _ => cases h
  | .switch, _ => cases h

end OperandValues

namespace Instruction

/-- The operands of an instruction have the size that it is found to have. -/
theorem exists_read?_of_sized {opcode : Opcode} {rest : List UInt8} {size : Nat}
    (h : size? opcode rest = some size) (hInside : size - 1 ≤ rest.length) :
    ∃ values, OperandValues.read? opcode.format (rest.take (size - 1)) = some values := by
  have hLength : (rest.take (size - 1)).length = size - 1 := List.length_take_of_le hInside
  unfold size? Opcode.fixedSize? at h
  cases hFormat : opcode.format with
  | enter =>
      rw [hFormat, Opcode.format_eq_enter_iff.mp hFormat] at h
      dsimp only [OperandFormat.size?, Option.map_none] at h
      rw [if_pos rfl] at h
      obtain ⟨length, hStored, rfl⟩ := Option.map_eq_some_iff.mp h
      match rest, hStored with
      | parameters :: f0 :: f1 :: _ :: stored, rfl =>
          have hSize : 5 + length.toNat - 1 = length.toNat + 4 := by omega
          rw [hSize, List.length_cons, List.length_cons, List.length_cons,
            List.length_cons] at hInside
          rw [hSize]
          have hFrame : [f0, f1].length = 2 := rfl
          exact ⟨_, OperandValues.read?_enter hFrame (List.length_take_of_le (by omega))⟩
  | switch =>
      have hOther : opcode ≠ .enter := by rw [Opcode.format_eq_switch_iff.mp hFormat]; decide
      rw [hFormat] at h
      dsimp only [OperandFormat.size?, Option.map_none] at h
      rw [if_neg hOther] at h
      obtain ⟨count, hCount, rfl⟩ := Option.map_eq_some_iff.mp h
      match rest, hCount with
      | _ :: entries, rfl =>
          have hSize : Opcode.switchSize count.toNat - 1 = 6 * count.toNat + 1 := by
            unfold Opcode.switchSize
            omega
          rw [hSize, List.length_cons] at hInside
          rw [hSize]
          have hTaken : (entries.take (6 * count.toNat)).length = 6 * count.toNat :=
            List.length_take_of_le (by omega)
          obtain ⟨cases, hCases, hLength⟩ := OperandValues.exists_readCases hTaken
          exact ⟨_, OperandValues.read?_switch hCases hLength⟩
  | _ =>
      rw [hFormat] at h
      cases h
      exact OperandValues.exists_read?_of_size? (by rw [hLength]; rfl)

/-- An instruction is read in front of code if its bytes stand there and its
operands are whole. -/
theorem decodeFirst_eq_ok_iff {address : Nat} {code : List UInt8} {instruction : Instruction} :
    decodeFirst address code = .ok instruction ↔
      instruction.address = address ∧ instruction.bytes <+: code ∧ ∃ values,
      instruction.operands? = some values := by
  constructor
  · intro h
    unfold decodeFirst at h
    split at h
    · cases h
    · next byte rest =>
        split at h
        · cases h
        · next opcode hOpcode =>
            split at h
            · cases h
            · next size hSize =>
                dsimp only at h
                split at h
                · cases h
                · next hLong =>
                    cases h
                    have hInside : size - 1 ≤ rest.length := by
                      rw [List.length_take] at hLong
                      omega
                    refine ⟨rfl, ?_, exists_read?_of_sized hSize hInside⟩
                    rw [bytes, Opcode.ofByte?_eq_some_iff.mp hOpcode, List.cons_prefix_cons]
                    exact ⟨rfl, List.take_prefix _ _⟩
  · rintro ⟨rfl, ⟨rest, rfl⟩, values, hValues⟩
    exact decodeFirst_bytes hValues rest

/-- Bytes of a piece of code from a position on, if it has them. -/
def slice? (bytes : List UInt8) (start count : Nat) : Option (List UInt8) :=
  if start + count ≤ bytes.length then some ((bytes.drop start).take count) else none

/-- The case of a branch behind others, by the positions of its bytes. -/
def caseAt? (bytes : List UInt8) (i : Nat) : Option (UInt32 × Int) := do
  let value ← slice? bytes (2 + 6 * i) 4
  let distance ← slice? bytes (2 + 6 * i + 4) 2
  return (UInt32.ofNat (Bytes.ofLittle value), Bytes.signed16 (Bytes.ofLittle distance))

/-- The operands of an instruction, looked up by their positions in its bytes. A
position behind the last byte has nothing. -/
def fetched? (instruction : Instruction) : Option OperandValues :=
  let bytes := instruction.bytes
  match instruction.opcode.format with
  | .none => some .none
  | .byte => (slice? bytes 1 1).map .bytes
  | .twoBytes => (slice? bytes 1 2).map .bytes
  | .threeBytes => (slice? bytes 1 3).map .bytes
  | .word => (slice? bytes 1 4).map fun word => .word (UInt32.ofNat (Bytes.ofLittle word))
  | .float => (slice? bytes 1 4).map fun word => .float ⟨UInt32.ofNat (Bytes.ofLittle word)⟩
  | .native => do
    let counts ← bytes[1]?
    let high ← bytes[2]?
    let low ← bytes[3]?
    return .native (counts.toNat / 4) (counts.toNat % 4) (256 * high.toNat + low.toNat)
  | .enter => do
    let parameters ← bytes[1]?
    let frame ← slice? bytes 2 2
    let length ← bytes[4]?
    let stored ← slice? bytes 5 length.toNat
    return .enter parameters.toNat (Bytes.ofLittle frame) (OperandValues.frameName stored)
  | .signed16 =>
      (slice? bytes 1 2).map fun short => .signed16 (Bytes.signed16 (Bytes.ofLittle short))
  | .unsigned16 => (slice? bytes 1 2).map fun short => .unsigned16 (Bytes.ofLittle short)
  | .relative =>
      (slice? bytes 1 2).map fun short => .relative (Bytes.signed16 (Bytes.ofLittle short))
  | .call => (slice? bytes 1 3).map fun target => .call (Bytes.ofLittle target)
  | .unsigned24 => (slice? bytes 1 3).map fun value => .unsigned24 (Bytes.ofLittle value)
  | .switch => do
    let count ← bytes[1]?
    let cases ← (List.range count.toNat).mapM (caseAt? bytes)
    return .switch cases

theorem slice?_append {front middle : List UInt8} {start count : Nat}
    (hStart : front.length = start) (hCount : middle.length = count) (back : List UInt8) :
    slice? (front ++ (middle ++ back)) start count = some middle := by
  subst hStart hCount
  rw [slice?, if_pos (by simp), List.drop_left, List.take_left]

theorem caseAt?_append {front value distance : List UInt8} {i : Nat}
    (hFront : front.length = 2 + 6 * i)
    (hValue : value.length = 4) (hDistance : distance.length = 2) (rest : List UInt8) :
    caseAt? (front ++ (value ++ (distance ++ rest))) i =
      some (UInt32.ofNat (Bytes.ofLittle value), Bytes.signed16 (Bytes.ofLittle distance)) := by
  have hStart : (front ++ value).length = 2 + 6 * i + 4 := by
    rw [List.length_append, hFront, hValue]
  have hBehind := slice?_append hStart hDistance rest
  rw [List.append_assoc] at hBehind
  rw [caseAt?, slice?_append hFront hValue, hBehind]
  rfl

/-- Every case of a branch is where its number says. -/
theorem mapM_caseAt? {front entries : List UInt8} {cases : List (UInt32 × Int)} {first : Nat}
    (h : OperandValues.readCases entries = some cases) (hFront : front.length = 2 + 6 * first) :
    (List.range' first cases.length).mapM (caseAt? (front ++ entries)) = some cases := by
  induction entries using OperandValues.readCases.induct generalizing front first cases with
  | case1 =>
      cases h
      rfl
  | case2 v0 v1 v2 v3 d0 d1 rest ih =>
      rw [OperandValues.readCases, Option.map_eq_some_iff] at h
      obtain ⟨others, hOthers, rfl⟩ := h
      have hValue : [v0, v1, v2, v3].length = 4 := rfl
      have hDistance : [d0, d1].length = 2 := rfl
      have hFirst := caseAt?_append hFront hValue hDistance rest
      have hBehind : (front ++ [v0, v1, v2, v3, d0, d1]).length = 2 + 6 * (first + 1) := by
        rw [List.length_append, hFront]
        rfl
      have hRest := ih hOthers hBehind
      rw [List.append_assoc] at hRest
      rw [List.length_cons, List.range'_succ, List.mapM_cons]
      exact Option.bind_eq_some_iff.mpr ⟨_, hFirst, Option.bind_eq_some_iff.mpr ⟨_, hRest, rfl⟩⟩
  | case3 bytes hEmpty hEntry =>
      unfold OperandValues.readCases at h
      split at h
      · exact absurd rfl hEmpty
      · exact absurd rfl (hEntry _ _ _ _ _ _ _)
      · cases h

theorem slice?_operands {byte : UInt8} {operandBytes : List UInt8} {count : Nat}
    (h : operandBytes.length = count) :
    slice? (byte :: operandBytes) 1 count = some operandBytes := by
  have hByte : [byte].length = 1 := rfl
  have hAll := slice?_append hByte h []
  rwa [List.append_nil] at hAll

/-- The operands that are read from an instruction all stand inside of it. -/
theorem fetched?_of_operands? {instruction : Instruction} {values : OperandValues}
    (h : instruction.operands? = some values) : instruction.fetched? = some values := by
  obtain ⟨address, opcode, operandBytes⟩ := instruction
  unfold operands? at h
  unfold fetched? bytes
  dsimp only at h ⊢
  cases hFormat : opcode.format <;> rw [hFormat] at h
  case none => match operandBytes, OperandValues.length_of_read? h rfl, h with | [], _, h => exact h
  case byte =>
    match operandBytes, OperandValues.length_of_read? h rfl, h with | [_], _, h => exact h
  case twoBytes =>
    match operandBytes, OperandValues.length_of_read? h rfl, h with | [_, _], _, h => exact h
  case threeBytes =>
    match operandBytes, OperandValues.length_of_read? h rfl, h with | [_, _, _], _, h => exact h
  case native =>
    match operandBytes, OperandValues.length_of_read? h rfl, h with | [_, _, _], _, h => exact h
  case enter =>
    match operandBytes, h with
    | parameters :: f0 :: f1 :: length :: stored, h =>
        obtain ⟨hLength, hValues⟩ := Option.ite_none_right_eq_some.mp h
        have hFront : [opcode.toByte, parameters, f0, f1, length].length = 5 := rfl
        have hStored := slice?_append hFront hLength []
        rw [List.append_nil] at hStored
        refine Option.bind_eq_some_iff.mpr ⟨parameters, rfl,
          Option.bind_eq_some_iff.mpr ⟨[f0, f1], rfl, ?_⟩⟩
        exact Option.bind_eq_some_iff.mpr ⟨length, rfl,
          Option.bind_eq_some_iff.mpr ⟨stored, hStored, hValues⟩⟩
  case switch =>
    match operandBytes, h with
    | count :: entries, h =>
        obtain ⟨cases, hCases, hCount⟩ := Option.bind_eq_some_iff.mp h
        obtain ⟨hLength, hValues⟩ := Option.ite_none_right_eq_some.mp hCount
        have hFront : [opcode.toByte, count].length = 2 + 6 * 0 := rfl
        have hRead := mapM_caseAt? hCases hFront
        rw [hLength, ← List.range_eq_range'] at hRead
        exact Option.bind_eq_some_iff.mpr ⟨count, rfl,
          Option.bind_eq_some_iff.mpr ⟨cases, hRead, hValues⟩⟩
  all_goals
    rw [slice?_operands (OperandValues.length_of_read? h rfl)]
  case word => exact (OperandValues.read?_word (OperandValues.length_of_read? h rfl)).symm.trans h
  case float => exact (OperandValues.read?_float (OperandValues.length_of_read? h rfl)).symm.trans h
  case signed16 =>
    exact (OperandValues.read?_signed16 (OperandValues.length_of_read? h rfl)).symm.trans h
  case unsigned16 =>
    exact (OperandValues.read?_unsigned16 (OperandValues.length_of_read? h rfl)).symm.trans h
  case relative =>
    exact (OperandValues.read?_relative (OperandValues.length_of_read? h rfl)).symm.trans h
  case call => exact (OperandValues.read?_call (OperandValues.length_of_read? h rfl)).symm.trans h
  case unsigned24 =>
    exact (OperandValues.read?_unsigned24 (OperandValues.length_of_read? h rfl)).symm.trans h

end Instruction

namespace Disassembly

/-- What an iterator over code gives next at an address, and where it stands
then: behind the instruction, or after a fault at the end of the code. -/
def next? (code : List UInt8) (address : Nat) : Option (Except DecodeFault Instruction × Nat) :=
  if code.length ≤ address then none
  else
    match Instruction.decodeAt code address with
    | .ok instruction => some (.ok instruction, instruction.endAddress)
    | .error fault => some (.error fault, code.length)

/-- All that an iterator over code gives from an address on, until it gives
nothing more. -/
inductive Yields (code : List UInt8) : Nat → List (Except DecodeFault Instruction) → Prop where
  | done {address : Nat} (nothing : next? code address = none) : Yields code address []
  | item {address following : Nat} {item : Except DecodeFault Instruction}
      {items : List (Except DecodeFault Instruction)}
        (first : next? code address = some (item, following))
      (rest : Yields code following items) : Yields code address (item :: items)

/-- The instructions, and behind them the fault. -/
def items (found : Disassembly) : List (Except DecodeFault Instruction) :=
  found.instructions.map .ok ++ found.fault.toList.map .error

variable {code : List UInt8} {address : Nat}

/-- There is nothing more to read exactly at the end of the code. -/
theorem next?_eq_none_iff : next? code address = none ↔ code.length ≤ address := by
  unfold next?
  split
  · next hEnd => exact ⟨fun _ => hEnd, fun _ => rfl⟩
  · next hInside => split <;> exact ⟨nofun, fun hEnd => absurd hEnd hInside⟩

/-- An instruction is read at an address of the code, and the next one behind it. -/
theorem next?_eq_ok_iff {instruction : Instruction} {following : Nat} :
    next? code address = some (.ok instruction, following) ↔
      address < code.length ∧ Instruction.decodeAt code address = .ok instruction ∧
        following = instruction.endAddress := by
  unfold next?
  split
  · next hEnd => exact ⟨nofun, fun hInside => absurd hEnd (Nat.not_le.mpr hInside.1)⟩
  · next hInside =>
      split
      · next found hFound =>
          rw [hFound]
          exact ⟨by rintro ⟨⟩; exact ⟨Nat.not_le.mp hInside, rfl, rfl⟩, by rintro ⟨_, ⟨⟩, rfl⟩; rfl⟩
      · next fault hFault =>
          rw [hFault]
          exact ⟨nofun, by rintro ⟨_, ⟨⟩, _⟩⟩

/-- Where no instruction can be read, nothing is read behind it. -/
theorem next?_eq_error_iff {fault : DecodeFault} {following : Nat} :
    next? code address = some (.error fault, following) ↔
      address < code.length ∧ Instruction.decodeAt code address = .error fault ∧
      following = code.length := by
  unfold next?
  split
  · next hEnd => exact ⟨nofun, fun hInside => absurd hEnd (Nat.not_le.mpr hInside.1)⟩
  · next hInside =>
      split
      · next found hFound =>
          rw [hFound]
          exact ⟨nofun, by rintro ⟨_, ⟨⟩, _⟩⟩
      · next other hOther =>
          rw [hOther]
          exact ⟨by rintro ⟨⟩; exact ⟨Nat.not_le.mp hInside, rfl, rfl⟩, by rintro ⟨_, ⟨⟩, rfl⟩; rfl⟩

/-- A piece of code is read in one way only. -/
theorem Yields.unique {items others : List (Except DecodeFault Instruction)}
    (h : Yields code address items) (hOthers : Yields code address others) : items = others := by
  induction h generalizing others with
  | done nothing =>
      cases hOthers with
      | done => rfl
      | item first _ => cases nothing.symm.trans first
  | item first _ ih =>
      cases hOthers with
      | done nothing => cases nothing.symm.trans first
      | item other rest =>
          cases first.symm.trans other
          rw [ih rest]

/-- A fault comes last. -/
theorem items_error_last {found : Disassembly} {front back : List (Except DecodeFault Instruction)}
    {fault : DecodeFault} (h : found.items = front ++ .error fault :: back) : back = [] := by
  have hNone : ∀ items, found.instructions.map Except.ok ≠
      front ++ Except.error fault :: items := by
    intro items hItems
    have hMem : Except.error fault ∈ found.instructions.map Except.ok := by simp [hItems]
    simp at hMem
  unfold items at h
  cases hFault : found.fault with
  | none =>
      rw [hFault] at h
      exact absurd ((List.append_nil _).symm.trans h) (hNone back)
  | some other =>
      rw [hFault] at h
      rcases List.eq_nil_or_concat back with rfl | ⟨between, last, rfl⟩
      · rfl
      · rw [List.concat_eq_append, ← List.cons_append, ← List.append_assoc] at h
        exact absurd (List.append_inj_left' h rfl) (hNone between)

/-- A walk finds what an iterator gives. -/
theorem exists_yields_walk {rest : List UInt8} {found : List Instruction}
    (h : code.drop address = rest) :
    ∃ later : Disassembly, walk address rest found =
      ⟨found.reverse ++ later.instructions, later.fault⟩ ∧ Yields code address later.items := by
  induction address, rest, found using walk.induct with
  | case1 address rest found hEmpty =>
      have hEnd : code.length ≤ address := by simpa [← h] using hEmpty
      refine ⟨⟨[], none⟩, ?_, .done (next?_eq_none_iff.mpr hEnd)⟩
      rw [walk, dif_pos hEmpty, List.append_nil]
  | case2 address rest found hSome fault hFault =>
      have hInside : address < code.length := by simpa [← h] using hSome
      rw [← h] at hFault
      refine ⟨⟨[], some fault⟩, ?_, .item (next?_eq_error_iff.mpr ⟨hInside, hFault, rfl⟩)
        (.done (next?_eq_none_iff.mpr (Nat.le_refl _)))⟩
      rw [walk, dif_neg hSome, ← h, hFault, List.append_nil]
  | case3 address rest found hSome first hFirst ih =>
      have hInside : address < code.length := by simpa [← h] using hSome
      rw [← h] at hFirst
      have hBehind : code.drop first.endAddress = rest.drop first.size := by
        rw [← h, List.drop_drop, Instruction.endAddress, Instruction.address_of_decodeFirst hFirst]
      obtain ⟨later, hWalk, hLater⟩ := ih hBehind
      refine ⟨⟨first :: later.instructions, later.fault⟩, ?_,
        .item (next?_eq_ok_iff.mpr ⟨hInside, hFirst, rfl⟩) hLater⟩
      rw [walk, dif_neg hSome, ← h, hFirst, h]
      simpa using hWalk

/-- The listing of a piece of code is what is read from it step by step. -/
theorem yields_ofCode (code : List UInt8) : Yields code 0 (ofCode code).items := by
  obtain ⟨later, hWalk, hLater⟩ : ∃ later : Disassembly,
    walk 0 code [] = ⟨later.instructions, later.fault⟩ ∧
      Yields code 0 later.items := exists_yields_walk List.drop_zero
  rw [ofCode, hWalk]
  exact hLater

/-- Instructions cover the code from an address up to where they end, at the end
of the code or in front of a fault. -/
structure Covers (code : List UInt8) (start : Nat) (found : Disassembly) (finish : Nat) : Prop where
  inside : finish ≤ code.length
  chained : Instruction.Chained start found.instructions finish
  bytes : code.drop start = found.instructions.flatMap Instruction.bytes ++ code.drop finish
  complete : found.fault = none → finish = code.length
  stopped : ∀ fault, found.fault = some fault →
    finish < code.length ∧ Instruction.decodeAt code finish = .error fault

/-- What an iterator gives covers the code. -/
theorem exists_covers_of_yields {found : Disassembly} (h : Yields code address found.items)
    (hStart : address ≤ code.length) : ∃ finish, Covers code address found finish := by
  obtain ⟨instructions, fault⟩ := found
  induction instructions generalizing address with
  | nil =>
      refine ⟨address, hStart, rfl, rfl, ?_, ?_⟩
      · rintro rfl
        cases h with
        | done nothing => exact Nat.le_antisymm hStart (next?_eq_none_iff.mp nothing)
      · rintro found rfl
        cases h with
        | item first _ =>
            obtain ⟨hInside, hFault, _⟩ := next?_eq_error_iff.mp first
            exact ⟨hInside, hFault⟩
  | cons instruction rest ih =>
      cases h with
      | item first later =>
          obtain ⟨hInside, hDecoded, rfl⟩ := next?_eq_ok_iff.mp first
          obtain ⟨hAddress, ⟨behind, hBytes⟩, _⟩ := Instruction.decodeFirst_eq_ok_iff.mp hDecoded
          have hEnd : instruction.endAddress = address + instruction.bytes.length := by
            rw [← hAddress]; rfl
          have hSize : instruction.endAddress ≤ code.length := by
            have hLength := congrArg List.length hBytes
            rw [List.length_append, List.length_drop] at hLength
            omega
          have hBehind : behind = code.drop instruction.endAddress := by
            rw [hEnd, ← List.drop_drop, ← hBytes, List.drop_left]
          obtain ⟨finish, hRest⟩ := ih hSize later
          refine ⟨finish, hRest.inside, ⟨hAddress, hRest.chained⟩, ?_,
            hRest.complete, hRest.stopped⟩
          rw [← hBytes, hBehind, hRest.bytes]
          simp

end Disassembly

/-- Code of any kind is taken apart. The iterator over it gives finitely many
items, the instructions found and then the fault if there is one. The first
instruction begins the code, and each further one begins where the one before it
ends; their bytes are the code up to its end, or up to an address at which no
instruction can be sized. All operands of an instruction stand inside of its
bytes. -/
theorem Disassembly.ofCode_partitions (code : List UInt8) :
    (∀ items, Yields code 0 items ↔ items = (ofCode code).items) ∧
      (∀ front fault back, (ofCode code).items = front ++ .error fault :: back → back = []) ∧
      ∃ finish ≤ code.length, Instruction.Chained 0 (ofCode code).instructions finish ∧
        (ofCode code).instructions.flatMap Instruction.bytes = code.take finish ∧
        ((ofCode code).fault = none → finish = code.length) ∧
        (∀ fault, (ofCode code).fault = some fault →
          finish < code.length ∧ instructionSizeAt code finish = .error fault) ∧
        ∀ instruction ∈ (ofCode code).instructions,
          instructionSizeAt code instruction.address = .ok instruction.size ∧
          ∃ values, instruction.operands? = some values ∧ instruction.fetched? = some values := by
  have hYields := yields_ofCode code
  obtain ⟨finish, hCovers⟩ := exists_covers_of_yields hYields (Nat.zero_le _)
  refine ⟨fun items => ⟨fun h => h.unique hYields, fun h => h ▸ hYields⟩,
    fun front fault back h => ?_, finish, hCovers.inside, hCovers.chained, ?_, hCovers.complete,
      fun fault h => ?_, fun instruction hMem => ?_⟩
  · exact items_error_last h
  · have hBytes := hCovers.bytes
    rw [List.drop_zero] at hBytes
    exact (List.append_cancel_right ((List.take_append_drop finish code).trans hBytes)).symm
  · obtain ⟨hInside, hFault⟩ := hCovers.stopped fault h
    exact ⟨hInside, by rw [instructionSizeAt, hFault]; rfl⟩
  · have hDecoded := decodeAt_of_mem hMem
    obtain ⟨_, _, values, hValues⟩ := Instruction.decodeFirst_eq_ok_iff.mp hDecoded
    exact ⟨by rw [instructionSizeAt, hDecoded]; rfl, values, hValues,
      Instruction.fetched?_of_operands? hValues⟩

end ScriptBackend
