import ScriptBackend.Proofs.Assembly.NativeIndices
import ScriptBackend.Proofs.Assembly.SourceListing

/-!
Encoding undoes decoding. The operands that the source of an instruction names
are encoded in the bytes that they were read from, where the label of every
address lies at that address.
-/
namespace ScriptBackend

open Assembly Outcome

/-- Surroundings in which the labels of some addresses lie at these addresses,
and nothing else has a name. -/
structure Assembly.Environment.Relabels (environment : Environment) (addresses : List Nat) :
    Prop where
  symbols : environment.symbols = .empty
  options : environment.options.includeFunctionNames = false
  labels : ∀ address ∈ addresses, environment.labels.find? (addressLabel address) = some address

/-- What the source of an instruction does not tell: a frame has no name,
numbers are finite, and whatever the instruction goes to is one of some
addresses. -/
structure Instruction.IsRelistable (addresses : List Nat) (instruction : Instruction) : Prop where
  nameless : ∀ parameters frame name,
    instruction.operands? = some (.enter parameters frame name) → name = none
  finite : ∀ value, instruction.operands? = some (.float value) → value.isFinite = true
  jump : ∀ target, instruction.jumpTarget? = some target → target ∈ addresses
  call : ∀ target, instruction.callTarget? = some target → target ∈ addresses
  branch : ∀ entry ∈ instruction.switchCases, entry.2 ∈ addresses

namespace Assembly.Environment

variable {environment : Environment} {line : Line} {operand : Operand} {addresses : List Nat}

theorem outside_eq_false {least n greatest : Int} (hLow : least ≤ n) (hHigh : n ≤ greatest) :
    (n < least || greatest < n) = false := by
  simp only [Bool.or_eq_false_iff, decide_eq_false_iff_not, Int.not_lt]
  exact ⟨hLow, hHigh⟩

/-- A value in its range passes the check of the range. -/
theorem ranged_of_integer {least n : Int} {greatest : Nat} {codeLabels : Bool} {what : Quantity}
    (h : environment.integer line operand codeLabels = .ok n) (hLow : least ≤ n)
    (hHigh : n ≤ greatest) :
    environment.ranged line operand least greatest codeLabels what = .ok n := by
  refine bind_eq_ok.mpr ⟨n, h, ?_⟩
  rw [outside_eq_false hLow hHigh]
  rfl

/-- An integer denotes itself. -/
theorem ranged_ofInt {least n : Int} {greatest : Nat} {codeLabels : Bool} {what : Quantity}
    (hLow : least ≤ n) (hHigh : n ≤ greatest) (hLeast : -2 ^ 63 ≤ least := by decide)
    (hGreatest : greatest < 2 ^ 63 := by decide) :
    environment.ranged line (.ofInt n) least greatest codeLabels what = .ok n := by
  refine ranged_of_integer ?_ hLow hHigh
  have hValue : (Int64.ofInt n).toInt = n := Int64.toInt_ofInt_of_le (by omega) (by omega)
  exact congrArg Except.ok hValue

theorem bytes_ofInt (values : List UInt8) :
    environment.bytes line (values.map fun value => .ofInt value.toNat) = .ok values := by
  induction values with
  | nil => rfl
  | cons value rest ih =>
      have hValue := value.toNat_lt
      refine bind_eq_ok.mpr ⟨value.toNat, ranged_ofInt (by omega) (by omega), ?_⟩
      refine bind_eq_ok.mpr ⟨rest, ih, ?_⟩
      exact congrArg (fun byte => Except.ok (byte :: rest)) UInt8.ofNat_toNat

namespace Relabels

variable (h : environment.Relabels addresses) {address : Nat} (hAddress : address ∈ addresses)
include h hAddress

theorem find?_eq : environment.labels.find? (line.qualify (addressLabel address)) =
    some address := by
  rw [Line.qualify, qualify, isLocal_addressLabel]
  exact h.labels address hAddress

/-- The label of an address stands for that address. -/
theorem codeLabel_eq : environment.codeLabel line (addressLabel address) = .ok address :=
  codeLabel_label (h.find?_eq hAddress)

theorem integer_eq : environment.integer line (.name (addressLabel address)) true =
    .ok (address : Int) := by
  refine integer_label ?_ (h.find?_eq hAddress)
  simp [h.symbols, Symbols.contains, Symbols.empty]

end Relabels

/-- The distance to a target that was found by its distance. -/
theorem distance_addressAt (label : String) {base : Nat} {difference : Int}
    (hLow : -0x8000 ≤ difference) (hHigh : difference < 0x8000) (hBase : base ≤ 0x2000000)
    (hTarget : Instruction.addressAt base difference ≤ codeLimit) :
    distance line label (Instruction.addressAt base difference) base =
      .ok (Bytes.littleInt 2 difference) := by
  have hSame : (Instruction.addressAt base difference : Int) - base = difference := by
    unfold Instruction.addressAt codeLimit at *
    omega
  have hRange : (difference < -0x8000 || 0x8000 ≤ difference) = false := by
    simp only [Bool.or_eq_false_iff, decide_eq_false_iff_not, Int.not_lt, Int.not_le]
    exact ⟨hLow, hHigh⟩
  simp only [distance, hSame, hRange]
  rfl

/-- The cases of a branch whose first entry begins at an address. -/
theorem cases_source (h : environment.Relabels addresses)
    (hNear : ∀ address ∈ addresses, address ≤ codeLimit)
    {opcode : Opcode} {entry : Nat} {cases : List (UInt32 × Int)}
    (hRange : ∀ found ∈ cases, -0x8000 ≤ found.2 ∧ found.2 < 0x8000)
    (hTargets : ∀ found ∈ cases.mapIdx fun i found =>
      (found.1, Instruction.addressAt (entry + 6 * (i + 1)) found.2),
      found.2 ∈ addresses)
    (hEnd : entry + 6 * cases.length ≤ 0x2000000) :
    environment.cases line opcode entry
      ((cases.mapIdx fun i found =>
        (found.1, Instruction.addressAt (entry + 6 * (i + 1)) found.2)).map fun found =>
        .case (Int64.ofInt found.1.toInt32.toInt) (addressLabel found.2)) =
      .ok (OperandValues.casesEncoded cases) := by
  induction cases generalizing entry with
  | nil => rfl
  | cons first rest ih =>
      have hShift : (fun i (found : UInt32 × Int) =>
            (found.1, Instruction.addressAt (entry + 6 * (i + 1 + 1)) found.2)) =
          fun i found => (found.1, Instruction.addressAt (entry + 6 + 6 * (i + 1)) found.2) := by
        funext i found
        rw [show entry + 6 * (i + 1 + 1) = entry + 6 + 6 * (i + 1) by omega]
      rw [List.mapIdx_cons, hShift, List.forall_mem_cons] at hTargets
      rw [List.forall_mem_cons] at hRange
      rw [List.length_cons] at hEnd
      obtain ⟨hLow, hHigh⟩ := word_range first.1
      have hWordLow := first.1.toInt32.le_toInt
      have hWordHigh := first.1.toInt32.toInt_lt
      have hValue : (Int64.ofInt first.1.toInt32.toInt).toInt = first.1.toInt32.toInt :=
        Int64.toInt_ofInt_of_le hLow hHigh
      have hFits : (first.1.toInt32.toInt < leastInt32 || greatestUInt32 < first.1.toInt32.toInt) =
          false :=
        outside_eq_false hWordLow (by unfold greatestUInt32; omega)
      have hDistance (label : String) : distance line label _ _ = _ :=
        distance_addressAt label hRange.1.1 hRange.1.2 (by omega) (hNear _ hTargets.1)
      have hOthers := ih hRange.2 hTargets.2 (by omega)
      rw [List.mapIdx_cons, hShift, List.map_cons, Environment.cases, hValue, hFits]
      refine bind_eq_ok.mpr ⟨_, h.codeLabel_eq hTargets.1, ?_⟩
      refine bind_eq_ok.mpr ⟨_, hDistance _, ?_⟩
      exact bind_eq_ok.mpr ⟨_, hOthers, rfl⟩

section

variable {instruction : Instruction} {format : OperandFormat} {values : OperandValues}
  {hash? : Nat → Option UInt64}

/-- The operand bytes of an instruction that calls no native are those that its
source is encoded in. -/
theorem operandBytes_source (h : environment.Relabels addresses)
    (hNear : ∀ address ∈ addresses, address ≤ codeLimit)
    (hFormat : instruction.opcode.format = format) (hNative : format ≠ .native)
    (hValues : format.Holds values)
    (hRead : instruction.operands? = some values)
    (hInstruction : instruction.IsRelistable addresses)
    (hAddress : instruction.address ≤ codeLimit) (natives : NativeTable) :
    environment.operandBytes line ⟨instruction.opcode, instruction.sourceOperands hash? values⟩
      instruction.address natives = .ok (values.encoded, natives) := by
  unfold codeLimit at hAddress
  cases hValues with
  | none => simp only [operandBytes, hFormat, OperandValues.encoded]
  | byte | twoBytes | threeBytes =>
      simp only [operandBytes, hFormat]
      exact map_eq_ok.mpr ⟨_, bytes_ofInt _, rfl⟩
  | word value =>
      have hLow := value.toInt32.le_toInt
      have hHigh := value.toInt32.toInt_lt
      simp only [operandBytes, hFormat]
      refine map_eq_ok.mpr ⟨_, bind_eq_ok.mpr ⟨_, ranged_ofInt ?_ ?_, rfl⟩, rfl⟩
      · exact hLow
      · unfold greatestUInt32
        omega
  | float value =>
      simp only [operandBytes, hFormat]
      exact map_eq_ok.mpr ⟨_, rfl, rfl⟩
  | native few fewer place => exact absurd rfl hNative
  | @enter parameters frame few room name =>
      have hName : Primitive.frameName
          ⟨instruction.opcode, instruction.sourceOperands hash? (.enter parameters frame name)⟩ line
            environment.options =
          .ok none := by
        simp [Primitive.frameName, Primitive.wantedName, Instruction.sourceOperands, h.options]
      simp only [operandBytes, hFormat]
      refine map_eq_ok.mpr ⟨_, bind_eq_ok.mpr ⟨_, ranged_ofInt (by omega) (by omega), ?_⟩, rfl⟩
      refine bind_eq_ok.mpr ⟨_, ranged_ofInt (by omega) (by omega), ?_⟩
      exact bind_eq_ok.mpr ⟨_, hName, rfl⟩
  | signed16 low high =>
      simp only [operandBytes, hFormat]
      exact map_eq_ok.mpr ⟨_, bind_eq_ok.mpr ⟨_, ranged_ofInt low (by omega), rfl⟩, rfl⟩
  | unsigned16 high =>
      simp only [operandBytes, hFormat]
      exact map_eq_ok.mpr ⟨_, bind_eq_ok.mpr ⟨_, ranged_ofInt (by omega) (by omega), rfl⟩, rfl⟩
  | @relative distance low high =>
      have hTarget := hInstruction.jump _ (by rw [Instruction.jumpTarget?, hRead])
      have hSize : instruction.endAddress = instruction.address + 3 := by
        rw [Instruction.operands?, hFormat] at hRead
        rw [Instruction.endAddress, Instruction.size, OperandValues.length_of_read? hRead rfl]
      rw [hSize] at hTarget
      simp only [operandBytes, hFormat, Instruction.sourceOperands, hSize]
      refine map_eq_ok.mpr ⟨_, bind_eq_ok.mpr ⟨_, h.codeLabel_eq hTarget, ?_⟩, rfl⟩
      exact distance_addressAt _ low high (by omega) (hNear _ hTarget)
  | @call target high =>
      have hTarget := hInstruction.call target (by rw [Instruction.callTarget?, hRead])
      simp only [operandBytes, hFormat]
      refine map_eq_ok.mpr ⟨_, bind_eq_ok.mpr ⟨_,
        ranged_of_integer (h.integer_eq hTarget) ?_ ?_, rfl⟩, rfl⟩
      all_goals omega
  | unsigned24 high =>
      simp only [operandBytes, hFormat]
      exact map_eq_ok.mpr ⟨_, bind_eq_ok.mpr ⟨_, ranged_ofInt (by omega) (by omega), rfl⟩, rfl⟩
  | @switch cases few near =>
      have hCases : instruction.switchCases = cases.mapIdx fun i found =>
          (found.1, Instruction.addressAt (instruction.address + 2 + 6 * (i + 1)) found.2) := by
        rw [Instruction.switchCases, hRead]
        simp only [Opcode.switchSize, Nat.add_assoc]
      have hTargets := hInstruction.branch
      rw [hCases] at hTargets
      have hEntries :=
        @cases_source environment line addresses h hNear instruction.opcode _ cases near hTargets
        (by omega)
      rw [← hCases] at hEntries
      simp only [operandBytes, hFormat]
      have hCount : instruction.switchCases.length = cases.length := by
        rw [hCases, List.length_mapIdx]
      refine map_eq_ok.mpr ⟨_, bind_eq_ok.mpr ⟨_, hEntries, ?_⟩, rfl⟩
      rw [Instruction.sourceOperands, List.length_map, hCount]
      rfl

/-- The call of a native is encoded with the index that its hash gets. -/
theorem operandBytes_sourceNative {arguments returns index : Nat} {hash : UInt64}
    {natives later : NativeTable}
    (hFormat : instruction.opcode.format = .native) (few : arguments < 0x40) (fewer : returns < 4)
    (hHash : hash? index = some hash)
    (hAdd : natives.addOrGet hash = (.ok index, later)) (address : Nat) :
    environment.operandBytes line
      ⟨instruction.opcode, instruction.sourceOperands hash?
        (.native arguments returns index)⟩ address natives =
      .ok ((OperandValues.native arguments returns index).encoded, later) := by
  have hIndex : environment.nativeIndex line instruction.opcode
      (.int (Int64.ofNat hash.toNat)) natives = .ok (index, later) := by
    have hSame : (Int64.ofNat hash.toNat).toUInt64 = hash := by simp
    refine bind_eq_ok.mpr ⟨.inr hash, congrArg (fun found => Except.ok (Sum.inr found)) hSame, ?_⟩
    simp only [hAdd]
    rfl
  simp only [operandBytes, hFormat, Instruction.sourceOperands, hHash, Option.getD_some]
  refine bind_eq_ok.mpr ⟨_, ranged_ofInt (by omega) (by omega), ?_⟩
  refine bind_eq_ok.mpr ⟨_, ranged_ofInt (by omega) (by omega), ?_⟩
  exact bind_eq_ok.mpr ⟨_, hIndex, rfl⟩

end

end Assembly.Environment

namespace Assembly.Primitive

variable {opcode : Opcode} {operands : List Operand} {line : Line} {options : Options} {count : Nat}

/-- A primitive of a fixed size with as many operands as its format asks for. -/
theorem size_fixed (hBytes : opcode.format.size? = some count)
    (hCount : opcode.format.count? = some operands.length) :
    Primitive.size ⟨opcode, operands⟩ line options = .ok (count + 1) := by
  have hCheck : Primitive.checkCount ⟨opcode, operands⟩ line = .ok () := by
    unfold checkCount
    cases hFormat : opcode.format <;> rw [hFormat] at hCount <;> simp_all [OperandFormat.count?]
  have hFixed : opcode.fixedSize? = some (count + 1) := by
    rw [Opcode.fixedSize?, hBytes, Option.map_some]
  refine bind_eq_ok.mpr ⟨(), hCheck, ?_⟩
  simp only [hFixed]
  rfl

/-- A frame without a name has the least size of its format. -/
theorem size_enter (hFormat : opcode.format = .enter) (hOperands : operands.length = 2)
    (hOptions : options.includeFunctionNames = false) :
    Primitive.size ⟨opcode, operands⟩ line options = .ok 5 := by
  have hOpcode := Opcode.format_eq_enter_iff.mp hFormat
  subst hOpcode
  obtain ⟨first, second, rfl⟩ := List.length_eq_two.mp hOperands
  have hName : Primitive.frameName ⟨.enter, [first, second]⟩ line options = .ok none := by
    simp [Primitive.frameName, Primitive.wantedName, hOptions]
  exact bind_eq_ok.mpr ⟨(), rfl, bind_eq_ok.mpr ⟨none, hName, rfl⟩⟩

theorem size_switch (hFormat : opcode.format = .switch) (hCases : operands.length < 0x100) :
    Primitive.size ⟨opcode, operands⟩ line options = .ok (Opcode.switchSize operands.length) := by
  have hOpcode := Opcode.format_eq_switch_iff.mp hFormat
  subst hOpcode
  refine bind_eq_ok.mpr ⟨(), rfl, ?_⟩
  exact if_neg (Nat.not_lt.mpr (Nat.le_of_lt_succ hCases))

end Assembly.Primitive

namespace Instruction

variable {instruction : Instruction} {values : OperandValues} {hash? : Nat → Option UInt64}
  {addresses : List Nat} {line : Line} {options : Options}

/-- The source of an instruction is laid out with the size of the instruction. -/
theorem size_sourcePrimitive (hRead : instruction.operands? = some values)
    (hInstruction : instruction.IsRelistable addresses)
    (hOptions : options.includeFunctionNames = false) :
    (instruction.sourcePrimitive hash?).size line options = .ok instruction.size := by
  have hBytes := OperandValues.encoded_of_read? hRead fun parameters frame name hName =>
    hInstruction.nameless parameters frame name (hName ▸ hRead)
  have hValues := OperandValues.holds_of_read? hRead
  have hSize : instruction.size = values.encoded.length + 1 := by rw [size, hBytes]
  rw [sourcePrimitive, hRead, hSize, Option.map_some, Option.getD_some]
  generalize hFormat : instruction.opcode.format = format at hValues
  cases hValues with
  | enter few room name =>
      simpa [OperandValues.encoded] using Primitive.size_enter hFormat rfl hOptions
  | @switch cases few near =>
      have hCount : instruction.switchCases.length = cases.length := by
        simp [switchCases, hRead]
      have hOperands : (instruction.sourceOperands hash? (.switch cases)).length =
          cases.length := by
        rw [sourceOperands, List.length_map, hCount]
      have hEntries : (OperandValues.casesEncoded cases).length = 6 * cases.length := by
        simp [OperandValues.casesEncoded, List.length_flatMap, Nat.mul_comm]
      have hSwitch :=
        @Primitive.size_switch _ (instruction.sourceOperands hash? (.switch cases))
        line options hFormat (by omega)
      rw [hSwitch, hOperands, OperandValues.encoded, List.length_cons, hEntries, Opcode.switchSize]
      congr 1
      omega
  | _ =>
      refine Primitive.size_fixed
        (by rw [hFormat]; simp [OperandFormat.size?, OperandValues.encoded]) ?_
      rw [hFormat]
      simp [OperandFormat.count?, sourceOperands]

def calledHash? (hash? : Nat → Option UInt64) (instruction : Instruction) : Option UInt64 :=
  match instruction.operands? with
  | some (.native _ _ index) => hash? index
  | _ => none

/-- An instruction is encoded from its source in its own bytes. The natives that
are then in the table, and those of the instructions behind it, still make up
the whole table. -/
theorem operandBytes_sourcePrimitive {environment : Environment}
    (h : environment.Relabels addresses)
    (hNear : ∀ address ∈ addresses, address ≤ codeLimit)
    (hRead : instruction.operands? = some values)
    (hInstruction : instruction.IsRelistable addresses) (hAddress : instruction.address ≤ codeLimit)
    {total : List UInt64} (hTotal : total.Nodup) (hWritable : IsWritable (total[·]?) values)
    (rest : List UInt64) {natives : NativeTable}
    (hNatives : natives.hashes ++ (((instruction.calledHash? (total[·]?)).toList ++ rest).removeAll
      natives.hashes).eraseDups = total) :
    ∃ later, environment.operandBytes line (instruction.sourcePrimitive (total[·]?))
        instruction.address natives = .ok (instruction.operandBytes, later) ∧
      later.hashes ++ (rest.removeAll later.hashes).eraseDups = total := by
  have hBytes := OperandValues.encoded_of_read? hRead fun parameters frame name hName =>
    hInstruction.nameless parameters frame name (hName ▸ hRead)
  have hValues := OperandValues.holds_of_read? hRead
  rw [sourcePrimitive, hRead, Option.map_some, Option.getD_some, ← hBytes]
  by_cases hFormat : instruction.opcode.format = .native
  · rw [hFormat] at hValues
    cases hValues with
    | @native arguments returns index few fewer place =>
        obtain ⟨hash, hHash⟩ :=
          Option.isSome_iff_exists.mp (hWritable.native arguments returns index rfl)
        have hCalled : instruction.calledHash? (total[·]?) = some hash := by
          rw [calledHash?, hRead]
          exact hHash
        rw [hCalled, Option.toList_some, List.singleton_append,
          ← eraseDups_removeAll_cons] at hNatives
        obtain ⟨later, hAdd, hLater⟩ :=
          NativeTable.addOrGet_of_prefix hTotal (hNatives ▸ List.prefix_append ..) hHash place
        refine ⟨later, ?_, by rw [hLater, hNatives]⟩
        exact Environment.operandBytes_sourceNative hFormat few fewer hHash hAdd _
  · have hNone : instruction.calledHash? (total[·]?) = none := by
      unfold calledHash?
      split
      · next hNative => exact absurd (OperandValues.format_of_native hNative) hFormat
      · rfl
    rw [hNone, Option.toList_none, List.nil_append] at hNatives
    exact ⟨natives, Environment.operandBytes_source h hNear rfl hFormat hValues hRead
      hInstruction hAddress natives, hNatives⟩

end Instruction
end ScriptBackend
