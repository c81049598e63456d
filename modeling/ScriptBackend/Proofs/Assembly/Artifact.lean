import ScriptBackend.Assembly.Unit
import ScriptBackend.Proofs.Assembly.Emission

/-!
What an assembled unit holds. Walking through the code of the script finds the
primitives of all lines again, with padding only where a page would be crossed,
and whatever names a label there denotes the address that the label table gives
it.
-/
namespace ScriptBackend

theorem Page.flatten_split {α : Type} (items : List α) : (split items).flatten = items := by
  induction items using split.induct with
  | case1 items hEmpty =>
      rw [split, dif_pos hEmpty]
      exact (List.isEmpty_iff.mp hEmpty).symm
  | case2 items hItems ih =>
      rw [split, dif_neg hItems, List.flatten_cons, ih, List.take_append_drop]

namespace Assembly

open Outcome

/-- The passes of a unit that assembles. -/
structure Assembled (source : NativeSource) (options : Options) (statements : List Statement)
    (script : Script) where
  data : DataUnit
  layout : Layout
  strings : StringPages
  image : DataImage
  code : CodeImage
  collected : collectData (scopeLines statements) = .ok data
  laidOut : layoutCode data.symbols options (scopeLines statements) data.strings =
    (.ok layout, strings)
  reachable : layout.codeLength ≤ codeLimit
  resolved : resolveReferences layout.labels data.references data.image = .ok image
  emitted : emitCode ⟨data.symbols, layout.labels, source, options⟩ strings layout
    (scopeLines statements) data.natives = .ok code
  linked : script = link options image strings code

/-- A script that was assembled comes with all that was found out about its unit
on the way. -/
theorem assemble_ok {source : NativeSource} {options : Options} {statements : List Statement}
    {script : Script} (h : assemble source options statements = .ok script) :
    Nonempty (Assembled source options statements script) := by
  obtain ⟨data, hData, h⟩ := bind_eq_ok.mp h
  cases hLayout : layoutCode data.symbols options (scopeLines statements) data.strings with
  | mk outcome strings =>
      rw [hLayout] at h
      obtain ⟨layout, rfl, hRest⟩ := bind_eq_ok.mp h
      dsimp only at hRest
      split at hRest
      · cases hRest
      · next hReach =>
          obtain ⟨image, hImage, hRest⟩ := bind_eq_ok.mp hRest
          obtain ⟨code, hCode, hRest⟩ := bind_eq_ok.mp hRest
          cases hRest
          exact ⟨⟨data, layout, strings, image, code, hData, hLayout, Nat.not_lt.mp hReach, hImage,
            hCode, rfl⟩⟩

/-- What was found out about a unit determines its script. -/
theorem Assembled.assemble_eq_ok {source : NativeSource} {options : Options}
    {statements : List Statement} {script : Script}
    (unit : Assembled source options statements script) :
    assemble source options statements = .ok script := by
  refine bind_eq_ok.mpr ⟨unit.data, unit.collected, ?_⟩
  simp only [unit.laidOut]
  refine bind_eq_ok.mpr ⟨unit.layout, rfl, ?_⟩
  simp only [if_neg (Nat.not_lt.mpr unit.reachable)]
  refine bind_eq_ok.mpr ⟨unit.image, unit.resolved, ?_⟩
  refine bind_eq_ok.mpr ⟨unit.code, unit.emitted, ?_⟩
  exact congrArg Except.ok unit.linked.symm

/-- Instructions that stand for primitives in order, from an address on. Each
begins where the one before it ends; only one that would cross the end of its
page is moved to the beginning of the next page, and instructions that do
nothing lead up to it. -/
inductive Renders (environment : Environment) : Nat → List Located → List Instruction → Prop where
  | nil (position : Nat) : Renders environment position [] []
  | next {position : Nat} {located : Located} {rest : List Located} {instruction : Instruction}
      {instructions : List Instruction}
      (fits : position % Page.size + located.size ≤ Page.size)
      (address : located.address = position)
      (carries : Carries environment located instruction)
      (others : Renders environment located.endAddress rest instructions) :
      Renders environment position (located :: rest) (instruction :: instructions)
  | moved {position : Nat} {located : Located} {rest : List Located} {instruction : Instruction}
      {instructions : List Instruction}
      (crosses : Page.size < position % Page.size + located.size)
      (address : located.address = (position / Page.size + 1) * Page.size)
      (carries : Carries environment located instruction)
      (others : Renders environment located.endAddress rest instructions) :
      Renders environment position (located :: rest)
        (Instruction.nops position (located.address - position) ++ instruction :: instructions)

section

variable {environment : Environment} {position finish : Nat} {row : List Located}
  {instructions : List Instruction}

/-- Instructions behind padding render the primitives that they carry. -/
theorem renders_padded (hRow : Contiguous environment.options position row finish)
    (h : List.Forall₂ (Carries environment) row instructions) :
    Renders environment position row (Instruction.padded position instructions) := by
  induction h generalizing position with
  | nil => exact .nil position
  | @cons located instruction rest instructions hCarries _ ih =>
      obtain ⟨_, hAddress, hRest⟩ := hRow
      have hEnd : instruction.endAddress = located.endAddress := by
        rw [Instruction.endAddress, hCarries.address, hCarries.size, Located.endAddress]
      rw [Instruction.padded_cons, hCarries.address, hEnd]
      by_cases hFits : position % Page.size + located.size ≤ Page.size
      · rw [Page.place_of_fits hFits] at hAddress
        rw [hAddress, Nat.sub_self]
        exact .next hFits hAddress hCarries (ih hRest)
      · have hCrosses := Nat.not_le.mp hFits
        rw [Page.place_of_crosses hCrosses] at hAddress
        exact .moved hCrosses hAddress hCarries (ih hRest)

namespace Renders

/-- Each primitive of a unit is carried by one of its instructions. -/
theorem exists_instruction (h : Renders environment position row instructions) {located : Located}
    (hMem : located ∈ row) :
    ∃ instruction ∈ instructions, Carries environment located instruction := by
  induction h with
  | nil => cases hMem
  | next fits address carries others ih =>
      rcases List.mem_cons.mp hMem with rfl | hLater
      · exact ⟨_, by simp, carries⟩
      · obtain ⟨instruction, hInstruction, hCarries⟩ := ih hLater
        exact ⟨instruction, by simp [hInstruction], hCarries⟩
  | moved crosses address carries others ih =>
      rcases List.mem_cons.mp hMem with rfl | hLater
      · exact ⟨_, by simp, carries⟩
      · obtain ⟨instruction, hInstruction, hCarries⟩ := ih hLater
        exact ⟨instruction, by simp [hInstruction], hCarries⟩

/-- No instruction lies across the end of a page. -/
theorem fits_page (hRow : Contiguous environment.options position row finish)
    (h : Renders environment position row instructions) :
    ∀ instruction ∈ instructions,
      instruction.address % Page.size + instruction.size ≤ Page.size := by
  induction h with
  | nil => simp
  | next fits address carries others ih =>
      obtain ⟨_, _, hRest⟩ := hRow
      intro instruction hMem
      rcases List.mem_cons.mp hMem with rfl | hLater
      · rw [carries.address, carries.size, address]
        exact fits
      · exact ih hRest instruction hLater
  | moved crosses address carries others ih =>
      obtain ⟨hSize, hPlace, hRest⟩ := hRow
      intro instruction hMem
      rcases List.mem_append.mp hMem with hPadding | hMem
      · rw [Instruction.size_of_mem_nops hPadding]
        exact Nat.mod_lt _ (by decide)
      · rcases List.mem_cons.mp hMem with rfl | hLater
        · rw [carries.address, carries.size, hPlace]
          exact Page.place_fits _ (Primitive.size_le hSize)
        · exact ih hRest instruction hLater

end Renders

end

namespace Assembled

variable {source : NativeSource} {options : Options} {statements : List Statement} {script : Script}

/-- What the code of a unit was encoded under. -/
def environment (unit : Assembled source options statements script) : Environment :=
  ⟨unit.data.symbols, unit.layout.labels, source, options⟩

/-- The code of the script is the pages of the unit, in one piece. -/
theorem code_toList (unit : Assembled source options statements script) :
    script.code = unit.code.code.toList :=
  (congrArg Script.code unit.linked).trans (Page.flatten_split _)

/-- The code of an assembled unit is that of its rows, with the padding between
them. -/
theorem code_eq (unit : Assembled source options statements script)
    {rows : List (List Located)}
    (hRows : Arranged unit.data.symbols unit.strings options 0 (scopeLines statements) rows
      unit.layout.codeLength)
    (hAddresses : unit.layout.addresses.toList = rows.map fun row =>
      row.head?.map Located.address) :
    ∃ instructions, Encodes unit.environment unit.data.natives rows.flatten instructions
      unit.code.natives ∧
      script.code = (Instruction.padded 0 instructions).flatMap Instruction.bytes := by
  have hEmit : emitCode unit.environment unit.strings unit.layout (scopeLines statements)
      unit.data.natives = _ := emitCode_eq_foldlM hRows hAddresses
  obtain ⟨_, instructions, hEncodes, hCode⟩ :=
    emit_ok hRows.contiguous (hEmit.symm.trans unit.emitted)
  exact ⟨instructions, hEncodes, unit.code_toList.trans hCode⟩

/-- The rows of an assembled unit are encoded in its script, which decodes
without a fault. -/
theorem encodes (unit : Assembled source options statements script)
    {rows : List (List Located)}
    (hRows : Arranged unit.data.symbols unit.strings options 0 (scopeLines statements) rows
      unit.layout.codeLength)
    (hAddresses : unit.layout.addresses.toList = rows.map fun row =>
      row.head?.map Located.address) :
    ∃ instructions, Encodes unit.environment unit.data.natives rows.flatten instructions
      unit.code.natives ∧
      Disassembly.ofCode script.code = ⟨Instruction.padded 0 instructions, none⟩ := by
  obtain ⟨instructions, hEncodes, hCode⟩ := unit.code_eq hRows hAddresses
  refine ⟨instructions, hEncodes, ?_⟩
  rw [hCode]
  apply Instruction.walk_flatMap_bytes (hEncodes.chained hRows.contiguous)
  exact Instruction.operands?_of_mem_padded (hEncodes.readable hRows.contiguous)

/-- The code of an assembled unit is as long as its layout. -/
theorem size_code (unit : Assembled source options statements script) :
    unit.code.code.size = unit.layout.codeLength := by
  obtain ⟨rows, hRows, hAddresses, _, _⟩ := layoutCode_ok unit.laidOut
  have hEmit : emitCode unit.environment unit.strings unit.layout (scopeLines statements)
      unit.data.natives = _ :=
    emitCode_eq_foldlM hRows hAddresses
  exact (emit_ok hRows.contiguous (hEmit.symm.trans unit.emitted)).1

/-- The length that the script states is that of the layout. -/
theorem codeLength_eq (unit : Assembled source options statements script) :
    script.codeLength = unit.layout.codeLength := by
  rw [← unit.size_code]
  exact congrArg Script.codeLength unit.linked

/-- The code of a script has the length that the script states. -/
theorem length_code (unit : Assembled source options statements script) :
    script.code.length = script.codeLength := by
  rw [unit.code_toList, Array.length_toList]
  exact (congrArg Script.codeLength unit.linked).symm

/-- The rows of an assembled unit are in its script. -/
theorem ofCode_eq (unit : Assembled source options statements script)
    {rows : List (List Located)}
    (hRows : Arranged unit.data.symbols unit.strings options 0 (scopeLines statements) rows
      unit.layout.codeLength)
    (hAddresses : unit.layout.addresses.toList = rows.map fun row =>
      row.head?.map Located.address) :
    ∃ instructions, Disassembly.ofCode script.code = ⟨instructions, none⟩ ∧
      Renders unit.environment 0 rows.flatten instructions := by
  obtain ⟨instructions, hEncodes, hDecoded⟩ := unit.encodes hRows hAddresses
  exact ⟨_, hDecoded, renders_padded hRows.contiguous (hEncodes.carries hRows.contiguous)⟩

end Assembled

/-- Decoding undoes encoding. The code of a unit that assembles decodes without
a fault into the primitives of all lines in order, with padding only where a
primitive would cross the end of a page; the operand values that are read back
are those which the operands denote. -/
theorem ofCode_assemble {source : NativeSource} {options : Options} {statements : List Statement}
    {script : Script} (h : assemble source options statements = .ok script) :
    ∃ (unit : Assembled source options statements script) (rows : List (List Located))
      (instructions : List Instruction),
      Arranged unit.data.symbols unit.strings options 0 (scopeLines statements) rows
        unit.layout.codeLength ∧
      Disassembly.ofCode script.code = ⟨instructions, none⟩ ∧
      Renders unit.environment 0 rows.flatten instructions ∧
      ∀ instruction ∈ instructions,
        instruction.address % Page.size + instruction.size ≤ Page.size := by
  obtain ⟨unit⟩ := assemble_ok h
  obtain ⟨rows, hRows, hAddresses, _, _⟩ := layoutCode_ok unit.laidOut
  obtain ⟨instructions, hDecoded, hRenders⟩ := unit.ofCode_eq hRows hAddresses
  exact ⟨unit, rows, instructions, hRows, hDecoded, hRenders,
    hRenders.fits_page hRows.contiguous⟩

/-- A unit that can be measured is assembled. -/
theorem assemble_of_measureUnit {source : NativeSource} {options : Options}
    {statements : List Statement} {measured : DataUnit × Layout × StringPages}
    (h : measureUnit source options statements = .ok measured) :
    ∃ script, assemble source options statements = .ok script ∧
      script.codeLength = measured.2.1.codeLength := by
  obtain ⟨hData, hLayout, hReach, ⟨image, hImage⟩, code, hCode⟩ := measureUnit_ok h
  let unit : Assembled source options statements _ :=
    ⟨_, _, _, image, code, hData, hLayout, hReach, hImage, hCode, rfl⟩
  exact ⟨_, unit.assemble_eq_ok, unit.codeLength_eq⟩

theorem assemble_paged : ∃ script, assemble NativeDatabase.empty .default pagedUnit = .ok script ∧
    script.codeLength = 17922 := by
  obtain ⟨_, hMeasured, _, hLength⟩ := measureUnit_paged
  obtain ⟨script, hScript, hSame⟩ := assemble_of_measureUnit hMeasured
  exact ⟨script, hScript, hSame.trans hLength⟩

theorem ofCode_assemble_paged :
    ∃ script instructions, assemble NativeDatabase.empty .default pagedUnit = .ok script ∧
      script.codeLength = 17922 ∧ Disassembly.ofCode script.code = ⟨instructions, none⟩ ∧
      ∀ instruction ∈ instructions,
        instruction.address % Page.size + instruction.size ≤ Page.size := by
  obtain ⟨script, hScript, hLength⟩ := assemble_paged
  obtain ⟨_, _, instructions, _, hDecoded, _, hFits⟩ := ofCode_assemble hScript
  exact ⟨script, instructions, hScript, hLength, hDecoded, hFits⟩

/-- A decoded instruction denotes the address of a label in every operand in
which its primitive names the label, and the distances from which that address
follows fit 16 signed bits. -/
structure Reaches (label : String) (address : Nat) (located : Located) (instruction : Instruction) :
    Prop where
  jump : ∀ name, located.primitive.opcode.format = .relative →
    located.primitive.operands = [.name name] → located.line.qualify name = label →
    instruction.jumpTarget? = some address ∧
      -0x8000 ≤ (address : Int) - instruction.endAddress ∧
      (address : Int) - instruction.endAddress < 0x8000
  branch : ∀ (k : Nat) value name, located.primitive.opcode.format = .switch →
    located.primitive.operands[k]? = some (.case value name) → located.line.qualify name = label →
    ∃ found, instruction.switchCases[k]? = some (found, address) ∧
      (found.toNat : Int) = value.toInt % 0x100000000 ∧
      -0x8000 ≤ (address : Int) - (instruction.address + Opcode.switchSize (k + 1) : Nat) ∧
      (address : Int) - (instruction.address + Opcode.switchSize (k + 1) : Nat) < 0x8000
  call : ∀ name, located.primitive.opcode.format = .call →
    located.primitive.operands = [.name name] → located.line.qualify name = label →
    instruction.callTarget? = some address
  unsigned24 : ∀ name, located.primitive.opcode.format = .unsigned24 →
    located.primitive.operands = [.name name] → located.line.qualify name = label →
    instruction.operands? = some (.unsigned24 address)
  word : ∀ name, located.primitive.opcode.format = .word →
    located.primitive.operands = [.name name] → located.line.qualify name = label →
    instruction.operands? = some (.word (UInt32.ofNat address))

theorem addressAt_distance {base target : Nat} (h : target ≤ codeLimit) :
    Instruction.addressAt base ((target : Int) - base) = target := by
  unfold codeLimit at h
  unfold Instruction.addressAt
  omega

namespace Carries

variable {environment : Environment} {located : Located} {instruction : Instruction}
  {name : String} {address : Nat}

theorem operands?_eq (h : Carries environment located instruction) {format : OperandFormat}
    (hFormat : located.primitive.opcode.format = format) :
    ∃ values, instruction.operands? = some values ∧
      OperandValues.read? format instruction.operandBytes = some values ∧
      Denotes environment located values := by
  obtain ⟨values, hValues, hDenotes⟩ := h.values
  refine ⟨values, hValues, ?_, hDenotes⟩
  rw [← hFormat, ← h.opcode]
  exact hValues

/-- A jump to a label leads to its address, which is within reach of 16 bits
with a sign. -/
theorem jumpTarget?_label (h : Carries environment located instruction)
    (hFormat : located.primitive.opcode.format = .relative)
    (hOperands : located.primitive.operands = [.name name])
    (hLabel : environment.labels.find? (located.line.qualify name) = some address)
    (hLimit : address ≤ codeLimit) :
    instruction.jumpTarget? = some address ∧
      -0x8000 ≤ (address : Int) - instruction.endAddress ∧
      (address : Int) - instruction.endAddress < 0x8000 := by
  obtain ⟨values, hValues, hRead, hDenotes⟩ := h.operands?_eq hFormat
  obtain ⟨distance, rfl, hLower, hUpper⟩ := OperandValues.relative_of_read? hRead
  obtain ⟨label, target, hName, hTarget, hDistance⟩ := hDenotes
  rw [hOperands] at hName
  cases hName
  rw [Environment.codeLabel_label hLabel] at hTarget
  cases hTarget
  have hEnd : instruction.endAddress = located.address + 3 := by
    rw [Instruction.endAddress, h.address, Instruction.size,
      OperandValues.length_of_read? hRead rfl]
  rw [← hEnd] at hDistance
  subst hDistance
  refine ⟨?_, hLower, hUpper⟩
  rw [Instruction.jumpTarget?, hValues]
  exact congrArg some (addressAt_distance hLimit)

/-- A case with a label leads to its address, counted from behind the case. -/
theorem switchCases_label (h : Carries environment located instruction) {k : Nat} {value : Int64}
    (hFormat : located.primitive.opcode.format = .switch)
    (hOperand : located.primitive.operands[k]? = some (.case value name))
    (hLabel : environment.labels.find? (located.line.qualify name) = some address)
    (hLimit : address ≤ codeLimit) :
    ∃ found, instruction.switchCases[k]? = some (found, address) ∧
      (found.toNat : Int) = value.toInt % 0x100000000 ∧
      -0x8000 ≤ (address : Int) - (instruction.address + Opcode.switchSize (k + 1) : Nat) ∧
      (address : Int) - (instruction.address + Opcode.switchSize (k + 1) : Nat) < 0x8000 := by
  obtain ⟨values, hValues, hRead, hDenotes⟩ := h.operands?_eq hFormat
  obtain ⟨cases, rfl, hRange⟩ := OperandValues.switch_of_read? hRead
  obtain ⟨found, distance, target, hEntry, hFound, hTarget, hDistance⟩ :=
    CasesDenote.entry hDenotes hOperand
  rw [Environment.codeLabel_label hLabel] at hTarget
  cases hTarget
  obtain ⟨hLower, hUpper⟩ := hRange _ (List.mem_of_getElem? hEntry)
  have hBase : located.address + 2 + 6 * (k + 1) =
      instruction.address + Opcode.switchSize (k + 1) := by
    rw [h.address, Opcode.switchSize]
    omega
  rw [hBase] at hDistance
  subst hDistance
  refine ⟨found, ?_, hFound, hLower, hUpper⟩
  rw [Instruction.switchCases, hValues]
  simp only [List.getElem?_mapIdx, hEntry, Option.map_some, addressAt_distance hLimit]

/-- A call of a label has its address as target. -/
theorem callTarget?_label (h : Carries environment located instruction)
    (hFormat : located.primitive.opcode.format = .call)
    (hOperands : located.primitive.operands = [.name name])
    (hInteger : environment.integer located.line (.name name) true = .ok (address : Int)) :
    instruction.callTarget? = some address := by
  obtain ⟨values, hValues, hRead, hDenotes⟩ := h.operands?_eq hFormat
  obtain ⟨target, rfl⟩ := OperandValues.call_of_read? hRead
  obtain ⟨operand, hOperand, hTarget⟩ := hDenotes
  rw [hOperands] at hOperand
  cases hOperand
  rw [hInteger] at hTarget
  rw [Instruction.callTarget?, hValues]
  simp only [Except.ok.injEq, Int.natCast_inj] at hTarget
  rw [hTarget]

theorem operands?_unsigned24_label (h : Carries environment located instruction)
    (hFormat : located.primitive.opcode.format = .unsigned24)
    (hOperands : located.primitive.operands = [.name name])
    (hInteger : environment.integer located.line (.name name) true = .ok (address : Int)) :
    instruction.operands? = some (.unsigned24 address) := by
  obtain ⟨values, hValues, hRead, hDenotes⟩ := h.operands?_eq hFormat
  obtain ⟨value, rfl⟩ := OperandValues.unsigned24_of_read? hRead
  obtain ⟨operand, hOperand, hValue⟩ := hDenotes
  rw [hOperands] at hOperand
  cases hOperand
  rw [hInteger] at hValue
  simp only [Except.ok.injEq, Int.natCast_inj] at hValue
  rw [hValues, hValue]

/-- A label that is pushed as a word is read back as its address. -/
theorem operands?_word_label (h : Carries environment located instruction)
    (hFormat : located.primitive.opcode.format = .word)
    (hOperands : located.primitive.operands = [.name name])
    (hInteger : environment.integer located.line (.name name) true = .ok (address : Int)) :
    instruction.operands? = some (.word (UInt32.ofNat address)) := by
  obtain ⟨values, hValues, hRead, hDenotes⟩ := h.operands?_eq hFormat
  obtain ⟨value, rfl⟩ := OperandValues.word_of_read? hRead
  obtain ⟨operand, n, hOperand, hValue, hWord⟩ := hDenotes
  rw [hOperands] at hOperand
  cases hOperand
  rw [hInteger] at hValue
  cases hValue
  have hNat : value.toNat = address % 2 ^ 32 := by omega
  rw [hValues, ← UInt32.ofNat_mod_size, ← hNat, UInt32.ofNat_toNat]

/-- What a primitive was encoded from says where each label that it names lies. -/
theorem reaches {label : String} (h : Carries environment located instruction)
    (hLabel : environment.labels.find? label = some address)
    (hSymbol : environment.symbols.contains label = false) (hLimit : address ≤ codeLimit) :
    Reaches label address located instruction := by
  refine ⟨?_, ?_, ?_, ?_, ?_⟩
  · rintro name hFormat hOperands rfl
    exact h.jumpTarget?_label hFormat hOperands hLabel hLimit
  · rintro k value name hFormat hOperand rfl
    exact h.switchCases_label hFormat hOperand hLabel hLimit
  · rintro name hFormat hOperands rfl
    exact h.callTarget?_label hFormat hOperands (Environment.integer_label hSymbol hLabel)
  · rintro name hFormat hOperands rfl
    exact h.operands?_unsigned24_label hFormat hOperands (Environment.integer_label hSymbol hLabel)
  · rintro name hFormat hOperands rfl
    exact h.operands?_word_label hFormat hOperands (Environment.integer_label hSymbol hLabel)

end Carries

/-- Every code label that an operand names is reached. The label of a code
statement is bound to the first primitive behind it, or to the end of the code,
and wherever a primitive names that label the decoded instruction denotes that
address. -/
theorem labels_reached {source : NativeSource} {options : Options} {statements : List Statement}
    {script : Script} (h : assemble source options statements = .ok script) :
    ∃ (unit : Assembled source options statements script) (rows : List (List Located))
      (instructions : List Instruction),
      Arranged unit.data.symbols unit.strings options 0 (scopeLines statements) rows
        unit.layout.codeLength ∧
      Disassembly.ofCode script.code = ⟨instructions, none⟩ ∧
      Renders unit.environment 0 rows.flatten instructions ∧
      ∀ (i : Nat) (line : Line) (label : String), (scopeLines statements)[i]? = some line →
        line.segment = .code → line.label = some label →
        unit.layout.labels.find? label =
            some (firstAddress (rows.drop i).flatten unit.layout.codeLength) ∧
          ∀ located ∈ rows.flatten, ∃ instruction ∈ instructions,
            Carries unit.environment located instruction ∧
            Reaches label (firstAddress (rows.drop i).flatten unit.layout.codeLength) located
              instruction := by
  obtain ⟨unit⟩ := assemble_ok h
  obtain ⟨rows, hRows, hAddresses, hLabels, hBound⟩ := layoutCode_ok unit.laidOut
  obtain ⟨instructions, hDecoded, hRenders⟩ := unit.ofCode_eq hRows hAddresses
  refine ⟨unit, rows, instructions, hRows, hDecoded, hRenders,
    fun i line label hLine hCode hLabel => ?_⟩
  have hFound := hLabels i line label hLine hCode hLabel
  obtain ⟨hLength, hSymbol⟩ := hBound _ _ hFound
  refine ⟨hFound, fun located hMem => ?_⟩
  obtain ⟨instruction, hInstruction, hCarries⟩ := hRenders.exists_instruction hMem
  exact ⟨instruction, hInstruction, hCarries,
    hCarries.reaches hFound hSymbol (Nat.le_trans hLength unit.reachable)⟩

/-- The label in front of the first instruction and the one in front of the last
are bound to these, and whatever names the latter in the code denotes its
address: a push, a jump and every case of the branches on both pages. -/
theorem labels_reached_paged :
    ∃ script, assemble NativeDatabase.empty .default pagedUnit = .ok script ∧
      ∃ (unit : Assembled NativeDatabase.empty .default pagedUnit script)
        (rows : List (List Located)) (instructions : List Instruction),
        Disassembly.ofCode script.code = ⟨instructions, none⟩ ∧
        unit.layout.labels.find? "main" =
          some (firstAddress (rows.drop 3).flatten unit.layout.codeLength) ∧
        unit.layout.labels.find? "done" =
          some (firstAddress (rows.drop 23).flatten unit.layout.codeLength) ∧
        ∀ located ∈ rows.flatten, ∃ instruction ∈ instructions, Reaches "done"
          (firstAddress (rows.drop 23).flatten unit.layout.codeLength) located instruction := by
  obtain ⟨script, hScript, _⟩ := assemble_paged
  obtain ⟨unit, rows, instructions, _, hDecoded, _, hLabels⟩ := labels_reached hScript
  obtain ⟨hMain, _⟩ := hLabels 3 _ "main" rfl rfl rfl
  obtain ⟨hDone, hReaches⟩ := hLabels 23 _ "done" rfl rfl rfl
  refine ⟨script, hScript, unit, rows, instructions, hDecoded, hMain, hDone, fun located hMem => ?_⟩
  obtain ⟨instruction, hInstruction, _, hReached⟩ := hReaches located hMem
  exact ⟨instruction, hInstruction, hReached⟩

end Assembly
end ScriptBackend
