import ScriptBackend.Proofs.Assembly.Reencoding
import ScriptBackend.Proofs.Assembly.RoundTrip

/-!
Disassembling and assembling are inverse. The instructions of a script, listed
as source and assembled again, come to lie where they were: padding has become
instructions that do nothing, so that no page is crossed any more, and every
instruction has its size and its bytes.
-/
namespace ScriptBackend

open Assembly Outcome

/-! Lines -/

namespace Instruction

variable (hash? : Nat → Option UInt64) (instruction : Instruction)

def labelLine : Line :=
  ⟨.ofLabel (addressLabel instruction.address), .code, some (addressLabel instruction.address),
    some (addressLabel instruction.address)⟩

def sourceLine : Line :=
  ⟨.ofInstruction instruction.opcode.mnemonic (instruction.sourcePrimitive hash?).operands, .code,
    none, some (addressLabel instruction.address)⟩

/-- An instruction in source, in the place that it has. -/
def relocated : Located :=
  ⟨instruction.sourceLine hash?, instruction.sourcePrimitive hash?,
    instruction.address, instruction.size⟩

/-- The source of an instruction is expanded to the primitive that it stands
for, and to nothing else. -/
theorem expand_sourceLine (symbols : Symbols) (strings : StringPages) :
    expand symbols strings (instruction.sourceLine hash?) instruction.opcode.mnemonic
      (instruction.sourcePrimitive hash?).operands = .ok [instruction.sourcePrimitive hash?] :=
  expand_opcode instruction.opcode _

/-- Instructions in source push no literals. -/
theorem store_sourceLine (strings : StringPages) :
    (instruction.sourceLine hash?).store strings = strings := by
  have hText : (instruction.sourceLine hash?).pushedText? = none :=
    pushedText?_opcode instruction.opcode _
  rw [Line.store, hText]

end Instruction

def sourceLines (hash? : Nat → Option UInt64) (instructions : List Instruction) : List Line :=
  instructions.flatMap fun instruction => [instruction.labelLine, instruction.sourceLine hash?]

/-- The lines of a unit of instructions. -/
theorem scopeLines_sourceUnit (hash? : Nat → Option UInt64) (instructions : List Instruction) :
    scopeLines (sourceUnit hash? instructions) =
      lineOf .code none (.ofDirective (.segment .code)) ::
        sourceLines hash? instructions := by
  have hLines (scope : Option String) :
      linesIn .code scope (instructions.flatMap (Instruction.sourceStatements hash?)) =
        sourceLines hash? instructions := by
    induction instructions generalizing scope with
    | nil => rfl
    | cons first rest ih =>
        have hLabel : lineBehind .code scope (.ofLabel (addressLabel first.address)) =
            first.labelLine := by
          simp [lineBehind, Scoping.add, Scoping.segmentOf, Statement.ofLabel,
            Instruction.labelLine, qualify, isLocal_addressLabel]
        have hOwn : lineBehind .code (some (addressLabel first.address))
            (.ofInstruction first.opcode.mnemonic
            (first.sourcePrimitive hash?).operands) = first.sourceLine hash? := by
          simp [lineBehind, Scoping.add, Scoping.segmentOf, Statement.ofInstruction,
            Instruction.sourceLine]
        have hSecond : linesIn .code (some (addressLabel first.address))
            (.ofInstruction first.opcode.mnemonic
              (first.sourcePrimitive hash?).operands ::
                rest.flatMap (Instruction.sourceStatements hash?)) =
            first.sourceLine hash? :: sourceLines hash? rest := by
          rw [linesIn_cons_behind, hOwn]
          exact congrArg (first.sourceLine hash? :: ·) (ih _)
        rw [List.flatMap_cons, Instruction.sourceStatements, List.cons_append,
          linesIn_cons_behind, hLabel]
        exact congrArg (first.labelLine :: ·) hSecond
  rw [scopeLines_eq, sourceUnit, linesIn_cons_behind, ← hLines none]
  rfl

/-- Code has no data. -/
theorem collectData_sourceUnit (hash? : Nat → Option UInt64) (instructions : List Instruction) :
    collectData (scopeLines (sourceUnit hash? instructions)) =
      .ok ⟨.empty, [], .empty, .empty, .empty⟩ := by
  have hAll : Collection.empty.addAll (scopeLines (sourceUnit hash? instructions)) =
      .ok .empty := by
    rw [scopeLines_sourceUnit, Collection.addAll_cons rfl]
    induction instructions with
    | nil => rfl
    | cons first rest ih =>
        have hLabel : Collection.empty.add first.labelLine = .ok .empty :=
          Collection.add_code rfl (.inl rfl)
        have hOwn : Collection.empty.add (first.sourceLine hash?) = .ok .empty :=
          Collection.add_code rfl (.inr ⟨_, _, rfl⟩)
        exact (Collection.addAll_cons hLabel).trans ((Collection.addAll_cons hOwn).trans ih)
  rw [collectData, hAll]
  rfl

/-! Layout -/

section

variable {hash? : Nat → Option UInt64} {options : Options} {instruction : Instruction}
  {instructions : List Instruction} {finish : Nat} {state : LayoutState} {strings : StringPages}

/-- The layout of an instruction behind others: its label gets its address, and
it stays where it was. -/
theorem addAll_source {lines : List Line}
    (hSize : (instruction.sourcePrimitive hash?).size (instruction.sourceLine hash?) options =
      .ok instruction.size)
    (hFits : instruction.address % Page.size + instruction.size ≤ Page.size)
    (hEnd : state.codeEnd = instruction.address) (hPending : state.pending = Table.empty)
    (hNew : state.labels.contains (addressLabel instruction.address) = false) :
    ∃ next : LayoutState,
      LayoutState.addAll .empty options (instruction.labelLine ::
        instruction.sourceLine hash? :: lines) state strings =
        LayoutState.addAll .empty options lines next strings ∧
      next.codeEnd = instruction.endAddress ∧ next.pending = Table.empty ∧
      ∀ label, next.labels.find? label = (state.labels.find? label).or
        (if label = addressLabel instruction.address then some instruction.address else none) := by
  have hSymbols : Symbols.empty.contains (addressLabel instruction.address) = false := by
    simp [Symbols.contains, Symbols.empty]
  let noted : LayoutState :=
    { state with pending := state.pending.insertNew (addressLabel instruction.address) () }
  let between : LayoutState := { noted with addresses := noted.addresses.push none }
  have hNote : state.note .empty instruction.labelLine = .ok noted := by
    have hFresh : (Symbols.empty.contains (addressLabel instruction.address) ||
        state.labels.contains (addressLabel instruction.address) ||
        state.pending.contains (addressLabel instruction.address)) = false := by
      rw [hSymbols, hNew, hPending, Table.contains_empty]
      rfl
    exact if_neg (Bool.eq_false_iff.mp hFresh)
  have hPrimitives : placeAll (instruction.sourceLine hash?) options between.codeEnd
      [instruction.sourcePrimitive hash?] =
        .ok (some instruction.address, instruction.endAddress) := by
    have hPlace : Page.place between.codeEnd instruction.size = instruction.address := by
      show Page.place state.codeEnd _ = _
      rw [hEnd, Page.place_of_fits hFits]
    refine bind_eq_ok.mpr ⟨_, hSize, bind_eq_ok.mpr ⟨_, rfl, ?_⟩⟩
    rw [hPlace]
    rfl
  let next : LayoutState := { between.bind instruction.address with
    addresses := between.addresses.push (some instruction.address), codeEnd :=
      instruction.endAddress }
  have hPlace : between.place .empty strings options (instruction.sourceLine hash?) = .ok next :=
    bind_eq_ok.mpr ⟨_, instruction.expand_sourceLine hash? .empty strings,
      bind_eq_ok.mpr ⟨_, hPrimitives, rfl⟩⟩
  refine ⟨next, ?_, rfl, rfl, fun label => ?_⟩
  · have hLabel : LayoutState.addAll .empty options
        (instruction.labelLine :: instruction.sourceLine hash? :: lines)
        state strings = _ := LayoutState.addAll_cons hNote rfl
    rw [← instruction.store_sourceLine hash? strings] at hPlace
    have hOwn : LayoutState.addAll .empty options (instruction.sourceLine hash? :: lines)
        between strings = _ :=
      LayoutState.addAll_cons rfl hPlace
    rw [instruction.store_sourceLine] at hOwn
    exact hLabel.trans hOwn
  · have hFind := LayoutState.find?_bind between instruction.address label
    have hWaiting : between.pending.contains label =
        decide (label = addressLabel instruction.address) := by
      show (state.pending.insertNew _ ()).contains label = _
      rw [Table.contains_insertNew, hPending, Table.contains_empty, Bool.false_or]
    rw [hWaiting] at hFind
    simpa using hFind

/-- Instructions that can keep their places: each lies on one page, and is laid
out with its size. -/
def KeepsPlace (hash? : Nat → Option UInt64) (options : Options) (instruction : Instruction) :
    Prop :=
  instruction.address % Page.size + instruction.size ≤ Page.size ∧
    (instruction.sourcePrimitive hash?).size (instruction.sourceLine hash?) options =
      .ok instruction.size

/-- The layout of instructions that follow one another: every label gets the
address that it tells. -/
theorem addAll_sourceLines {start : Nat} (hChained : Instruction.Chained start instructions finish)
    (hEach : ∀ instruction ∈ instructions, KeepsPlace hash? options instruction)
    (hEnd : state.codeEnd = start) (hPending : state.pending = Table.empty)
    (hNew : ∀ instruction ∈ instructions,
      state.labels.find? (addressLabel instruction.address) = none) :
    ∃ final : LayoutState,
      LayoutState.addAll .empty options (sourceLines hash? instructions) state strings =
        (.ok final, strings) ∧
      (∀ label address, state.labels.find? label = some address →
        final.labels.find? label = some address) ∧
      ∀ instruction ∈ instructions,
        final.labels.find? (addressLabel instruction.address) = some instruction.address := by
  induction instructions generalizing start state with
  | nil => exact ⟨state, rfl, fun _ _ hFound => hFound, by simp⟩
  | cons first rest ih =>
      obtain ⟨rfl, hRest⟩ := hChained
      rw [List.forall_mem_cons] at hEach hNew
      have hFirst : state.labels.contains (addressLabel first.address) = false := by
        rw [Table.contains_eq_isSome_find?, hNew.1]
        rfl
      obtain ⟨next, hNext, hBehind, hWaiting, hFind⟩ :=
        addAll_source hEach.1.2 hEach.1.1 hEnd hPending hFirst
      have hLater : ∀ instruction ∈ rest,
          next.labels.find? (addressLabel instruction.address) = none := by
        intro instruction hMem
        have hAddress : first.address + first.size ≤ instruction.address :=
          hRest.le_address instruction hMem
        have hOther : addressLabel instruction.address ≠
            addressLabel first.address := fun hSame => by
          have hSame := addressLabel_inj hSame
          unfold Instruction.size at hAddress
          omega
        rw [hFind, hNew.2 instruction hMem, if_neg hOther]
        rfl
      obtain ⟨final, hFinal, hKept, hLabels⟩ := ih hRest hEach.2 hBehind hWaiting hLater
      refine ⟨final, hNext.trans hFinal, fun label address hFound => hKept label address ?_,
        List.forall_mem_cons.mpr ⟨hKept _ _ ?_, hLabels⟩⟩
      · rw [hFind, hFound, Option.some_or]
      · rw [hFind, hNew.1, Option.none_or, if_pos rfl]

/-- A unit of instructions that follow one another from address zero on has a
layout. -/
theorem layoutCode_sourceUnit (hChained : Instruction.Chained 0 instructions finish)
    (hEach : ∀ instruction ∈ instructions, KeepsPlace hash? options instruction) :
    ∃ layout, layoutCode .empty options (scopeLines (sourceUnit hash? instructions)) .empty =
      (.ok layout, .empty) ∧ ∀ instruction ∈ instructions,
        layout.labels.find? (addressLabel instruction.address) = some instruction.address := by
  let begun : LayoutState := { LayoutState.start with addresses := #[none] }
  obtain ⟨final, hFinal, _, hLabels⟩ :=
    @addAll_sourceLines hash? options instructions finish begun .empty 0 hChained hEach
    rfl rfl fun _ _ => Table.find?_empty _
  have hAll : LayoutState.addAll .empty options
      (scopeLines (sourceUnit hash? instructions)) .start .empty = (.ok final, .empty) := by
    rw [scopeLines_sourceUnit]
    exact (LayoutState.addAll_cons rfl rfl).trans hFinal
  rw [layoutCode, hAll]
  refine ⟨_, rfl, fun instruction hMem => ?_⟩
  dsimp only
  rw [LayoutState.find?_bind, hLabels instruction hMem, Option.some_or]

/-- In an arrangement of their lines instructions that follow one another stand
where they were. -/
theorem flatten_of_arranged {symbols : Symbols} {start last : Nat} {rows : List (List Located)}
    (hChained : Instruction.Chained start instructions finish)
    (hEach : ∀ instruction ∈ instructions, KeepsPlace hash? options instruction)
    (h : Arranged symbols strings options start (sourceLines hash? instructions) rows last) :
    rows.flatten = instructions.map (Instruction.relocated hash?) ∧ last = finish := by
  induction instructions generalizing start rows with
  | nil =>
      cases h
      exact ⟨rfl, hChained⟩
  | cons first rest ih =>
      obtain ⟨rfl, hRest⟩ := hChained
      rw [List.forall_mem_cons] at hEach
      obtain ⟨hFits, hSize⟩ := hEach.1
      change Arranged symbols strings options first.address
        (first.labelLine :: first.sourceLine hash? :: sourceLines hash? rest) rows last at h
      cases h with
      | @cons _ middle _ _ _ labelRow _ labelPrimitives _ labelPlaces behind =>
          obtain rfl := List.map_eq_nil_iff.mp (Except.ok.inj labelPrimitives).symm
          obtain rfl : first.address = middle := labelPlaces
          cases behind with
          | @cons _ middle _ _ _ row _ primitives own places others =>
              have hExpand := first.expand_sourceLine hash? symbols strings
              have hPrimitives : .ok (row.map Located.primitive) =
                  Except.ok [first.sourcePrimitive hash?] :=
                primitives.symm.trans hExpand
              obtain ⟨located, rfl, hPrimitive⟩ :=
                List.map_eq_singleton_iff.mp (Except.ok.inj hPrimitives)
              have hLine := own located (by simp)
              obtain ⟨hOwn, hAddress, rfl⟩ := places
              rw [hPrimitive, hLine, hSize] at hOwn
              have hSame : located.size = first.size := (Except.ok.inj hOwn).symm
              rw [hSame, Page.place_of_fits hFits] at hAddress
              have hLocated : located = first.relocated hash? := by
                cases located
                simp_all [Instruction.relocated]
              subst hLocated
              obtain ⟨hFlat, rfl⟩ := ih hRest hEach.2 others
              exact ⟨by simp [hFlat], rfl⟩

/-- In the layout of their unit instructions stand where they were. -/
theorem flatten_of_arranged_sourceUnit {symbols : Symbols} {last : Nat} {rows : List (List Located)}
    (hChained : Instruction.Chained 0 instructions finish)
    (hEach : ∀ instruction ∈ instructions, KeepsPlace hash? options instruction)
    (h : Arranged symbols strings options 0
      (scopeLines (sourceUnit hash? instructions)) rows last) :
    rows.flatten = instructions.map (Instruction.relocated hash?) ∧ last = finish := by
  rw [scopeLines_sourceUnit] at h
  cases h with
  | @cons _ middle _ _ _ row _ primitives _ places rest =>
      obtain rfl := List.map_eq_nil_iff.mp (Except.ok.inj primitives).symm
      obtain rfl : 0 = middle := places
      have hRest := flatten_of_arranged hChained hEach rest
      exact hRest

end

/-! Encoding -/

/-- Instructions that follow one another are encoded from their source as they
were, and the natives that they call make up the table again. -/
theorem encodes_source {environment : Environment} {addresses : List Nat}
    {instructions : List Instruction}
    (h : environment.Relabels addresses) (hNear : ∀ address ∈ addresses, address ≤ codeLimit)
    (hInstructions : ∀ instruction ∈ instructions, instruction.IsRelistable addresses ∧
      instruction.address ≤ codeLimit)
    {total : List UInt64} (hTotal : total.Nodup)
    (hRead : ∀ instruction ∈ instructions, ∃ values, instruction.operands? = some values ∧
      Instruction.IsWritable (total[·]?) values) {natives : NativeTable}
    (hNatives : natives.hashes ++
      ((instructions.filterMap (Instruction.calledHash? (total[·]?))).removeAll
      natives.hashes).eraseDups = total) :
    ∃ later, Encodes environment natives (instructions.map (Instruction.relocated (total[·]?)))
      instructions later ∧ later.hashes = total := by
  induction instructions generalizing natives with
  | nil => exact ⟨natives, .nil natives, by simpa [List.removeAll] using hNatives⟩
  | cons first rest ih =>
      rw [List.forall_mem_cons] at hInstructions hRead
      obtain ⟨⟨hFirst, hAddress⟩, hOthers⟩ := hInstructions
      obtain ⟨⟨values, hValues, hWritable⟩, hLater⟩ := hRead
      have hCalled : (first :: rest).filterMap (Instruction.calledHash? (total[·]?)) =
          (first.calledHash? (total[·]?)).toList ++
            rest.filterMap (Instruction.calledHash? (total[·]?)) := by
        cases hHash : first.calledHash? (total[·]?) <;> simp [hHash]
      rw [hCalled] at hNatives
      obtain ⟨middle, hBytes, hMiddle⟩ :=
        Instruction.operandBytes_sourcePrimitive h hNear hValues hFirst hAddress
        hTotal hWritable _ hNatives
      obtain ⟨later, hEncodes, hAll⟩ := ih hOthers hLater hMiddle
      exact ⟨later, .cons hBytes hEncodes, hAll⟩

/-- A unit of instructions that follow one another assembles to these
instructions. -/
theorem assemble_sourceUnit {source : NativeSource} {instructions : List Instruction} {finish : Nat}
    {total : List UInt64} (hChained : Instruction.Chained 0 instructions finish)
    (hFinish : finish ≤ codeLimit)
    (hFits : ∀ instruction ∈ instructions,
      instruction.address % Page.size + instruction.size ≤ Page.size)
    (hInstructions : ∀ instruction ∈ instructions,
      instruction.IsRelistable (instructions.map Instruction.address))
    (hRead : ∀ instruction ∈ instructions, ∃ values, instruction.operands? = some values ∧
      Instruction.IsWritable (total[·]?) values)
    (hTotal : total.Nodup)
    (hNatives : (instructions.filterMap (Instruction.calledHash? (total[·]?))).eraseDups = total) :
    ∃ script natives, assemble source .default (sourceUnit (total[·]?) instructions) = .ok script ∧
      script.code = instructions.flatMap Instruction.bytes ∧ natives.hashes = total ∧
      script.natives = NativeTable.rotated natives script.code.length := by
  have hEach : ∀ instruction ∈ instructions,
      KeepsPlace (total[·]?) .default instruction := fun instruction hMem =>
    have ⟨_, hValues, _⟩ := hRead instruction hMem
    ⟨hFits instruction hMem, Instruction.size_sourcePrimitive hValues
      (hInstructions instruction hMem) rfl⟩
  have hNear : ∀ instruction ∈ instructions, instruction.address ≤
      codeLimit := fun instruction hMem =>
    Nat.le_trans (Nat.le_add_right _ _)
      (Nat.le_trans (hChained.endAddress_le.2 instruction hMem) hFinish)
  obtain ⟨layout, hLayout, hLabels⟩ := layoutCode_sourceUnit hChained hEach
  obtain ⟨rows, hRows, hAddresses, _, _⟩ := layoutCode_ok hLayout
  let environment : Environment := ⟨.empty, layout.labels, source, .default⟩
  have hRelabels : environment.Relabels (instructions.map Instruction.address) := by
    refine ⟨rfl, rfl, ?_⟩
    rw [List.forall_mem_map]
    exact hLabels
  obtain ⟨later, hEncodes, hLater⟩ : ∃ later,
      Encodes environment .empty (instructions.map (Instruction.relocated (total[·]?)))
        instructions later ∧ later.hashes = total :=
    encodes_source hRelabels (List.forall_mem_map.mpr hNear)
      (fun instruction hMem =>
        ⟨hInstructions instruction hMem, hNear instruction hMem⟩) hTotal hRead
      (by simpa [NativeTable.hashes, NativeTable.empty, Table.keys,
        Table.empty, List.removeAll] using hNatives)
  obtain ⟨hRow, rfl⟩ := flatten_of_arranged_sourceUnit hChained hEach hRows
  have hPlaces := hRows.contiguous
  rw [hRow] at hPlaces
  obtain ⟨image, hImage, rfl, hCode⟩ :=
    @Encodes.emit environment _ _ _ _ _ ⟨#[], .empty⟩ hPlaces hEncodes rfl
  have hEmit : emitCode environment .empty layout
      (scopeLines (sourceUnit (total[·]?) instructions)) .empty = .ok image := by
    rw [emitCode_eq_foldlM hRows hAddresses, hRow]
    exact hImage
  let unit : Assembled source .default (sourceUnit (total[·]?) instructions) _ :=
    ⟨_, layout, .empty, _, image, collectData_sourceUnit _ _, hLayout, hFinish, rfl, hEmit, rfl⟩
  refine ⟨_, image.natives, unit.assemble_eq_ok, ?_, hLater, ?_⟩
  · have hPadded : Instruction.padded (#[] : Array UInt8).size instructions = instructions :=
      Instruction.padded_of_chained hChained
    rw [hPadded] at hCode
    exact (Page.flatten_split _).trans hCode
  · rw [unit.length_code]
    exact unit.natives_eq

/-! Scripts -/

namespace Script

def nativeHashes (script : Script) : List UInt64 :=
  script.natives.mapIdx fun index hash => rotateLeft hash (nativeRotation index script.codeLength)

/-- The hashes of a script are those of its table before they were turned. -/
theorem nativeHashes_eq {script : Script} {natives : NativeTable}
    (h : script.natives = natives.rotated script.codeLength) :
    script.nativeHashes = natives.hashes := by
  refine List.ext_getElem? fun index => ?_
  rw [nativeHashes, List.getElem?_mapIdx, h]
  exact natives.getElem?_rotated _ index

/-- What the listing of a script does not tell: every instruction can be told,
and the native table has exactly the natives that the code calls, in the order
in which it calls them first. -/
structure IsRelistable (script : Script) : Prop where
  instructions : ∀ instruction ∈ (Disassembly.ofCode script.code).instructions,
    instruction.IsRelistable ((Disassembly.ofCode script.code).instructions.map Instruction.address)
  natives : script.nativeHashes =
    ((Disassembly.ofCode script.code).instructions.filterMap
      (Instruction.calledHash? script.nativeHash?)).eraseDups

end Script

namespace Assembly.Assembled

variable {source : NativeSource} {options : Options} {statements : List Statement} {script : Script}

/-- The code of an assembled unit is a chain of instructions, each of which lies
on one page and has its operands; every native that it calls has an entry. -/
theorem disassembles (unit : Assembled source options statements script) :
    ∃ instructions, Disassembly.ofCode script.code = ⟨instructions, none⟩ ∧
      script.code = instructions.flatMap Instruction.bytes ∧
      Instruction.Chained 0 instructions unit.layout.codeLength ∧
      (∀ instruction ∈ instructions,
        instruction.address % Page.size + instruction.size ≤ Page.size) ∧
      ∀ instruction ∈ instructions, ∃ values, instruction.operands? = some values ∧
        ∀ arguments returns index, values = .native arguments returns index →
          (script.nativeHash? index).isSome = true := by
  obtain ⟨rows, hRows, hAddresses, _, _⟩ := layoutCode_ok unit.laidOut
  obtain ⟨primitives, hEncodes, hCode⟩ := unit.code_eq hRows hAddresses
  have hPlaces := hRows.contiguous
  have hChained := hEncodes.chained hPlaces
  have hReadable : ∀ instruction ∈ Instruction.padded 0 primitives, ∃ values,
      instruction.operands? = some values :=
    Instruction.operands?_of_mem_padded (hEncodes.readable hPlaces)
  have hRenders := renders_padded hPlaces (hEncodes.carries hPlaces)
  have hNatives := hEncodes.native_lt hPlaces unit.natives_included.2
      fun name symbol hSymbol hSegment => by
    obtain ⟨hash, _, hHash⟩ := unit.included_of_symbol hSymbol hSegment
    exact (List.getElem?_eq_some_iff.mp hHash).1
  refine ⟨Instruction.padded 0 primitives, ?_, hCode, hChained, hRenders.fits_page hPlaces,
    fun instruction hMem => ?_⟩
  · rw [hCode]
    exact Instruction.walk_flatMap_bytes hChained hReadable
  · obtain ⟨values, hValues⟩ := hReadable instruction hMem
    refine ⟨values, hValues, ?_⟩
    rintro arguments returns index rfl
    -- padding calls no native
    have hOwn : instruction ∈ primitives := by
      have hCalls : instruction ∈ (Instruction.padded 0 primitives).filter fun instruction =>
          instruction.opcode.format = .native :=
        List.mem_filter.mpr ⟨hMem, decide_eq_true (OperandValues.format_of_native hValues)⟩
      rw [filter_padded] at hCalls
      exact List.mem_of_mem_filter hCalls
    rw [unit.nativeHash?_eq, List.getElem?_eq_getElem (hNatives _ hOwn _ _ _ hValues)]
    rfl

end Assembly.Assembled

/-- Reassembling a disassembly reproduces the code and the native table. Where
no frame has a name, every number is finite, every target begins an instruction,
and the native table has exactly the natives that are called in the order of
their first use, the listing of a script assembles without any native database
under the default options, to the same bytes of code and the same stored table.
Numbers come back because the text of a finite number reads as that number. -/
theorem assembleText_sourceListing {source : NativeSource} {options : Options}
    {statements : List Statement}
    {script : Script} (h : assemble source options statements = .ok script)
    (hScript : script.IsRelistable)
    (hFloats : ∀ instruction ∈ (Disassembly.ofCode script.code).instructions, ∀ value,
      instruction.operands? = some (.float value) → ReadsBack value) :
    ∃ listing rebuilt, script.sourceListing? = some listing ∧
      assembleText NativeDatabase.empty .default listing = .ok rebuilt ∧
      rebuilt.code = script.code ∧ rebuilt.natives = script.natives := by
  obtain ⟨unit⟩ := assemble_ok h
  obtain ⟨instructions, hDecoded, hCode, hChained, hFits, hRead⟩ := unit.disassembles
  have hLookup : script.nativeHash? = (unit.code.natives.hashes[·]?) := funext unit.nativeHash?_eq
  obtain ⟨hInstructions, hNatives⟩ := hScript
  rw [hDecoded] at hInstructions hNatives hFloats
  have hWritable : ∀ instruction ∈ instructions, ∃ values, instruction.operands? = some values ∧
      Instruction.IsWritable script.nativeHash? values := by
    intro instruction hMem
    obtain ⟨values, hValues, hEntries⟩ := hRead instruction hMem
    refine ⟨values, hValues, fun value hFloat => ?_, hEntries⟩
    subst hFloat
    exact hFloats instruction hMem value hValues
      ((hInstructions instruction hMem).finite value hValues)
  obtain ⟨listing, parsed, hListing, hParse, hParsed⟩ :=
    Script.read_sourceListing hDecoded hWritable
  rw [hLookup] at hWritable hNatives hParsed
  rw [Script.nativeHashes_eq unit.natives_eq] at hNatives
  obtain ⟨rebuilt, natives, hRebuilt, hSame, hHashes, hStored⟩ :=
    assemble_sourceUnit hChained unit.reachable hFits
    hInstructions hWritable unit.code.natives.nodup_hashes hNatives.symm
  have hLines : Rewritten .code
      (scopeLines (sourceUnit (unit.code.natives.hashes[·]?) instructions))
      (scopeLines parsed) := by
    rw [scopeLines_eq, scopeLines_eq]
    exact rewritten_of_normalUnit hParsed
  refine ⟨listing, rebuilt, hListing, ?_, hSame.trans hCode.symm, ?_⟩
  · rw [assembleText, hParse]
    exact assemble_rewritten hLines hRebuilt
  · rw [hStored, hSame, ← hCode, unit.length_code, unit.natives_eq, NativeTable.rotated, hHashes]
    rfl

/-- A script can be told if its instructions can, and its table has the natives
that they call. -/
theorem Script.isRelistable_of_decoded {script : Script} {instructions : List Instruction}
    {natives : NativeTable} (hDecoded : Disassembly.ofCode script.code = ⟨instructions, none⟩)
    (hStored : script.natives = natives.rotated script.codeLength)
    (hInstructions : ∀ instruction ∈ instructions,
      instruction.IsRelistable (instructions.map Instruction.address))
    (hNatives : (instructions.filterMap (Instruction.calledHash? (natives.hashes[·]?))).eraseDups =
      natives.hashes) :
    script.IsRelistable := by
  have hLookup : script.nativeHash? = (natives.hashes[·]?) := funext fun index => by
    rw [Script.nativeHash?, hStored, NativeTable.getElem?_rotated]
  refine ⟨?_, ?_⟩
  · rw [hDecoded]
    exact hInstructions
  · rw [hDecoded, hLookup, Script.nativeHashes_eq hStored]
    exact hNatives.symm

/-- A number, a call of the first native and a jump back to the number, as they
are decoded. -/
def decodedLoop : List Instruction :=
  [⟨0, .pushConstF, [0, 0, 0, 0x3F]⟩, ⟨5, .native, [4, 0, 0]⟩, ⟨9, .j, [0xF4, 0xFF]⟩]

def loopNatives : List UInt64 :=
  [0x4EDE34FBADD967A6]

example : decodedLoop.mapM (Instruction.sourceLines? (loopNatives[·]?)) = some
    [["L0:", "    PUSH_CONST_F 0.5"], ["L5:", "    NATIVE 1, 0, 0x4EDE34FBADD967A6"],
      ["L9:", "    J L0"]] := by
  decide +kernel

theorem assembleText_sourceListing_loop :
    ∃ script, assemble NativeDatabase.empty .default (sourceUnit (loopNatives[·]?) decodedLoop) =
      .ok script ∧ script.IsRelistable ∧
      (∀ instruction ∈ (Disassembly.ofCode script.code).instructions, ∀ value,
        instruction.operands? = some (.float value) → ReadsBack value) ∧
      ∃ listing rebuilt, script.sourceListing? = some listing ∧
        assembleText NativeDatabase.empty .default listing = .ok rebuilt ∧
        rebuilt.code = decodedLoop.flatMap Instruction.bytes ∧
        rebuilt.natives = script.natives := by
  have hChained : Instruction.Chained 0 decodedLoop 12 := ⟨rfl, rfl, rfl, rfl⟩
  have hHalf : Binary32.ofText? (Binary32.text ⟨0x3F000000⟩).toList =
      some ⟨0x3F000000⟩ := by decide +kernel
  have hNumber : (⟨0, .pushConstF, [0, 0, 0, 0x3F]⟩ : Instruction).operands? =
      some (.float ⟨0x3F000000⟩) := rfl
  have hCall : (⟨5, .native, [4, 0, 0]⟩ : Instruction).operands? = some (.native 1 0 0) := rfl
  have hJump : (⟨9, .j, [0xF4, 0xFF]⟩ : Instruction).operands? = some (.relative (-12)) := rfl
  have hInstructions : ∀ instruction ∈ decodedLoop,
      instruction.IsRelistable (decodedLoop.map Instruction.address) := by
    simp only [decodedLoop, List.forall_mem_cons]
    refine ⟨⟨by simp [hNumber], ?_, by decide, by decide, by decide⟩,
      ⟨by simp [hCall], by simp [hCall], by decide, by decide, by decide⟩,
      ⟨by simp [hJump], by simp [hJump], by decide, by decide, by decide⟩, by simp⟩
    simp only [hNumber, Option.some.injEq, OperandValues.float.injEq]
    rintro _ rfl
    decide
  have hRead : ∀ instruction ∈ decodedLoop, ∃ values, instruction.operands? = some values ∧
      Instruction.IsWritable (loopNatives[·]?) values := by
    simp only [decodedLoop, List.forall_mem_cons]
    refine ⟨⟨_, hNumber, ?_, by simp⟩, ⟨_, hCall, by simp, by simp [loopNatives]⟩,
      ⟨_, hJump, by simp, by simp⟩, by simp⟩
    rintro _ ⟨⟩
    exact hHalf
  have hNatives : (decodedLoop.filterMap (Instruction.calledHash? (loopNatives[·]?))).eraseDups =
      loopNatives := by
    decide
  obtain ⟨script, natives, hScript, hCode, hHashes, hStored⟩ :=
    @assemble_sourceUnit NativeDatabase.empty _ _ _
    hChained (by decide) (by decide) hInstructions hRead (by decide) hNatives
  have hDecoded : Disassembly.ofCode script.code = ⟨decodedLoop, none⟩ := by
    rw [hCode]
    exact Instruction.walk_flatMap_bytes hChained fun instruction hMem =>
      have ⟨values, hValues, _⟩ := hRead instruction hMem
      ⟨values, hValues⟩
  obtain ⟨unit⟩ := assemble_ok hScript
  rw [unit.length_code] at hStored
  rw [← hHashes] at hNatives
  have hRelistable : script.IsRelistable :=
    Script.isRelistable_of_decoded hDecoded hStored hInstructions hNatives
  have hFloats : ∀ instruction ∈ (Disassembly.ofCode script.code).instructions, ∀ value,
      instruction.operands? = some (.float value) → ReadsBack value := by
    rw [hDecoded]
    intro instruction hMem value hValue _
    obtain ⟨values, hValues, hWritable⟩ := hRead instruction hMem
    exact hWritable.float value (Option.some.inj (hValues.symm.trans hValue))
  obtain ⟨listing, rebuilt, hListing, hRebuilt, hSame, hTable⟩ :=
    assembleText_sourceListing hScript hRelistable hFloats
  exact ⟨script, hScript, hRelistable, hFloats, listing, rebuilt, hListing, hRebuilt,
    hSame.trans hCode, hTable⟩

end ScriptBackend
