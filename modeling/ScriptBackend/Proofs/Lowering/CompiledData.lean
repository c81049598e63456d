import Mathlib.Logic.ExistsUnique
import ScriptBackend.Lowering.Compiled
import ScriptBackend.Proofs.Assembly.GlobalIds
import ScriptBackend.Proofs.Lowering.CompiledLinks
import ScriptBackend.Proofs.Lowering.DataSources

/-!
The data of a compiled program. The slots of variables, the sizes of types and
the words that variables begin with are computed apart from each other; in the
finished script the words of every variable stand where its slot says, and they
fill the data without gaps and without overlaps.
-/
namespace ScriptBackend

open Assembly Lowering Outcome

/-- The first word of a variable among those of its kind: the offset in the
block for a global, the index for a static or an argument. -/
def Slot.offset (slot : Slot) : Nat :=
  match slot.region with
  | .globals => slot.index % globalsLimit
  | _ => slot.index

/-- The word of a script some words behind the first one of a slot. A global is
looked for in the block that its id names. -/
def Script.word? (script : Script) (slot : Slot) (i : Nat) : Option Word :=
  match slot.region with
  | .globals =>
    if script.globalsBlock.map UInt8.toNat = some (slot.index / globalsLimit) then
      script.globalsPages.flatten[slot.offset + i]?
    else none
  | .statics | .arguments => script.statics[slot.offset + i]?
  | .locals | .parameters => none

/-- Where the words of a region begin: those of arguments behind the statics. -/
def Lowering.Setting.startOf (setting : Setting) : Region → Nat
  | .arguments => totalWords (Slots.variableWords setting.program setting.sizes)
      (Slots.inRegion setting.program .statics)
  | _ => 0

/-- A word belongs to a variable of one of some regions: it stands `place.2`
words behind the slot of the variable `place.1`. -/
def Lowering.Setting.Owns (setting : Setting) (regions : List Region) (position : Nat)
    (place : Nat × Nat) : Prop :=
  ∃ declared region slot, setting.program.vars[place.1]? = some declared ∧ region ∈ regions ∧
    declared.storage = .placed region ∧ setting.slots.slots[place.1]? = some (some slot) ∧
    place.2 < setting.sizes.of declared.ty ∧ slot.offset + place.2 = position

namespace Assembly.Assembled

variable {source : NativeSource} {options : Options} {statements : List Statement} {script : Script}

/-- A function begins at an address: its name stands for the address, and a
frame instruction is there. -/
structure BeginsAt (unit : Assembled source options statements script)
    (name : String) (address : Nat) : Prop where
  bound : unit.layout.labels.find? name = some address
  frame : ∃ instruction ∈ (Disassembly.ofCode script.code).instructions,
    instruction.opcode = .enter ∧ instruction.address = address

/-- A line of the code with a frame instruction and a label is where that label
stands. -/
theorem beginsAt_of_line (unit : Assembled source options statements script) {line : Line}
    (hLine : line ∈ scopeLines statements) (hCode : line.segment = .code) {name : String}
    (hLabel : line.label = some name) {operands : List Operand}
    (hContent : line.statement.content = .instruction "ENTER" operands) :
    ∃ address, unit.BeginsAt name address ∧ unit.data.symbols.contains name = false := by
  obtain ⟨rows, hRows, hAddresses, hLabels, hBound⟩ := layoutCode_ok unit.laidOut
  obtain ⟨instructions, hDecoded, hRenders⟩ := unit.ofCode_eq hRows hAddresses
  obtain ⟨i, hi⟩ := List.getElem?_of_mem hLine
  have hFound := hLabels i line name hi hCode hLabel
  have hInstruction : line.instruction? = some ("ENTER", operands) := by
    simp [Line.instruction?, hContent, hCode]
  obtain ⟨row, hRow, hCases⟩ := hRows.row_cases hi
  rw [hInstruction] at hCases
  obtain ⟨first, rest, rfl, hExpand⟩ := hCases
  obtain ⟨hFirst, _⟩ :=
    List.cons.inj (Except.ok.inj ((expand_opcode .enter operands).symm.trans hExpand))
  have hHead : (rows.drop i).flatten.head? = some first := by
    rw [List.drop_eq_getElem_cons (List.getElem?_eq_some_iff.mp hRow).1,
      (List.getElem?_eq_some_iff.mp hRow).2]
    rfl
  have hMem : first ∈ rows.flatten :=
    List.mem_flatten.mpr ⟨_, List.mem_of_getElem? hRow, List.mem_cons_self ..⟩
  obtain ⟨instruction, hIn, hCarries⟩ := hRenders.exists_instruction hMem
  rw [firstAddress, hHead] at hFound
  refine ⟨first.address, ⟨hFound, instruction, ?_, ?_, hCarries.address⟩, (hBound _ _ hFound).2⟩
  · rw [hDecoded]
    exact hIn
  · rw [hCarries.opcode, ← hFirst]

end Assembly.Assembled

section Words

variable {source : NativeSource} {options : Options} {statements : List Statement} {script : Script}

/-- What a word of a variable is in the script: a number is its own bits with
zeros above, a function the address at which it begins. -/
def Lowering.Datum.Becomes (unit : Assembled source options statements script) (stored : Word) :
    Datum → Prop
  | .int value => stored = Word.ofInt value.toInt
  | .float value => stored = Word.ofFloat value
  | .address name => ∃ address, unit.BeginsAt name address ∧ stored = Word.ofInt address
  | .text _ => False

theorem becomes_of_isZero (unit : Assembled source options statements script) {word : Datum}
    (h : word.isZero = true) : word.Becomes unit Word.zero := by
  cases word with
  | int value =>
      rw [Datum.isZero, beq_iff_eq] at h
      subst h
      rfl
  | float value =>
      rw [Datum.isZero, beq_iff_eq] at h
      subst h
      rfl
  | text value => cases h
  | address name => cases h

/-- The word that an operand denotes is what the word of the variable becomes. -/
theorem becomes_of_denotes (unit : Assembled source options statements script) {word : Datum}
    {source : Option WordSource} {stored : Word} (hComes : ComesFrom word source)
    (hNoText : ∀ text, word ≠ .text text)
    (hFunction : ∀ name, word = .address name → '.' ∉ name.toList ∧
      ∃ address, unit.BeginsAt name address ∧ unit.data.symbols.contains name = false)
    (h : WordDenotes unit.data.symbols unit.layout.labels source stored) :
    word.Becomes unit stored := by
  cases hComes with
  | zero hZero =>
      cases h
      exact becomes_of_isZero unit hZero
  | float value =>
      rcases h with hWord | ⟨_, _, hLabel, _⟩
      · cases hWord
        rfl
      · cases hLabel
  | @other line _ hIntegral hScope =>
      cases word with
      | int value =>
          have hValue : PendingWord.evaluate ⟨line, 0, .int, .int value⟩ unit.data.symbols =
              PendingWord.ofInt ⟨line, 0, .int, .int value⟩ value.toInt := rfl
          unfold PendingWord.ofInt at hValue
          dsimp only at hValue
          rcases h with hWord | ⟨_, _, hLabel, _⟩
          · have hWord := hValue.symm.trans hWord
            split at hWord
            · cases hWord
            · cases hWord
              rfl
          · have hLabel := hValue.symm.trans hLabel
            split at hLabel <;> cases hLabel
      | float value => exact absurd rfl (hIntegral value)
      | text value => exact absurd rfl (hNoText value)
      | address name =>
          obtain ⟨hPlain, address, hBegins, hUnknown⟩ := hFunction name rfl
          have hQualify : line.qualify name = name := by
            rw [Line.qualify, hScope, qualify_of_not_mem hPlain]
          have hValue : PendingWord.evaluate ⟨line, 0, .int, .name name⟩ unit.data.symbols =
              .ok (.address name) := by
            simp [PendingWord.evaluate, Symbols.intOperand, hQualify,
              Symbols.value?_of_contains hUnknown]
          rcases h with hWord | ⟨label, found, hLabel, hFound, rfl⟩
          · cases hValue.symm.trans hWord
          · cases hValue.symm.trans hLabel
            rw [hBegins.bound, Option.some.injEq] at hFound
            subst hFound
            exact ⟨address, hBegins, rfl⟩

end Words

section Units

variable {setting : Setting} {options : Options} {script : Script} {unit : CompiledUnit setting}

/-- Every function whose name has no point begins somewhere in the code. -/
theorem exists_beginsAt (assembled : Assembled setting.natives options unit.statements script)
    {id : Nat}
    {name : String} (hName : setting.program.functionName? id = some name)
    (hPlain : '.' ∉ name.toList) :
    ∃ address, assembled.BeginsAt name address ∧ assembled.data.symbols.contains name = false := by
  obtain ⟨function, hFunction, rfl⟩ := Option.map_eq_some_iff.mp hName
  obtain ⟨pieces, hCode, hPieces⟩ := unit.generated.exists_pieces
  have hId : id ∈ codeOrder setting.program unit.entry :=
    mem_codeOrder (Array.getElem?_eq_some_iff.mp hFunction).1
  obtain ⟨i, hi, rfl⟩ := List.getElem_of_mem hId
  have hBound : i < pieces.length := hPieces.length_eq ▸ hi
  have hSame := hPieces.get hi hBound
  rw [List.get_eq_getElem, hFunction, Option.some.injEq] at hSame
  have hEnter : enter pieces[i].frame pieces[i].name ∈ unit.code := by
    rw [hCode]
    exact List.mem_flatten.mpr
      ⟨_, List.mem_map_of_mem (List.getElem_mem hBound), List.mem_cons_self ..⟩
  have hLabel : (enter pieces[i].frame pieces[i].name).label = some function.name := by
    rw [hSame]
    rfl
  have hLine := lineOf_mem_linesIn unit.ne_directive hEnter hLabel (isLocal_eq_false hPlain) none
  have hMem : lineOf .code (some function.name) (enter pieces[i].frame pieces[i].name) ∈
      scopeLines unit.statements := by
    rw [unit.scopeLines_statements]
    simp [hLine]
  refine assembled.beginsAt_of_line hMem rfl ?_ rfl
  simp [lineOf, hLabel, qualify_of_not_mem hPlain]

/-- The variables outside of frames have their places, their types have sizes,
and functions have names without points. -/
structure Lowering.Setting.PlacesVariables (setting : Setting) : Prop where
  places : setting.slots.PlacesData setting.program setting.sizes
  sizes : setting.sizes = .ofStructs setting.program.structs
  plain : ∀ function ∈ setting.program.functions, '.' ∉ function.name.toList
  sized : ∀ (id : Nat) declared region, setting.program.vars[id]? = some declared →
    declared.storage = .placed region → region.isData = true →
      declared.ty.HasSize setting.program.structs

variable {region : Region}

/-- No region has more words than a directive can count. -/
theorem length_wordSources (assembled : Assembled setting.natives options unit.statements script)
    (hRegion : region.isData = true) :
    (wordSources region (scopeLines unit.statements)).length < UInt32.size - 1 := by
  have hData := assembled.holdsData
  have hStatics := hData.staticsFit
  have hGlobals := hData.globalsFit
  have hSize := hData.sizes region
  unfold staticLimit at hStatics
  unfold globalsLimit at hGlobals
  unfold UInt32.size
  cases region with
  | statics =>
      have hSame : (assembled.image.regionWords .statics).size = assembled.image.statics.size := rfl
      omega
  | arguments =>
      have hSame : (assembled.image.regionWords .arguments).size =
          assembled.image.arguments.size := rfl
      omega
  | globals =>
      have hSame : (assembled.image.regionWords .globals).size = assembled.image.globals.size := rfl
      omega
  | locals => cases hRegion
  | parameters => cases hRegion

namespace Lowering.Setting.PlacesVariables

/-- The words of a variable come from the lines of the unit. -/
theorem comesFrom (h : setting.PlacesVariables)
    (assembled : Assembled setting.natives options unit.statements script)
    (hRegion : region.isData = true) {id : Nat} (hId : id ∈ Slots.inRegion setting.program region) :
    ∃ declared words, setting.program.vars[id]? = some declared ∧
      initialWords setting declared.ty declared.initializer = .ok words ∧
      words.length = Slots.variableWords setting.program setting.sizes id ∧
      (∀ word ∈ words, ∀ text, word ≠ .text text) ∧
      List.Forall₂ ComesFrom words (variableSources setting (unit.segmentOf region) id) := by
  obtain ⟨declared, hDeclared, hStorage⟩ := Slots.mem_inRegion.mp hId
  obtain ⟨words, hWords, hLength, hNoText, hComes⟩ :=
    unit.comesFrom_variable h.places h.sizes hRegion
    (length_wordSources assembled hRegion) hId hDeclared
      (h.sized id declared region hDeclared hStorage hRegion)
  refine ⟨declared, words, hDeclared, hWords, ?_, hNoText, hComes⟩
  rw [Slots.variableWords, hDeclared, hLength]

/-- A variable of the data has one source for each word of its type. -/
theorem length_variableSources (h : setting.PlacesVariables)
    (assembled : Assembled setting.natives options unit.statements script)
    (hRegion : region.isData = true) :
    ∀ id ∈ Slots.inRegion setting.program region,
      (variableSources setting (unit.segmentOf region) id).length =
        Slots.variableWords setting.program setting.sizes id := by
  intro id hId
  obtain ⟨_, words, _, _, hLength, _, hComes⟩ := h.comesFrom assembled hRegion hId
  rw [← hComes.length_eq, hLength]

/-- A region has the words of its variables. -/
theorem size_regionWords (h : setting.PlacesVariables)
    (assembled : Assembled setting.natives options unit.statements script)
    (hRegion : region.isData = true) :
    (assembled.image.regionWords region).size =
      totalWords (Slots.variableWords setting.program setting.sizes)
        (Slots.inRegion setting.program region) := by
  rw [assembled.holdsData.sizes, unit.wordSources_region h.places.toListsData hRegion]
  exact length_flatten (h.length_variableSources assembled hRegion)

/-- The statics of the image are those of the program, as many words as their
types have. -/
theorem size_statics (h : setting.PlacesVariables)
    (assembled : Assembled setting.natives options unit.statements script) :
    assembled.image.statics.size = totalWords (Slots.variableWords setting.program setting.sizes)
      (Slots.inRegion setting.program .statics) :=
  have hRegion : Region.statics.isData = true := rfl
  h.size_regionWords assembled hRegion

theorem size_arguments (h : setting.PlacesVariables)
    (assembled : Assembled setting.natives options unit.statements script) :
    assembled.image.arguments.size = totalWords (Slots.variableWords setting.program setting.sizes)
      (Slots.inRegion setting.program .arguments) :=
  have hRegion : Region.arguments.isData = true := rfl
  h.size_regionWords assembled hRegion

/-- The globals of the image are those of the program, as many words as their
types have. -/
theorem size_globals (h : setting.PlacesVariables)
    (assembled : Assembled setting.natives options unit.statements script) :
    assembled.image.globals.size = totalWords (Slots.variableWords setting.program setting.sizes)
      (Slots.inRegion setting.program .globals) :=
  have hRegion : Region.globals.isData = true := rfl
  h.size_regionWords assembled hRegion

/-- A variable of a region has an offset there. -/
theorem exists_place {id : Nat} {declared : Variable}
    (hDeclared : setting.program.vars[id]? = some declared)
    (hStorage : declared.storage = .placed region) :
    ∃ offset, (id, offset) ∈ consecutive (Slots.variableWords setting.program setting.sizes)
      (setting.startOf region) (Slots.inRegion setting.program region) :=
  exists_offset _ (Slots.mem_inRegion.mpr ⟨declared, hDeclared, hStorage⟩)

/-- The words of a variable stand behind those of the variables before it. -/
theorem words_of_variable (h : setting.PlacesVariables)
    (assembled : Assembled setting.natives options unit.statements script)
    (hRegion : region.isData = true) {id start offset : Nat}
    (hPlace : (id, offset) ∈ consecutive (Slots.variableWords setting.program setting.sizes) start
      (Slots.inRegion setting.program region)) :
    ∃ declared words, setting.program.vars[id]? = some declared ∧
      initialWords setting declared.ty declared.initializer = .ok words ∧
      words.length = Slots.variableWords setting.program setting.sizes id ∧
      ∀ i word, words[i]? = some word →
        ∃ stored, (assembled.image.regionWords region)[offset - start + i]? = some stored ∧
          word.Becomes assembled stored := by
  obtain ⟨declared, words, hDeclared, hWords, hLength, hNoText, hComes⟩ :=
    h.comesFrom assembled hRegion (consecutive_bounds hPlace).1
  refine ⟨declared, words, hDeclared, hWords, hLength, fun i word hWord => ?_⟩
  obtain ⟨hi, rfl⟩ := List.getElem?_eq_some_iff.mp hWord
  have hSource : i < (variableSources setting (unit.segmentOf region) id).length :=
    hComes.length_eq ▸ hi
  have hFound : (wordSources region (scopeLines unit.statements))[offset - start + i]? =
      some (variableSources setting (unit.segmentOf region) id)[i] := by
    rw [unit.wordSources_region h.places.toListsData hRegion,
      getElem?_flatten (h.length_variableSources assembled hRegion) hPlace (hLength ▸ hi),
      List.getElem?_eq_getElem hSource]
  obtain ⟨stored, hStored, hDenotes⟩ := assembled.holdsData.words region _ _ hFound
  have hMem : words[i] ∈ words := List.getElem_mem hi
  refine ⟨stored, hStored, becomes_of_denotes assembled (hComes.get hi hSource) (hNoText _ hMem)
    (fun name hName => ?_) hDenotes⟩
  obtain ⟨function, hFunction⟩ := isKnown_of_initialWords hWords _ hMem name hName
  obtain ⟨found, hFound, rfl⟩ := Option.map_eq_some_iff.mp hFunction
  have hPlain := h.plain found (Array.mem_of_getElem? hFound)
  exact ⟨hPlain, exists_beginsAt assembled hFunction hPlain⟩

/-- The words of statics stand first, and those of arguments behind them. -/
theorem exists_slot (h : setting.PlacesVariables) (hRegion : region.isData = true) {id offset : Nat}
    (hPlace : (id, offset) ∈ consecutive (Slots.variableWords setting.program setting.sizes)
      (setting.startOf region) (Slots.inRegion setting.program region)) :
    ∃ slot, setting.slots.slots[id]? = some (some slot) ∧ slot.region = region ∧
      (0 < Slots.variableWords setting.program setting.sizes id → slot.offset = offset) ∧
      (region = .globals → 0 < Slots.variableWords setting.program setting.sizes id →
        setting.program.globalsBlock.map UInt8.toNat = some (slot.index / globalsLimit)) := by
  cases region with
  | statics => exact ⟨_, h.places.statics id offset hPlace, rfl, fun _ => rfl, nofun⟩
  | arguments => exact ⟨_, h.places.arguments id offset hPlace, rfl, fun _ => rfl, nofun⟩
  | globals =>
      refine ⟨_, h.places.globals id offset hPlace, rfl, ?_⟩
      rcases h.places.fits with hNone | ⟨block, hBlock, hFits⟩
      · have hMem := (consecutive_bounds hPlace).1
        rw [hNone] at hMem
        cases hMem
      · have hEnd : offset + Slots.variableWords setting.program setting.sizes id ≤
            globalsLimit := by
          have hBound := (consecutive_bounds hPlace).2.2
          rw [h.places.globalWords_eq] at hFits
          simp only [Setting.startOf] at hBound
          omega
        simp only [Slot.offset, hBlock, Option.getD_some, Option.map_some, Option.some.injEq]
        refine ⟨fun hSome => (globalId_parts block (by omega)).2, fun _ hSome => ?_⟩
        exact (globalId_parts block (by omega)).1.symm
  | locals => cases hRegion
  | parameters => cases hRegion

/-- A script with globals has the block of its program. -/
theorem globalsBlock_eq (h : setting.PlacesVariables)
    (assembled : Assembled setting.natives options unit.statements script)
    (hSome : Slots.inRegion setting.program .globals ≠ []) :
    script.globalsBlock = setting.program.globalsBlock := by
  rcases h.places.fits with hNone | ⟨block, hBlock, _⟩
  · exact absurd hNone hSome
  · have hSegment : unit.globalsSegment = .globals block := by
      simp [CompiledUnit.globalsSegment, hBlock]
    have hLine : lineOf unit.globalsSegment none (.ofDirective (.segment unit.globalsSegment)) ∈
        scopeLines unit.statements := by
      have hRegion : Region.globals.isData = true := rfl
      rcases dataSegment_ok (unit.dataSegment_dataOf h.places.toListsData hRegion) with
        ⟨hNone, _⟩ | ⟨data, _, hCode⟩
      · exact absurd hNone hSome
      · have hGlobals : unit.globals =
            .ofDirective (.segment unit.globalsSegment) :: data.flatten := hCode
        rw [unit.scopeLines_statements, hGlobals]
        simp
    rw [assembled.linked, hBlock]
    exact assembled.holdsData.block _ hLine block hSegment

/-- The script holds the words of a region behind each other, from the first of
them on. -/
theorem word?_of_slot (h : setting.PlacesVariables)
    (assembled : Assembled setting.natives options unit.statements script)
    (hRegion : region.isData = true) {id offset i : Nat}
    (hPlace : (id, offset) ∈ consecutive (Slots.variableWords setting.program setting.sizes)
      (setting.startOf region) (Slots.inRegion setting.program region))
    (hInside : i < Slots.variableWords setting.program setting.sizes id) {slot : Slot}
    (hSlot : setting.slots.slots[id]? = some (some slot)) :
    script.word? slot i =
      (assembled.image.regionWords region)[offset - setting.startOf region + i]? := by
  obtain ⟨found, hFound, hSame, hOffset, hBlock⟩ := h.exists_slot hRegion hPlace
  rw [hSlot, Option.some.injEq, Option.some.injEq] at hFound
  subst hFound
  have hFirst := hOffset (Nat.zero_lt_of_lt hInside)
  obtain ⟨hMem, hLow, hHigh⟩ := consecutive_bounds hPlace
  have hStatics : script.statics = assembled.image.statics ++ assembled.image.arguments :=
    congrArg Script.statics assembled.linked
  unfold Script.word?
  rw [hSame]
  cases region with
  | statics =>
      have hSize := h.size_statics assembled
      simp only [Setting.startOf] at hHigh
      dsimp only
      rw [hFirst, hStatics, Array.getElem?_append_left (by omega)]
      rfl
  | arguments =>
      have hSize := h.size_statics assembled
      simp only [Setting.startOf] at hLow ⊢
      rw [hFirst, hStatics, Array.getElem?_append_right (by omega), hSize]
      have hIndex : offset + i - totalWords (Slots.variableWords setting.program setting.sizes)
          (Slots.inRegion setting.program .statics) = offset - totalWords
            (Slots.variableWords setting.program setting.sizes)
            (Slots.inRegion setting.program .statics) + i := by omega
      rw [hIndex]
      rfl
  | globals =>
      have hPages : script.globalsPages.flatten = assembled.image.globals.toList :=
        (congrArg (·.globalsPages.flatten) assembled.linked).trans (Page.flatten_split _)
      dsimp only
      rw [h.globalsBlock_eq assembled (List.ne_nil_of_mem hMem),
        if_pos (hBlock rfl (Nat.zero_lt_of_lt hInside)), hFirst, hPages, Array.getElem?_toList]
      rfl
  | locals => cases hRegion
  | parameters => cases hRegion

/-- The words that belong to variables are those from the offsets of the
variables on. -/
theorem owns_iff (h : setting.PlacesVariables) {regions : List Region}
    (hRegions : ∀ region ∈ regions, region.isData = true) {position : Nat} {place : Nat × Nat} :
    setting.Owns regions position place ↔ ∃ region ∈ regions, ∃ offset,
      (place.1, offset) ∈ consecutive (Slots.variableWords setting.program setting.sizes)
        (setting.startOf region) (Slots.inRegion setting.program region) ∧
      place.2 < Slots.variableWords setting.program setting.sizes place.1 ∧
      offset + place.2 = position := by
  have hWords : ∀ {declared}, setting.program.vars[place.1]? = some declared →
      Slots.variableWords setting.program setting.sizes place.1 = setting.sizes.of declared.ty :=
    fun {declared} hDeclared => by rw [Slots.variableWords, hDeclared]
  constructor
  · rintro ⟨declared, region, slot, hDeclared, hRegion, hStorage, hSlot, hInside, hSame⟩
    obtain ⟨offset, hPlace⟩ := exists_place hDeclared hStorage
    obtain ⟨found, hFound, _, hOffset, _⟩ := h.exists_slot (hRegions region hRegion) hPlace
    rw [hSlot, Option.some.injEq, Option.some.injEq] at hFound
    subst hFound
    rw [← hWords hDeclared] at hInside
    refine ⟨region, hRegion, offset, hPlace, hInside, ?_⟩
    rw [← hOffset (Nat.zero_lt_of_lt hInside), hSame]
  · rintro ⟨region, hRegion, offset, hPlace, hInside, hSame⟩
    obtain ⟨declared, hDeclared, hStorage⟩ := Slots.mem_inRegion.mp (consecutive_bounds hPlace).1
    obtain ⟨slot, hSlot, _, hOffset, _⟩ := h.exists_slot (hRegions region hRegion) hPlace
    refine ⟨declared, region, slot, hDeclared, hRegion, hStorage, hSlot,
      hWords hDeclared ▸ hInside, ?_⟩
    rw [hOffset (Nat.zero_lt_of_lt hInside), hSame]

end Lowering.Setting.PlacesVariables

/-- The data of a script agrees with the slots of its variables. -/
structure DataAgrees (setting : Setting)
    (assembled : Assembled setting.natives options statements script) : Prop where
  statics_size : script.statics.size = setting.slots.staticWords + setting.slots.argumentWords
  argumentCount : script.argumentCount = setting.slots.argumentWords
  globalsLength : script.globalsLength = setting.slots.globalWords
  stored : ∀ (id : Nat) declared region, setting.program.vars[id]? = some declared →
    declared.storage = .placed region → region.isData = true →
    ∃ slot words, setting.slots.slots[id]? = some (some slot) ∧ slot.region = region ∧
      initialWords setting declared.ty declared.initializer = .ok words ∧
      words.length = setting.sizes.of declared.ty ∧
      ∀ i word, words[i]? = some word →
        ∃ stored, script.word? slot i = some stored ∧ word.Becomes assembled stored
  statics_owned : ∀ position < script.statics.size,
    ∃! place, setting.Owns [.statics, .arguments] position place
  globals_owned : ∀ position < script.globalsLength,
    ∃! place, setting.Owns [.globals] position place

/-- The data of an assembled program agrees with the slots of its variables. -/
theorem Lowering.Setting.PlacesVariables.dataAgrees (h : setting.PlacesVariables)
    (assembled : Assembled setting.natives options unit.statements script) :
    DataAgrees setting assembled := by
  have hStatics : assembled.image.statics.size = setting.slots.staticWords :=
    (h.size_statics assembled).trans h.places.staticWords_eq.symm
  have hArguments : assembled.image.arguments.size = setting.slots.argumentWords :=
    (h.size_arguments assembled).trans h.places.argumentWords_eq.symm
  have hGlobals : assembled.image.globals.size = setting.slots.globalWords :=
    (h.size_globals assembled).trans h.places.globalWords_eq.symm
  have hSize : script.statics.size = setting.slots.staticWords + setting.slots.argumentWords := by
    rw [congrArg Script.statics assembled.linked, link, Array.size_append, hStatics, hArguments]
  have hCount : script.argumentCount = setting.slots.argumentWords :=
    (congrArg Script.argumentCount assembled.linked).trans hArguments
  have hLength : script.globalsLength = setting.slots.globalWords :=
    (congrArg Script.globalsLength assembled.linked).trans hGlobals
  refine ⟨hSize, hCount, hLength, ?_, ?_, ?_⟩
  · intro id declared region hDeclared hStorage hRegion
    obtain ⟨offset, hPlace⟩ := Setting.PlacesVariables.exists_place hDeclared hStorage
    obtain ⟨slot, hSlot, hSame, _⟩ := h.exists_slot hRegion hPlace
    obtain ⟨found, words, hFound, hWords, hCount, hStored⟩ :=
      h.words_of_variable assembled hRegion hPlace
    rw [hDeclared, Option.some.injEq] at hFound
    subst hFound
    have hTotal : Slots.variableWords setting.program setting.sizes id =
        setting.sizes.of declared.ty := by
      rw [Slots.variableWords, hDeclared]
    refine ⟨slot, words, hSlot, hSame, hWords, hCount.trans hTotal, fun i word hWord => ?_⟩
    obtain ⟨stored, hAt, hBecomes⟩ := hStored i word hWord
    have hInside := hCount ▸ (List.getElem?_eq_some_iff.mp hWord).1
    exact ⟨stored, (h.word?_of_slot assembled hRegion hPlace hInside hSlot).trans hAt, hBecomes⟩
  · intro position hPosition
    rw [hSize, h.places.staticWords_eq, h.places.argumentWords_eq, ← totalWords_append] at hPosition
    refine (existsUnique_congr fun place => ?_).mp (existsUnique_place hPosition)
    rw [h.owns_iff (by decide), consecutive_append]
    simp [Setting.startOf, or_and_right, exists_or]
  · intro position hPosition
    rw [hLength, h.places.globalWords_eq] at hPosition
    refine (existsUnique_congr fun place => ?_).mp (existsUnique_place hPosition)
    rw [h.owns_iff (by decide)]
    simp [Setting.startOf]

end Units

/-- A script of a program was assembled from the parts of the program. -/
theorem exists_assembled_of_compileToScript {natives : NativeSource} {options : Options}
    {program : Program}
    {script : Script} (h : compileToScript natives options program = .ok script) :
    ∃ slots, Slots.ofProgram program (.ofStructs program.structs) = .ok slots ∧
      ∃ unit : CompiledUnit ⟨program, .ofStructs program.structs, slots, natives⟩,
        compileToAssembly natives program = .ok unit.statements ∧
        Nonempty (Assembled natives options unit.statements script) := by
  obtain ⟨statements, hCompiled, hScript⟩ := bind_eq_ok.mp h
  obtain ⟨setting, hSetting, hUnit⟩ := bind_eq_ok.mp hCompiled
  obtain ⟨slots, hSlots, hSetting⟩ := bind_eq_ok.mp hSetting
  cases hSetting
  obtain ⟨unit, rfl⟩ := CompiledUnit.exists_of_unitOf hUnit
  refine ⟨slots, hSlots, unit, hCompiled, ?_⟩
  cases hOutcome : assemble natives options unit.statements with
  | error fault =>
      rw [hOutcome] at hScript
      cases hScript
  | ok found =>
      rw [hOutcome] at hScript
      cases hScript
      exact assemble_ok hOutcome

/-- Slots of variables agree with the data of the script. In a program whose
functions keep to their frames and have names without points, and whose structs
outside of frames do not contain themselves, the data of the script is as large
as all slots; every variable outside of frames has the words that it begins with
from its slot on; and every word of the data belongs to one variable only. -/
theorem dataAgrees_of_compileToScript {natives : NativeSource} {options : Options}
    {program : Program} {script : Script} (h : compileToScript natives options program = .ok script)
    (hFrames : ∀ function ∈ program.functions, function.KeepsToFrame program)
    (hPlain : ∀ function ∈ program.functions, '.' ∉ function.name.toList)
    (hSized : ∀ (id : Nat) declared region, program.vars[id]? = some declared →
      declared.storage = .placed region → region.isData = true →
      declared.ty.HasSize program.structs) :
    ∃ setting statements, Setting.ofProgram natives program = .ok setting ∧
      compileToAssembly natives program = .ok statements ∧
      ∃ assembled : Assembled setting.natives options statements script,
        DataAgrees setting assembled := by
  obtain ⟨statements, hCompiled, hScript⟩ := bind_eq_ok.mp h
  obtain ⟨setting, hSetting, hUnit⟩ := bind_eq_ok.mp hCompiled
  have hOwn := hSetting
  obtain ⟨slots, hSlots, hOwn⟩ := bind_eq_ok.mp hOwn
  cases hOwn
  obtain ⟨unit, rfl⟩ := CompiledUnit.exists_of_unitOf hUnit
  have hAssembled : assemble natives options unit.statements = .ok script := by
    cases hOutcome : assemble natives options unit.statements with
    | error fault =>
        rw [hOutcome] at hScript
        cases hScript
    | ok found =>
        rw [hOutcome] at hScript
        cases hScript
        rfl
  obtain ⟨assembled⟩ := assemble_ok hAssembled
  have hPlaces : Setting.PlacesVariables ⟨program, .ofStructs program.structs, slots, natives⟩ :=
    ⟨Slots.placesData_ofProgram hFrames hSlots, rfl, hPlain, hSized⟩
  exact ⟨_, unit.statements, hSetting, hCompiled, assembled, hPlaces.dataAgrees assembled⟩

/-- A program with data of every kind: numbers, an array of structs, and a
pointer that begins as the address of the first function. The entry point is the
second function. It calls the first one, stores its address and calls it through
the pointer. -/
def savedGame : Program where
  name := "saved"
  hash := none
  globalsBlock := some 3
  structs := #[⟨"SPAWN", [⟨"place", .vector, none⟩, ⟨"count", .int, some (.ofInt 4)⟩]⟩]
  prototypes := #[⟨"SCORER", [.int], .int⟩]
  vars := #[
    ⟨"lives", .int, .placed .statics, some (.ofInt 7)⟩,
    ⟨"score", .int, .placed .globals, some (.ofInt 9)⟩,
    ⟨"origin", .vector, .placed .arguments, none⟩,
    ⟨"scorer", .functionPointer 0, .placed .statics, some (.ofFunction 0 0)⟩,
    ⟨"spawns", .array (.struct 0) 2, .placed .statics, none⟩,
    ⟨"points", .int, .placed .parameters, none⟩]
  functions :=
    let lives : Expr := .var ⟨.int, false, true⟩ 0
    let score : Expr := .var ⟨.int, false, true⟩ 1
    let scorer : Expr := .var ⟨.functionPointer 0, false, true⟩ 3
    let points : Expr := .var ⟨.int, false, true⟩ 5
    #[⟨"AWARD", [5], .int, [.ret (some (.combined .add score points))]⟩,
      ⟨"MAIN", [], .void, [
        .assign score none (.call ⟨.int, false, false⟩ 0 [lives]),
        .assign scorer none (.ofFunction 0 0),
        .evaluate (.callThrough ⟨.int, false, false⟩ scorer [.ofInt 5])]⟩]
  natives := #[]

/-- In the script the pointer begins as 29, which is also the address that the
code calls. -/
theorem compileToScript_savedGame :
    ∃ script, compileToScript NativeDatabase.empty .default savedGame = .ok script ∧
      script.statics.size = 14 ∧ script.statics[1]? = some (Word.ofInt 29) ∧
      (Disassembly.ofCode script.code).instructions.filterMap Instruction.callTarget? = [29] :=
  exists_of_any (by decide +kernel)

theorem dataAgrees_of_compileToScript_savedGame :
    ∃ script setting statements,
      compileToScript NativeDatabase.empty .default savedGame = .ok script ∧
      script.statics.size = 14 ∧ script.statics[1]? = some (Word.ofInt 29) ∧
      Setting.ofProgram NativeDatabase.empty savedGame = .ok setting ∧
      ∃ assembled : Assembled setting.natives .default statements script,
        DataAgrees setting assembled := by
  obtain ⟨script, h, hSize, hPointer, _⟩ := compileToScript_savedGame
  have hFrames : ∀ function ∈ savedGame.functions, function.KeepsToFrame savedGame := by
    intro function hMem
    simp only [savedGame, List.mem_toArray, List.mem_cons, List.not_mem_nil, or_false] at hMem
    rcases hMem with rfl | rfl <;> refine ⟨?_, by simp [blockLocalIds, Stmt.localIds]⟩
    · simp [savedGame]
    · simp
  have hPlain : ∀ function ∈ savedGame.functions, '.' ∉ function.name.toList := by decide
  have hFlat : ∀ struct ∈ savedGame.structs, ∀ field ∈ struct.fields, field.ty.struct? = none := by
    decide
  obtain ⟨setting, statements, hSetting, _, assembled, hAgrees⟩ :=
    dataAgrees_of_compileToScript h hFrames hPlain
      fun _ declared _ _ _ _ => Ty.hasSize_of_flat hFlat declared.ty
  exact ⟨script, setting, statements, h, hSize, hPointer, hSetting, assembled, hAgrees⟩

end ScriptBackend
