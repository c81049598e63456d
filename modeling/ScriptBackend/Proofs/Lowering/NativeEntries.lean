import ScriptBackend.Proofs.Assembly.Repetitions
import ScriptBackend.Proofs.Lowering.LinkedFunctions
import ScriptBackend.Proofs.NativeDatabase

/-!
The native entries of scripts. Natives are included by their names and stored by
their hashes: an entry that is there already is met exactly when the program
calls two natives of one hash, and in a script every native that is called has
the entry of its own hash.
-/
namespace ScriptBackend.Lowering

open ScriptBackend.Assembly Outcome

/-- If the values of some items do not repeat, items with the same value are the
same. -/
theorem eq_of_nodup_filterMap {α β : Type} {value? : α → Option β} {items : List α}
    (h : (items.filterMap value?).Nodup) {first second : α} (hFirst : first ∈ items)
    (hSecond : second ∈ items)
    {value : β} (hValue : value? first = some value) (hOther : value? second = some value) :
    first = second := by
  rw [List.Nodup, List.pairwise_filterMap] at h
  by_contra hNe
  have : Std.Symm fun a b : α =>
      ∀ found, value? a = some found → ∀ other, value? b = some other → found ≠ other :=
    ⟨fun a b hApart found hFound other hOther => (hApart other hOther found hFound).symm⟩
  exact h.forall hFirst hSecond hNe value hValue value hOther rfl

section Units

variable {setting : Setting} {options : Options} {script : Script}

/-- Directives call no natives. -/
theorem calledNative?_of_isDirective {statement : Statement} (h : statement.IsDirective) :
    calledNative? statement = none := by
  obtain ⟨directive, hContent⟩ := h
  rw [calledNative?, hContent]

/-- The natives that the statements of a unit call are those that its code calls. -/
theorem usedNatives_statements (unit : CompiledUnit setting) :
    usedNatives unit.statements = usedNatives unit.code := by
  obtain ⟨front, hStatements, hFront⟩ := exists_front unit
  have hNone : usedNatives front = [] :=
    List.filterMap_eq_nil_iff.mpr fun statement hMem =>
      calledNative?_of_isDirective (hFront statement hMem)
  rw [hStatements, usedNatives, List.filterMap_append]
  exact (congrArg (· ++ usedNatives unit.code) hNone).trans (List.nil_append _)

/-- The table of an assembled unit begins with the hashes of the natives that
the code calls, in the order of their first calls. -/
theorem hashes_data (unit : CompiledUnit setting)
    (assembled : Assembled setting.natives options unit.statements script) :
    assembled.data.natives.hashes =
      (calledNatives unit.code.toArray).keys.filterMap fun name =>
        (setting.natives.named? name).map NativeEntry.hash := by
  rw [(collectData_ok assembled.collected).2, (natives_scopeLines unit).2, nativeHashes_nativeLines]

/-- In an assembled unit the natives that the code calls have different hashes. -/
theorem hashesApart_of_assembled (unit : CompiledUnit setting)
    (assembled : Assembled setting.natives options unit.statements script) :
    HashesApart setting.natives (usedNatives unit.statements) := by
  have hHashes := hashes_data unit assembled
  have hNodup : ((calledNatives unit.code.toArray).keys.filterMap fun name =>
      (setting.natives.named? name).map NativeEntry.hash).Nodup :=
    hHashes ▸ Table.nodup_keys _
  intro first hFirst second hSecond entry other hEntry hOther hSame
  rw [usedNatives_statements, ← mem_calledNatives] at hFirst hSecond
  have hHash : (setting.natives.named? first).map NativeEntry.hash = some other.hash := by
    rw [hEntry, ← hSame]; rfl
  exact eq_of_nodup_filterMap hNodup hFirst hSecond hHash (by simp [hOther])

/-- A line of a unit that includes a native is that of a native which the code
calls. -/
theorem nativeLine_of_mem (unit : CompiledUnit setting) {line : Line}
    (hLine : line ∈ scopeLines unit.statements)
    {hash : UInt64} (hNative : line.native? = some hash) :
    ∃ name entry, setting.natives.named? name = some entry ∧
      line = lineOf .natives none (nativeStatement name entry) := by
  rw [scopeLines_unit, List.mem_append, List.mem_append, List.mem_cons] at hLine
  rcases hLine with hData | hIncluded | rfl | hCode
  · rw [native?_identityAndData unit line hData] at hNative
    cases hNative
  · obtain ⟨first, hFirst, hNatives⟩ := natives_lines unit
    rw [hNatives, List.mem_append] at hIncluded
    rcases hIncluded with hBefore | hOwn
    · rw [hFirst line hBefore] at hNative
      cases hNative
    · obtain ⟨statement, hStatement, rfl⟩ := List.mem_map.mp hOwn
      obtain ⟨name, _, hEntry⟩ := List.mem_filterMap.mp hStatement
      obtain ⟨entry, hFound, rfl⟩ := Option.map_eq_some_iff.mp hEntry
      exact ⟨name, entry, hFound, rfl⟩
  · cases hNative
  · rw [native?_code unit none line hCode] at hNative
    cases hNative

/-- No words of a unit have a label. -/
theorem wordDefinitions_eq_nil (unit : CompiledUnit setting) {line : Line}
    (hLine : line ∈ scopeLines unit.statements) :
    line.wordDefinitions = [] := by
  have hData : ∀ {segment ids code}, dataSegment setting segment ids = .ok code →
      ∀ statement ∈ code, (lineOf segment none statement).wordDefinitions = [] := by
    intro segment ids code hCode statement hStatement
    have hLabel : statement.label = none := by
      rcases mem_dataSegment hCode hStatement with rfl | ⟨id, part, hPart, hMem⟩
      · rfl
      · exact (exists_run_of_mem hPart hMem).1
    rw [Line.wordDefinitions, lineOf, hLabel]
    exact ite_self []
  have hOutside : ∀ {line : Line}, line.segment.holdsWords = false → line.wordDefinitions = [] := by
    intro line hSegment
    rw [Line.wordDefinitions, hSegment]
    rfl
  rw [scopeLines_unit] at hLine
  simp only [identityAndData, List.mem_append, List.mem_cons, List.mem_map] at hLine
  rcases hLine with (⟨statement, _, rfl⟩ | ⟨statement, hStatement, rfl⟩ |
    ⟨statement, hStatement, rfl⟩ | ⟨statement, hStatement, rfl⟩) | ⟨statement, _, rfl⟩ | rfl | hCode
  · exact hOutside rfl
  · cases hBlock : setting.program.globalsBlock with
    | none =>
        rw [unit.no_globals hBlock] at hStatement
        cases hStatement
    | some block =>
        have hSegment : unit.globalsSegment = .globals block := by
          simp [CompiledUnit.globalsSegment, hBlock]
        rw [hSegment]
        exact hData (unit.globals_ok block hBlock) statement hStatement
  · exact hData unit.statics_ok statement hStatement
  · exact hData unit.arguments_ok statement hStatement
  · exact hOutside rfl
  · exact hOutside rfl
  · refine hOutside ?_
    rw [segment_linesIn unit.ne_directive none line hCode]
    rfl

/-- In a unit the label of an included native stands for nothing else. -/
theorem knowsIncluded_compiled {source : NativeSource} (unit : CompiledUnit setting)
    (assembled : Assembled source options unit.statements script) :
    KnowsIncluded (scopeLines unit.statements) assembled.data.symbols assembled.data.natives := by
  refine assembled.knowsIncluded_of_apart fun name _ hName => ?_
  obtain ⟨line, hLine, hDefinition⟩ := List.mem_flatMap.mp hName
  have hOwn := (Line.of_words_mem_definitions hDefinition).1
  rw [wordDefinitions_eq_nil unit hLine] at hOwn
  cases hOwn

end Units

/-! Calls -/

/-- The native of a name is called: the index in the decoded instruction leads
to the hash that the database has for this name. -/
structure CallsEntry (natives : NativeSource) (script : Script) (located : Located)
    (instruction : Instruction) (name : String) (entry : NativeEntry) (index : Nat) : Prop where
  named : located.primitive.operands[2]? = some (.name name)
  found : natives.named? name = some entry
  decoded : ∃ arguments returns, instruction.operands? = some (.native arguments returns index)
  stored : script.nativeHash? index = some entry.hash

section Calls

variable {database : NativeDatabase} {setting : Setting}

/-- The code of a unit calls natives by names that the database has. -/
theorem suits_called (unit : CompiledUnit setting) (hDatabase : setting.natives = database.source) :
    SuitsCode ⟨fun _ => True, fun name =>
      name ∈ usedNatives unit.code ∧ (setting.natives.named? name).isSome⟩
      unit.code := by
  obtain ⟨pieces, hCode, _⟩ := unit.generated.exists_pieces
  intro statement hStatement
  have hMem := hStatement
  rw [hCode] at hMem
  obtain ⟨code, hOwn, hMem⟩ := List.mem_flatten.mp hMem
  obtain ⟨piece, hPiece, rfl⟩ := List.mem_map.mp hOwn
  have hInner : ∀ {called}, called ∈ piece.body → called ∈ unit.code := fun hCalled => by
    rw [hCode]
    exact List.mem_flatten.mpr ⟨_, List.mem_map_of_mem hPiece,
      List.mem_cons_of_mem _ (List.mem_append_left _ hCalled)⟩
  refine (suitsCode_cons _ _).mpr ⟨suits_enter .., piece.suits_inner ⟨?_, ?_, ?_⟩ ?_⟩ statement hMem
  · exact fun _ _ _ => trivial
  · exact fun _ _ => trivial
  · intro called hCalled name hName hFound
    refine ⟨List.mem_filterMap.mpr ⟨called, hInner hCalled, hName⟩, ?_⟩
    rw [hDatabase] at hFound ⊢
    exact (congrArg Option.isSome (database.named?_upperCased name)).trans hFound
  · exact fun _ _ => trivial

/-- A primitive that calls a native does so by a name that the database has. -/
theorem exists_calledName (unit : CompiledUnit setting)
    (hDatabase : setting.natives = database.source)
    {symbols : Symbols} {strings : StringPages} {options : Options} {rows : List (List Located)}
    {start finish : Nat}
    (hRows : Arranged symbols strings options start (scopeLines unit.statements) rows finish)
    {located : Located}
    (hMem : located ∈ rows.flatten) (hFormat : located.primitive.opcode.format = .native) :
    ∃ name entry, located.primitive.operands[2]? = some (.name name) ∧
      name ∈ usedNatives unit.statements ∧ setting.natives.named? name = some entry := by
  obtain ⟨hLine, mnemonic, operands, primitives, hInstruction, hExpand, hOwn⟩ :=
    hRows.expanded_of_mem hMem
  obtain ⟨hContent, _⟩ := Line.instruction?_eq_some_iff.mp hInstruction
  obtain ⟨front, hStatements, hFront⟩ := exists_front unit
  have hStatement := statement_mem hLine
  rw [hStatements, List.mem_append] at hStatement
  have hCode : located.line.statement ∈ unit.code := hStatement.resolve_left fun hBefore => by
    obtain ⟨directive, hDirective⟩ := hFront _ hBefore
    rw [hContent] at hDirective
    cases hDirective
  have hSuited := suits_called unit hDatabase _ hCode
  rw [SuitsStatement, hContent] at hSuited
  have hSuits : located.primitive.Suits _ := hSuited.suits_of_expand hExpand located.primitive hOwn
  obtain ⟨name, hName, hUsed, hFound⟩ := hSuits.native hFormat
  obtain ⟨entry, hEntry⟩ := Option.isSome_iff_exists.mp hFound
  exact ⟨name, entry, hName, usedNatives_code unit hUsed, hEntry⟩

/-- The name of a native denotes the hash that the database has for it. -/
theorem nativeHash?_name (unit : CompiledUnit setting) {line : Line} {name : String}
    {entry : NativeEntry}
    (hGlobal : isLocal name = false) (hEntry : setting.natives.named? name = some entry) :
    line.nativeHash? setting.natives (scopeLines unit.statements) (.name name) =
      some entry.hash := by
  rw [Line.nativeHash?, Line.qualify, qualify_of_not_isLocal hGlobal, hEntry]
  cases hIncluded : includedHash? (scopeLines unit.statements) name with
  | none => rfl
  | some hash =>
      obtain ⟨included, hLine, hLabel, hNative⟩ := includedHash?_eq_some hIncluded
      obtain ⟨other, found, hFound, rfl⟩ := nativeLine_of_mem unit hLine hNative
      have hSame : other = name := by
        simpa [lineOf, nativeStatement, qualify] using hLabel
      rw [hSame, hEntry] at hFound
      cases hFound
      exact congrArg some (Option.some.inj hNative).symm

/-- A call of a native in compiled code is one by its name. -/
theorem exists_callsEntry (compiled : CompiledUnit setting)
    (hDatabase : setting.natives = database.source)
    {options : Options} {script : Script}
    (unit : Assembled setting.natives options compiled.statements script)
    {rows : List (List Located)} {finish : Nat}
    (hRows : Arranged unit.data.symbols unit.strings options 0
      (scopeLines compiled.statements) rows finish)
    (hGlobal : ∀ name ∈ usedNatives compiled.statements, isLocal name = false) {located : Located}
    {instruction : Instruction} {index : Nat} {hash : UInt64} (hMem : located ∈ rows.flatten)
    (hCall : CallsNative unit.environment (scopeLines compiled.statements)
      (unit.code.natives.hashes[·]?) located instruction index hash) :
    ∃ name entry index, name ∈ usedNatives compiled.statements ∧
      CallsEntry setting.natives script located instruction name entry index := by
  have hDenoted := hCall.denoted
  have hFormat : located.primitive.opcode.format = .native := by
    by_contra hOther
    rw [Located.nativeHash?, if_neg hOther] at hDenoted
    cases hDenoted
  obtain ⟨name, entry, hName, hUsed, hFound⟩ :=
    exists_calledName compiled hDatabase hRows hMem hFormat
  rw [Located.nativeHash?, if_pos hFormat, hName, Option.bind_some] at hDenoted
  have hHash : some entry.hash = some hash :=
    (nativeHash?_name compiled (hGlobal name hUsed) hFound).symm.trans hDenoted
  cases hHash
  exact ⟨name, entry, index, hUsed, hName, hFound, hCall.decoded,
    (unit.nativeHash?_eq index).trans hCall.stored⟩

end Calls

/-- Calls have one index if and only if the natives that they name have one hash. -/
theorem CallsEntry.index_eq_iff {natives source : NativeSource} {options : Options}
    {statements : List Statement}
    {script : Script} (unit : Assembled source options statements script) {first second : Located}
    {firstCode secondCode : Instruction} {firstName secondName : String} {entry other : NativeEntry}
    {index place : Nat} (hFirst : CallsEntry natives script first firstCode firstName entry index)
    (hSecond : CallsEntry natives script second secondCode secondName other place) :
    index = place ↔ entry.hash = other.hash := by
  have hStored := hFirst.stored
  have hOther := hSecond.stored
  rw [unit.nativeHash?_eq] at hStored hOther
  constructor
  · rintro rfl
    exact Option.some.inj (hStored.symm.trans hOther)
  · intro hSame
    rw [← hSame] at hOther
    rw [← NativeTable.index?_eq_some_iff] at hStored hOther
    exact Option.some.inj (hStored.symm.trans hOther)

end Lowering

open Lowering Assembly Outcome

/-- Natives of compiled code have entries by their hashes, if no name of a
native begins with a point. None of them is rejected as included already when
those that are called have different hashes. If two of them have one hash there
is no script, and in every script each call of a native has the index of the
hash that the database has for its name, so that calls have one index if and
only if their natives have one hash. -/
theorem nativeEntries_of_compiled {database : NativeDatabase} {program : Program}
    {statements : Code} (h : compileToAssembly database program = .ok statements)
    (hGlobal : ∀ name ∈ usedNatives statements, isLocal name = false) :
    (HashesApart database (usedNatives statements) →
      ∀ (source : NativeSource) (options : Options) fault hash,
      assemble source options statements = .error fault → fault.cause ≠ .duplicateNative hash) ∧
    ∀ (options : Options) (script : Script), assemble database options statements = .ok script →
      HashesApart database (usedNatives statements) ∧
      ∃ (unit : Assembled database options statements script) (rows : List (List Located))
        (instructions : List Instruction),
        Arranged unit.data.symbols unit.strings options 0 (scopeLines statements) rows
          unit.layout.codeLength ∧
        Disassembly.ofCode script.code = ⟨instructions, none⟩ ∧
        Renders unit.environment 0 rows.flatten instructions ∧
        List.Forall₂ (fun located instruction => ∃ name entry index, name ∈ usedNatives statements ∧
            CallsEntry database script located instruction name entry index)
          (rows.flatten.filter fun located => located.primitive.opcode.format = .native)
          (instructions.filter fun instruction => instruction.opcode.format = .native) ∧
        ∀ first firstCode firstName entry index second secondCode secondName other place,
          CallsEntry database script first firstCode firstName entry index →
          CallsEntry database script second secondCode secondName other place →
          (index = place ↔ entry.hash = other.hash) := by
  obtain ⟨setting, hSetting, hUnit⟩ := bind_eq_ok.mp h
  obtain ⟨slots, _, hSetting⟩ := bind_eq_ok.mp hSetting
  cases hSetting
  obtain ⟨compiled, rfl⟩ := CompiledUnit.exists_of_unitOf hUnit
  refine ⟨fun hApart source options fault hash hFault hCause => ?_,
    fun options script hScript => ?_⟩
  · have hRepeats := assemble_onlyRepeats source options compiled.statements fault hFault
    rw [hCause, not_not] at hRepeats
    exact List.nodup_iff_forall_not_duplicate.mp (nodup_nativeHashes hApart) hash hRepeats
  · obtain ⟨unit⟩ := assemble_ok hScript
    obtain ⟨rows, hRows, hAddresses, _, _⟩ := layoutCode_ok unit.laidOut
    obtain ⟨instructions, hEncodes, hDecoded⟩ := unit.encodes hRows hAddresses
    obtain ⟨_, hCalls⟩ :=
      hEncodes.callsNative hRows.contiguous (knowsIncluded_compiled compiled unit)
      unit.natives_included.2
    refine ⟨hashesApart_of_assembled compiled unit, unit, rows,
      Instruction.padded 0 instructions, hRows, hDecoded,
      renders_padded hRows.contiguous (hEncodes.carries hRows.contiguous), ?_,
      fun _ _ _ _ _ _ _ _ _ _ hFirst hSecond => hFirst.index_eq_iff unit hSecond⟩
    rw [filter_padded]
    have hNamed : ∀ located ∈ rows.flatten.filter fun located =>
      located.primitive.opcode.format = .native,
        located ∈ rows.flatten := fun located hMem => List.mem_of_mem_filter hMem
    exact ((List.forall₂_and_left ..).mpr ⟨hNamed, hCalls⟩).imp fun located instruction ⟨hMem,
        index, hash, hCall⟩ =>
      exists_callsEntry compiled rfl unit hRows hGlobal hMem hCall

/-! A program with two natives -/

/-- A database of two natives with different hashes. -/
def pairDatabase : NativeDatabase where
  entries :=
    (Table.empty.insertNew "FIRST" ⟨"FIRST", 1, 0, 0⟩).insertNew "SECOND" ⟨"SECOND", 2, 0, 0⟩
  byHash := ((∅ : Std.TreeMap UInt64 Nat).insert 1 0).insert 2 1

/-- A program that calls the first of them, then the second, then the first
again. -/
def pairProgram : Program :=
  let first : Stmt := .evaluate (.callNative ⟨.void, false, false⟩ 0 [])
  let second : Stmt := .evaluate (.callNative ⟨.void, false, false⟩ 1 [])
  ⟨"pair", none, none, #[], #[], #[], #[⟨"MAIN", [], .void, [first, second, first, .ret none]⟩],
    #[⟨"first", [], .void⟩, ⟨"second", [], .void⟩]⟩

theorem compile_pair : ∃ statements, compileToAssembly pairDatabase pairProgram = .ok statements ∧
    usedNatives statements = ["FIRST", "SECOND", "FIRST"] :=
  exists_of_any (by decide +kernel)

/-- In the script of the program the calls have the indices 0, 1 and 0. -/
theorem compileToScript_pair :
    ∃ script, compileToScript pairDatabase .default pairProgram = .ok script ∧
      (Disassembly.ofCode script.code).instructions.filterMap Instruction.operands? =
        [.enter 0 2 none, .native 0 0 0, .native 0 0 1, .native 0 0 0, .bytes [0, 0]] :=
  exists_of_any (by decide +kernel)

/-- Both natives are included, and wherever they are called the index leads to
the hash of the database. -/
theorem nativeEntries_of_compiled_pair :
    ∃ statements, compileToAssembly pairDatabase pairProgram = .ok statements ∧
      (∀ name ∈ usedNatives statements, isLocal name = false) ∧
      HashesApart pairDatabase (usedNatives statements) ∧
      (∀ (options : Options) fault hash, assemble pairDatabase options statements = .error fault →
        fault.cause ≠ .duplicateNative hash) ∧
      ∃ script, assemble pairDatabase .default statements = .ok script ∧
        (Disassembly.ofCode script.code).instructions.filterMap Instruction.operands? =
          [.enter 0 2 none, .native 0 0 0, .native 0 0 1, .native 0 0 0, .bytes [0, 0]] ∧
        ∀ instruction ∈ (Disassembly.ofCode script.code).instructions,
          instruction.opcode.format = .native → ∃ located name entry index,
            name ∈ usedNatives statements ∧
              CallsEntry pairDatabase script located instruction name entry index := by
  obtain ⟨statements, h, hUsed⟩ := compile_pair
  have hGlobal : ∀ name ∈ usedNatives statements, isLocal name = false := by simp [hUsed, isLocal]
  have hApart : HashesApart pairDatabase (usedNatives statements) := by
    have hFirst : pairDatabase.source.named? "FIRST" = some ⟨"FIRST", 1, 0, 0⟩ := by decide +kernel
    have hSecond : pairDatabase.source.named? "SECOND" =
        some ⟨"SECOND", 2, 0, 0⟩ := by decide +kernel
    simp [HashesApart, hUsed, hFirst, hSecond]
  obtain ⟨hNever, hEntries⟩ := nativeEntries_of_compiled h hGlobal
  obtain ⟨script, hCompiled, hIndices⟩ := compileToScript_pair
  obtain ⟨_, _, unit, hOwn, ⟨assembled⟩⟩ := exists_assembled_of_compileToScript hCompiled
  obtain rfl : unit.statements = statements := Except.ok.inj (hOwn.symm.trans h)
  have hScript := assembled.assemble_eq_ok
  obtain ⟨_, _, _, instructions, _, hDecoded, _, hCalls, _⟩ := hEntries .default script hScript
  refine ⟨_, h, hGlobal, hApart, hNever hApart _, script, hScript, hIndices,
    fun instruction hMem hFormat => ?_⟩
  rw [hDecoded] at hMem
  have hCall : instruction ∈ instructions.filter fun instruction =>
      instruction.opcode.format = .native :=
    List.mem_filter.mpr ⟨hMem, decide_eq_true hFormat⟩
  obtain ⟨_, located, _, _, hOwn⟩ := exists_paired hCalls.flip hCall
  exact ⟨located, hOwn⟩

end ScriptBackend
