import ScriptBackend.Proofs.Lowering.FunctionLines

/-!
Compiled programs link. What lowering emits is a unit in which every line suits
its segment and every name is defined once, so that assembling it can only meet
a limit.
-/
namespace ScriptBackend.Lowering

open ScriptBackend.Assembly

/-- Names that do not get in each other's way: functions and the natives that
the statements call have different names without points, the natives have
different hashes, and the labels of every body make sense. -/
structure ClearlyNamed (natives : NativeSource) (program : Program) (statements : Code) : Prop where
  distinct : (program.functions.toList.map Function.name).Nodup
  plain : ∀ function ∈ program.functions, '.' ∉ function.name.toList
  labelled : ∀ function ∈ program.functions, function.WellLabelled
  natives_plain : ∀ name ∈ usedNatives statements, '.' ∉ name.toList
  apart : ∀ function ∈ program.functions, function.name ∉ usedNatives statements
  hashes : ∀ first ∈ usedNatives statements, ∀ second ∈ usedNatives statements, ∀ entry other,
    natives.named? first = some entry → natives.named? second = some other →
      entry.hash = other.hash → first = second

section Functions

variable {program : Program}

/-- No function is lowered twice. -/
theorem nodup_codeOrder (program : Program) (entry : Nat) : (codeOrder program entry).Nodup := by
  refine List.nodup_cons.mpr ⟨by simp, List.nodup_range.filter _⟩

/-- Each function is lowered, the one that a script begins with in front. -/
theorem mem_codeOrder {entry id : Nat} (h : id < program.functions.size) :
    id ∈ codeOrder program entry := by
  by_cases hEntry : id = entry <;> simp [codeOrder, hEntry, h]

/-- Functions of one name are the same. -/
theorem eq_of_name_eq (hNames : (program.functions.toList.map Function.name).Nodup)
    {first second : Nat}
    {function other : Function} (hFirst : program.functions[first]? = some function)
    (hSecond : program.functions[second]? = some other) (hSame : function.name = other.name) :
    first = second := by
  obtain ⟨hBound, hFunction⟩ := Array.getElem?_eq_some_iff.mp hFirst
  obtain ⟨hOtherBound, hOther⟩ := Array.getElem?_eq_some_iff.mp hSecond
  have hLess : first < (program.functions.toList.map Function.name).length := by simpa using hBound
  have hOtherLess : second < (program.functions.toList.map Function.name).length := by
    simpa using hOtherBound
  have hNamed : (program.functions.toList.map Function.name)[first] =
      (program.functions.toList.map Function.name)[second] := by
    simp [hFunction, hOther, hSame]
  exact (List.Nodup.getElem_inj_iff hNames).mp hNamed

/-- The functions of a unit have the names of the program, in the order of their
code. -/
theorem nodup_pieceNames {setting : Setting} {ids : List Nat}
    {pieces : List (FunctionPiece setting)}
    (hIds : ids.Nodup) (hNames : (setting.program.functions.toList.map Function.name).Nodup)
    (h : List.Forall₂ (fun id piece => setting.program.functions[id]? = some piece.function)
      ids pieces) : (pieces.map FunctionPiece.name).Nodup := by
  induction h with
  | nil => exact List.nodup_nil
  | @cons id piece rest others hFirst hRest ih =>
      rw [List.nodup_cons] at hIds
      refine List.nodup_cons.mpr ⟨fun hMem => hIds.1 ?_, ih hIds.2⟩
      obtain ⟨other, hOther, hSame⟩ := List.mem_map.mp hMem
      obtain ⟨i, hi, rfl⟩ := List.getElem_of_mem hOther
      have hBound : i < rest.length := hRest.length_eq ▸ hi
      rw [eq_of_name_eq hNames hFirst (hRest.get hBound hi) hSame.symm]
      exact List.getElem_mem hBound

end Functions

/-! Natives -/

section Natives

variable {setting : Setting} {unit : CompiledUnit setting}

def nativeStatement (name : String) (entry : NativeEntry) : Statement :=
  { Statement.ofDirective (.native entry.hash) with label := some name }

/-- The lines that include natives of some names, as far as the database has
them. -/
def nativeLines (natives : NativeSource) (names : List String) : List Line :=
  (names.filterMap fun name => (natives.named? name).map (nativeStatement name)).map
    (lineOf .natives none)

/-- The labels of included natives are the names that the database knows. -/
theorem nativeLabels_nativeLines {natives : NativeSource} {names : List String}
    (hPlain : ∀ name ∈ names, '.' ∉ name.toList) :
    nativeLabels (nativeLines natives names) =
      names.filter fun name => (natives.named? name).isSome := by
  induction names with
  | nil => rfl
  | cons first rest ih =>
      rw [List.forall_mem_cons] at hPlain
      have hRest := ih hPlain.2
      unfold nativeLines nativeLabels at hRest ⊢
      cases h : natives.named? first with
      | none => simpa [h] using hRest
      | some entry =>
          have hLine : (lineOf .natives none (nativeStatement first entry)).nativeLabel? =
              some first :=
            congrArg some (qualify_of_not_mem hPlain.1 none)
          simpa [h, hLine] using hRest

/-- The hashes of included natives are those that the database has for their
names. -/
theorem nativeHashes_nativeLines (natives : NativeSource) (names : List String) :
    nativeHashes (nativeLines natives names) =
      names.filterMap fun name => (natives.named? name).map NativeEntry.hash := by
  induction names with
  | nil => rfl
  | cons first rest ih =>
      unfold nativeLines nativeHashes at ih ⊢
      cases h : natives.named? first with
      | none => simpa [h] using ih
      | some entry =>
          have hLine : (lineOf .natives none (nativeStatement first entry)).native? =
              some entry.hash := rfl
          simpa [h, hLine] using ih

/-- The lines of the natives: the directive that begins them, unless there are
none, and those that include the natives that the code calls. -/
theorem natives_lines (unit : CompiledUnit setting) :
    ∃ first : List Line, (∀ line ∈ first, line =
      lineOf .natives none (.ofDirective (.segment .natives))) ∧
      unit.natives.map (lineOf .natives none) =
        first ++ nativeLines setting.natives (calledNatives unit.code.toArray).keys := by
  unfold CompiledUnit.natives nativeSegment
  dsimp only
  split
  · next hNone =>
      refine ⟨[], by simp, ?_⟩
      have hEmpty := List.isEmpty_iff.mp hNone
      unfold nativeLines nativeStatement
      rw [hEmpty]
      rfl
  · exact ⟨[_], by simp, rfl⟩

end Natives

/-! Data -/

section Data

variable {setting : Setting} {labels natives : String → Prop}

/-- Every line of a data segment suits it, when every function has its label. -/
theorem suits_data {segment : Segment} {ids : List Nat} {code : Code}
    (hWords : segment.holdsWords = true) (h : dataSegment setting segment ids = .ok code)
    (hFunctions : ∀ id name, setting.program.functionName? id = some name →
      labels (qualify none name)) :
    ∀ statement ∈ code, (lineOf segment none statement).Suits labels natives := by
  intro statement hStatement
  rcases mem_dataSegment h hStatement with rfl | ⟨id, part, hPart, hMem⟩
  · exact .segment rfl rfl
  · obtain ⟨hLabel, declared, words, run, directive, hData, hRunWords, hRun, hContent⟩ :=
      exists_run_of_mem hPart hMem
    obtain ⟨hInitial, hNoText⟩ := variableData_ok hData
    have hUnlabelled : (lineOf segment none statement).label = none := by simp [lineOf, hLabel]
    cases hRun with
    | zeros all => exact .zero hContent hWords hUnlabelled
    | floats all =>
        refine .floats hContent hWords hUnlabelled fun operand hOperand => ?_
        obtain ⟨word, hWord, rfl⟩ := List.mem_map.mp hOperand
        obtain ⟨value, rfl⟩ := all word hWord
        exact ⟨value, rfl⟩
    | ints all =>
        refine .ints hContent hWords hUnlabelled fun operand hOperand => ?_
        obtain ⟨word, hWord, rfl⟩ := List.mem_map.mp hOperand
        cases word with
        | int value => exact .inl ⟨value, rfl⟩
        | float value => exact absurd rfl (all _ hWord value)
        | text value => exact absurd rfl (hNoText _ (hRunWords hWord) value)
        | address function =>
            obtain ⟨id, hName⟩ := isKnown_of_initialWords hInitial _ (hRunWords hWord) function rfl
            exact .inr ⟨function, rfl, hFunctions id function hName⟩

/-- A line of data includes no native. -/
theorem native?_data {segment : Segment} {ids : List Nat} {code : Code}
    (h : dataSegment setting segment ids = .ok code) :
    ∀ statement ∈ code, (lineOf segment none statement).native? = none := by
  intro statement hStatement
  rcases mem_dataSegment h hStatement with rfl | ⟨id, part, hPart, hMem⟩
  · rfl
  · obtain ⟨_, _, _, _, directive, _, _, hRun, hContent⟩ := exists_run_of_mem hPart hMem
    unfold Line.native?
    simp only [lineOf, hContent]
    cases hRun <;> rfl

end Data

/-! Units -/

section Lines

theorem codeLabels_eq_nil {lines : List Line} (h : ∀ line ∈ lines, line.codeLabel? = none) :
    codeLabels lines = [] :=
  List.filterMap_eq_nil_iff.mpr h

theorem nativeLabels_eq_nil {lines : List Line} (h : ∀ line ∈ lines, line.native? = none) :
    nativeLabels lines = [] :=
  List.filterMap_eq_nil_iff.mpr fun line hLine => by simp [Line.nativeLabel?, h line hLine]

theorem nativeHashes_eq_nil {lines : List Line} (h : ∀ line ∈ lines, line.native? = none) :
    nativeHashes lines = [] :=
  List.filterMap_eq_nil_iff.mpr h

/-- Lines outside of the code have no labels of code. -/
theorem codeLabels_section {segment : Segment} (h : segment ≠ .code) (statements : Code) :
    codeLabels (statements.map (lineOf segment none)) = [] := by
  refine codeLabels_eq_nil fun line hLine => ?_
  obtain ⟨statement, _, rfl⟩ := List.mem_map.mp hLine
  exact if_neg h

end Lines

section Units

variable {setting : Setting} {unit : CompiledUnit setting}

/-- The lines of a unit outside of its natives and its code. -/
def identityAndData (unit : CompiledUnit setting) : List Line :=
  unit.header.map (lineOf .code none) ++ (unit.globals.map (lineOf unit.globalsSegment none) ++
    (unit.statics.map (lineOf .statics none) ++ unit.arguments.map (lineOf .arguments none)))

/-- The lines of a unit: its identity and its data, its natives and its code. -/
theorem scopeLines_unit (unit : CompiledUnit setting) :
    scopeLines unit.statements = identityAndData unit ++ (unit.natives.map (lineOf .natives none) ++
      lineOf .code none (.ofDirective (.segment .code)) :: linesIn .code none unit.code) := by
  simp [unit.scopeLines_statements, identityAndData]

/-- What stands before the code has no labels of the code. -/
theorem codeLabels_identityAndData (unit : CompiledUnit setting) :
    codeLabels (identityAndData unit) = [] := by
  have hHeader : codeLabels (unit.header.map (lineOf .code none)) = [] := by
    refine codeLabels_eq_nil fun line hLine => ?_
    obtain ⟨statement, hStatement, rfl⟩ := List.mem_map.mp hLine
    rcases List.mem_cons.mp hStatement with rfl | hHash
    · rfl
    · obtain ⟨hash, _, rfl⟩ := List.mem_map.mp hHash
      rfl
  simp [identityAndData, hHeader, codeLabels_section, CompiledUnit.globalsSegment]

theorem native?_identityAndData (unit : CompiledUnit setting) :
    ∀ line ∈ identityAndData unit, line.native? = none := by
  intro line hLine
  simp only [identityAndData, List.mem_append, List.mem_map] at hLine
  obtain ⟨statement, hStatement, rfl⟩ | ⟨statement, hStatement, rfl⟩ | ⟨statement, hStatement, rfl⟩
      | ⟨statement, hStatement, rfl⟩ := hLine
  · rcases List.mem_cons.mp hStatement with rfl | hHash
    · rfl
    · obtain ⟨hash, _, rfl⟩ := List.mem_map.mp hHash
      rfl
  · cases hBlock : setting.program.globalsBlock with
    | none =>
        rw [unit.no_globals hBlock] at hStatement
        cases hStatement
    | some block =>
        have hData := native?_data (unit.globals_ok block hBlock) statement hStatement
        simpa [CompiledUnit.globalsSegment, hBlock] using hData
  · exact native?_data unit.statics_ok statement hStatement
  · exact native?_data unit.arguments_ok statement hStatement

theorem native?_code (unit : CompiledUnit setting) (scope : Option String) :
    ∀ line ∈ linesIn .code scope unit.code, line.native? = none := by
  intro line hLine
  unfold Line.native?
  split
  · next hash hContent => exact absurd hContent (unit.ne_directive _ (line_of_mem hLine).1 _)
  · rfl

/-- The natives that a unit includes are those that its code calls, as far as
they are found. -/
theorem natives_scopeLines (unit : CompiledUnit setting) :
    nativeLabels (scopeLines unit.statements) =
        nativeLabels (nativeLines setting.natives (calledNatives unit.code.toArray).keys) ∧
      nativeHashes (scopeLines unit.statements) =
        nativeHashes (nativeLines setting.natives (calledNatives unit.code.toArray).keys) := by
  obtain ⟨first, hFirst, hNatives⟩ := natives_lines unit
  have hBefore : ∀ line ∈ first, line.native? = none := by
    intro line hLine
    rw [hFirst line hLine]
    rfl
  have hBehind : ∀ line ∈ lineOf .code none (.ofDirective (.segment .code)) ::
      linesIn .code none unit.code, line.native? = none :=
    List.forall_mem_cons.mpr ⟨rfl, native?_code unit none⟩
  have hData := native?_identityAndData unit
  rw [scopeLines_unit, hNatives]
  simp only [Collection.nativeLabels_append, Collection.nativeHashes_append,
    nativeLabels_eq_nil hData, nativeHashes_eq_nil hData, nativeLabels_eq_nil hBefore,
    nativeHashes_eq_nil hBefore,
    nativeLabels_eq_nil hBehind, nativeHashes_eq_nil hBehind, List.nil_append,
    List.append_nil, and_self]

/-- What is known of a unit when its code is cut into functions with clear names. -/
structure Pieced (unit : CompiledUnit setting) (pieces : List (FunctionPiece setting)) : Prop where
  code : unit.code = (pieces.map FunctionPiece.code).flatten
  clear : ∀ piece ∈ pieces, piece.Clear
  names : (pieces.map FunctionPiece.name).Nodup
  covers : ∀ id name, setting.program.functionName? id = some name →
    ∃ piece ∈ pieces, piece.name = name

/-- The code of a unit is cut into the pieces of its functions. -/
theorem ClearlyNamed.exists_pieced
    (h : ClearlyNamed setting.natives setting.program unit.statements) :
    ∃ pieces, Pieced unit pieces ∧ ∀ piece ∈ pieces, piece.function ∈
      setting.program.functions := by
  obtain ⟨pieces, hCode, hPieces⟩ := unit.generated.exists_pieces
  have hMem : ∀ piece ∈ pieces, piece.function ∈ setting.program.functions := by
    intro piece hPiece
    obtain ⟨i, hi, rfl⟩ := List.getElem_of_mem hPiece
    exact Array.mem_of_getElem? (hPieces.get (hPieces.length_eq ▸ hi) hi)
  refine ⟨pieces, ⟨hCode, fun piece hPiece => ?_, ?_, fun id name hName => ?_⟩, hMem⟩
  · exact ⟨h.plain _ (hMem piece hPiece), h.labelled _ (hMem piece hPiece)⟩
  · exact nodup_pieceNames (nodup_codeOrder _ _) h.distinct hPieces
  · obtain ⟨function, hFunction, rfl⟩ := Option.map_eq_some_iff.mp hName
    have hId : id ∈ codeOrder setting.program unit.entry :=
      mem_codeOrder (Array.getElem?_eq_some_iff.mp hFunction).1
    obtain ⟨i, hi, rfl⟩ := List.getElem_of_mem hId
    have hBound : i < pieces.length := hPieces.length_eq ▸ hi
    refine ⟨pieces[i], List.getElem_mem hBound, ?_⟩
    have hSame := hPieces.get hi hBound
    rw [List.get_eq_getElem] at hSame
    rw [hFunction, Option.some.injEq] at hSame
    exact congrArg Function.name hSame.symm

variable {pieces : List (FunctionPiece setting)}

/-- The lines of the code are those of its pieces in order, since each piece
begins a scope of its own. -/
theorem Pieced.lines (h : Pieced unit pieces) :
    linesIn .code none unit.code = (pieces.map FunctionPiece.lines).flatten := by
  rw [h.code, linesIn_pieces h.clear]

theorem Pieced.codeLabels (h : Pieced unit pieces) :
    Assembly.codeLabels (scopeLines unit.statements) =
      Assembly.codeLabels (pieces.map FunctionPiece.lines).flatten := by
  have hDirective : Assembly.codeLabels [lineOf .code none (.ofDirective (.segment .code))] = [] :=
    rfl
  rw [scopeLines_unit, h.lines, ← List.singleton_append]
  simp only [codeLabels_append, codeLabels_identityAndData, hDirective,
    codeLabels_section (show Segment.natives ≠ .code by decide), List.nil_append]

theorem usedNatives_code (unit : CompiledUnit setting) :
    usedNatives unit.code ⊆ usedNatives unit.statements := by
  intro name hName
  obtain ⟨statement, hStatement, hCalled⟩ := List.mem_filterMap.mp hName
  exact List.mem_filterMap.mpr ⟨statement, by simp [CompiledUnit.statements, hStatement], hCalled⟩

/-- If the natives that the statements call have different hashes, no hash is
included twice. -/
theorem nodup_nativeHashes (hApart : HashesApart setting.natives (usedNatives unit.statements)) :
    (nativeHashes (scopeLines unit.statements)).Nodup := by
  have hUsed : ∀ name ∈ (calledNatives unit.code.toArray).keys,
      name ∈ usedNatives unit.statements :=
    fun name hName => usedNatives_code unit (mem_calledNatives.mp hName)
  rw [(natives_scopeLines unit).2, nativeHashes_nativeLines, List.Nodup, List.pairwise_filterMap]
  refine (Table.nodup_keys _).imp_of_mem
    fun {first second} hFirst hSecond hNe hash hHash other hOther
    hSame => hNe ?_
  obtain ⟨entry, hEntry, rfl⟩ := Option.map_eq_some_iff.mp hHash
  obtain ⟨found, hFound, rfl⟩ := Option.map_eq_some_iff.mp hOther
  exact hApart first (hUsed first hFirst) second (hUsed second hSecond) entry found
    hEntry hFound hSame

/-- The natives that the code uses have different hashes. -/
theorem ClearlyNamed.hashesApart
    (hNamed : ClearlyNamed setting.natives setting.program unit.statements) :
    HashesApart setting.natives (usedNatives unit.statements) :=
  hNamed.hashes

theorem ClearlyNamed.plain_used
    (hNamed : ClearlyNamed setting.natives setting.program unit.statements) :
    ∀ name ∈ (calledNatives unit.code.toArray).keys, '.' ∉ name.toList :=
  fun name hName => hNamed.natives_plain name (usedNatives_code unit (mem_calledNatives.mp hName))

/-- The natives that a unit includes are those that its code calls and that are
found. -/
theorem ClearlyNamed.mem_nativeLabels
    (hNamed : ClearlyNamed setting.natives setting.program unit.statements)
    {name : String} : name ∈ nativeLabels (scopeLines unit.statements) ↔
      name ∈ usedNatives unit.code ∧ (setting.natives.named? name).isSome := by
  rw [(natives_scopeLines unit).1, nativeLabels_nativeLines hNamed.plain_used, List.mem_filter,
    mem_calledNatives]

theorem ClearlyNamed.nodup_nativeLabels
    (hNamed : ClearlyNamed setting.natives setting.program unit.statements) :
    (nativeLabels (scopeLines unit.statements)).Nodup := by
  rw [(natives_scopeLines unit).1, nativeLabels_nativeLines hNamed.plain_used]
  exact (Table.nodup_keys _).filter _

/-- Every function has its label. -/
theorem Pieced.label_of_function (h : Pieced unit pieces) {id : Nat} {name : String}
    (hName : setting.program.functionName? id = some name) (scope : Option String) :
    qualify scope name ∈ Assembly.codeLabels (scopeLines unit.statements) := by
  obtain ⟨piece, hPiece, rfl⟩ := h.covers id name hName
  rw [qualify_of_not_mem (h.clear piece hPiece).plain, h.codeLabels]
  have hOwn : piece.name ∈ Assembly.codeLabels piece.lines := by
    rw [(h.clear piece hPiece).codeLabels]
    exact List.mem_cons_self ..
  obtain ⟨line, hLine, hLabel⟩ := List.mem_filterMap.mp hOwn
  exact List.mem_filterMap.mpr ⟨line,
    List.mem_flatten.mpr ⟨_, List.mem_map_of_mem hPiece, hLine⟩, hLabel⟩

/-- A function's own labels are labels of the unit. -/
theorem Pieced.label_of_body (h : Pieced unit pieces) {piece : FunctionPiece setting}
    (hPiece : piece ∈ pieces) {label : String} (hLabel : label ∈ definedLabels piece.body) :
    qualify (some piece.name) label ∈ Assembly.codeLabels (scopeLines unit.statements) := by
  have hOwn : qualify (some piece.name) label ∈ Assembly.codeLabels piece.lines := by
    rw [(h.clear piece hPiece).codeLabels, qualify,
      (h.clear piece hPiece).spread.locals label hLabel]
    exact List.mem_cons_of_mem _ (List.mem_map_of_mem hLabel)
  obtain ⟨line, hLine, hSame⟩ := List.mem_filterMap.mp hOwn
  rw [h.codeLabels]
  exact List.mem_filterMap.mpr ⟨line,
    List.mem_flatten.mpr ⟨_, List.mem_map_of_mem hPiece, hLine⟩, hSame⟩

/-- No label of code is the name of a native. -/
theorem Pieced.apart (h : Pieced unit pieces)
    (hFunctions : ∀ piece ∈ pieces, piece.function ∈ setting.program.functions)
    (hNamed : ClearlyNamed setting.natives setting.program unit.statements) :
    ∀ label ∈ Assembly.codeLabels (scopeLines unit.statements),
      label ∉ nativeLabels (scopeLines unit.statements) := by
  intro label hLabel hNative
  have hUsed := usedNatives_code unit (hNamed.mem_nativeLabels.mp hNative).1
  rw [h.codeLabels] at hLabel
  obtain ⟨line, hLine, hOwn⟩ := List.mem_filterMap.mp hLabel
  obtain ⟨lines, hLines, hLine⟩ := List.mem_flatten.mp hLine
  obtain ⟨piece, hPiece, rfl⟩ := List.mem_map.mp hLines
  have hMem : label ∈ Assembly.codeLabels piece.lines := List.mem_filterMap.mpr ⟨line, hLine, hOwn⟩
  rw [(h.clear piece hPiece).codeLabels] at hMem
  rcases List.mem_cons.mp hMem with rfl | hLocal
  · exact hNamed.apart _ (hFunctions piece hPiece) hUsed
  · obtain ⟨tail, hTail, rfl⟩ := List.mem_map.mp hLocal
    have hPoint : '.' ∈ tail.toList := by
      have hFirst := (h.clear piece hPiece).spread.locals tail hTail
      rw [isLocal, beq_iff_eq] at hFirst
      exact List.mem_of_head? hFirst
    exact hNamed.natives_plain _ hUsed (by simp [hPoint])

/-- Every statement of a function suits the unit. -/
theorem Pieced.suits (h : Pieced unit pieces) {database : NativeDatabase}
    (hDatabase : setting.natives = database.source)
    (hNamed : ClearlyNamed setting.natives setting.program unit.statements)
    {piece : FunctionPiece setting} (hPiece : piece ∈ pieces) :
    SuitsCode ⟨fun name => qualify (some piece.name) name ∈
        Assembly.codeLabels (scopeLines unit.statements),
      fun name => qualify (some piece.name) name ∈ nativeLabels (scopeLines unit.statements)⟩
      piece.code := by
  refine (suitsCode_cons _ _).mpr ⟨suits_enter .., piece.suits_inner ⟨?_, ?_, ?_⟩ ?_⟩
  · exact fun id name hName => h.label_of_function hName _
  · exact fun label hLabel => h.label_of_body hPiece hLabel
  · intro statement hStatement name hCalled hFound
    have hUsed : Text.upperCased name ∈ usedNatives unit.code := by
      refine List.mem_filterMap.mpr ⟨statement, ?_, hCalled⟩
      rw [h.code]
      refine List.mem_flatten.mpr ⟨_, List.mem_map_of_mem hPiece, ?_⟩
      exact List.mem_cons_of_mem _ (List.mem_append_left _ hStatement)
    show qualify (some piece.name) (Text.upperCased name) ∈ _
    rw [qualify_of_not_mem (hNamed.natives_plain _ (usedNatives_code unit hUsed)),
      hNamed.mem_nativeLabels]
    refine ⟨hUsed, ?_⟩
    rw [hDatabase] at hFound ⊢
    exact (congrArg Option.isSome (database.named?_upperCased name)).trans hFound
  · intro name hName
    have hClear := h.clear piece hPiece
    exact h.label_of_body hPiece (hClear.spread.mem_of_user (hClear.labelled.reached name hName))

/-- Every line of the unit suits it. -/
theorem Pieced.suits_line (h : Pieced unit pieces) {database : NativeDatabase}
    (hDatabase : setting.natives = database.source)
    (hNamed : ClearlyNamed setting.natives setting.program unit.statements) :
    ∀ line ∈ scopeLines unit.statements,
      line.Suits (· ∈ Assembly.codeLabels (scopeLines unit.statements))
        (· ∈ nativeLabels (scopeLines unit.statements)) := by
  have hFunctions : ∀ id name, setting.program.functionName? id = some name →
      qualify none name ∈ Assembly.codeLabels (scopeLines unit.statements) :=
    fun id name hName => h.label_of_function hName none
  intro line hLine
  rw [scopeLines_unit, h.lines, List.mem_append, List.mem_append, List.mem_cons] at hLine
  rcases hLine with hData | hNative | rfl | hCode
  · simp only [identityAndData, List.mem_append, List.mem_map] at hData
    obtain ⟨statement, hStatement, rfl⟩ | ⟨statement, hStatement, rfl⟩
        | ⟨statement, hStatement, rfl⟩ | ⟨statement, hStatement, rfl⟩ := hData
    · rcases List.mem_cons.mp hStatement with rfl | hHash
      · exact .scriptName rfl rfl
      · obtain ⟨hash, _, rfl⟩ := List.mem_map.mp hHash
        exact .scriptHash rfl rfl
    · cases hBlock : setting.program.globalsBlock with
      | none =>
          rw [unit.no_globals hBlock] at hStatement
          cases hStatement
      | some block =>
          have hSegment : unit.globalsSegment = .globals block := by
            simp [CompiledUnit.globalsSegment, hBlock]
          rw [hSegment]
          exact suits_data rfl (unit.globals_ok block hBlock) hFunctions statement hStatement
    · exact suits_data rfl unit.statics_ok hFunctions statement hStatement
    · exact suits_data rfl unit.arguments_ok hFunctions statement hStatement
  · obtain ⟨first, hFirst, hNatives⟩ := natives_lines unit
    rw [hNatives, List.mem_append] at hNative
    rcases hNative with hBefore | hIncluded
    · rw [hFirst line hBefore]
      exact .segment rfl rfl
    · obtain ⟨statement, hStatement, rfl⟩ := List.mem_map.mp hIncluded
      obtain ⟨name, _, hEntry⟩ := List.mem_filterMap.mp hStatement
      obtain ⟨entry, _, rfl⟩ := Option.map_eq_some_iff.mp hEntry
      exact .native rfl rfl
  · exact .segment rfl rfl
  · obtain ⟨lines, hLines, hLine⟩ := List.mem_flatten.mp hCode
    obtain ⟨piece, hPiece, rfl⟩ := List.mem_map.mp hLines
    obtain ⟨statement, hStatement, rfl⟩ := List.mem_map.mp hLine
    have hSuits := h.suits hDatabase hNamed hPiece statement hStatement
    unfold SuitsStatement at hSuits
    split at hSuits
    · next hContent => exact .label hContent rfl
    · next mnemonic operands hContent => exact .instruction hContent rfl hSuits
    · exact hSuits.elim

/-- The globals of a unit stand in one block. -/
theorem Pieced.block (h : Pieced unit pieces) :
    ∀ line ∈ scopeLines unit.statements, ∀ block, line.segment = .globals block →
      block = setting.program.globalsBlock.getD 0 := by
  intro line hLine block hBlock
  rw [scopeLines_unit, h.lines, List.mem_append, List.mem_append, List.mem_cons] at hLine
  rcases hLine with hData | hNative | rfl | hCode
  · simp only [identityAndData, List.mem_append, List.mem_map] at hData
    obtain ⟨_, _, rfl⟩ | ⟨_, _, rfl⟩ | ⟨_, _, rfl⟩ | ⟨_, _, rfl⟩ := hData
    · cases hBlock
    · exact (Segment.globals.inj hBlock).symm
    · cases hBlock
    · cases hBlock
  · obtain ⟨_, _, rfl⟩ := List.mem_map.mp hNative
    cases hBlock
  · cases hBlock
  · obtain ⟨lines, hLines, hLine⟩ := List.mem_flatten.mp hCode
    obtain ⟨piece, _, rfl⟩ := List.mem_map.mp hLines
    obtain ⟨_, _, rfl⟩ := List.mem_map.mp hLine
    cases hBlock

/-- The unit of a program with clear names is linkable. -/
theorem ClearlyNamed.linkable {database : NativeDatabase}
    (hDatabase : setting.natives = database.source)
    (hNamed : ClearlyNamed setting.natives setting.program unit.statements) :
    Linkable (scopeLines unit.statements) := by
  obtain ⟨pieces, h, hFunctions⟩ := hNamed.exists_pieced
  exact {
    suits := h.suits_line hDatabase hNamed
    block := fun first hFirst second hSecond block other hBlock hOther =>
      (h.block first hFirst block hBlock).trans (h.block second hSecond other hOther).symm
    hashes := nodup_nativeHashes hNamed.hashesApart
    natives := hNamed.nodup_nativeLabels
    labels := by
      rw [h.codeLabels]
      exact nodup_codeLabels_pieces h.clear h.names
    apart := h.apart hFunctions hNamed }

end Units

end ScriptBackend.Lowering

namespace ScriptBackend

open Lowering Assembly

/-- Compiled output links: whatever a program with clear names is lowered to,
assembling it ends in a script or at a limit, that is with too much data or
code, a jump that is too far, or too many natives. -/
theorem assemble_compiled {database : NativeDatabase} {program : Program} {statements : Code}
    (h : compileToAssembly database program = .ok statements)
    (hNamed : ClearlyNamed database program statements) (source : NativeSource)
    (options : Options) : (∃ script, assemble source options statements = .ok script) ∨
      ∃ fault, assemble source options statements = .error fault ∧ fault.cause.isLimit = true := by
  obtain ⟨setting, hSetting, hUnit⟩ := Outcome.bind_eq_ok.mp h
  obtain ⟨slots, _, hSetting⟩ := Outcome.bind_eq_ok.mp hSetting
  cases hSetting
  obtain ⟨unit, rfl⟩ := CompiledUnit.exists_of_unitOf hUnit
  have hLinkable : Linkable (scopeLines unit.statements) := hNamed.linkable rfl
  have hLimited := hLinkable.assemble source options
  cases hAssembled : assemble source options unit.statements with
  | ok script => exact .inl ⟨script, rfl⟩
  | error fault =>
      rw [hAssembled] at hLimited
      exact .inr ⟨fault, rfl, hLimited⟩

/-- A program whose loop is left by a jump from within a selection, with a
second function. -/
def leavingLoop : Program :=
  ⟨"main", none, none, #[], #[], #[],
    #[⟨"MAIN", [], .void,
        [.loop (.ofBool true) [.select (.ofInt 1) [(some 1, [.goto "done"]), (none, [.breakOut])]],
          .label "done", .evaluate (.call ⟨.void, false, false⟩ 1 [])]⟩,
      ⟨"HELPER", [], .void, [.ret none]⟩],
    #[]⟩

theorem assemble_compiled_leavingLoop :
    ∃ statements, compileToAssembly NativeDatabase.empty leavingLoop = .ok statements ∧
      ClearlyNamed NativeDatabase.empty leavingLoop statements ∧
      ((∃ script, assemble NativeDatabase.empty .default statements = .ok script) ∨
        ∃ fault, assemble NativeDatabase.empty .default statements = .error fault ∧
          fault.cause.isLimit = true) := by
  have hFree : (compileToAssembly NativeDatabase.empty leavingLoop).toOption.any
      (fun statements => (usedNatives statements).isEmpty) = true := by decide +kernel
  have hCompiled : ∃ statements,
      compileToAssembly NativeDatabase.empty leavingLoop = .ok statements ∧
      usedNatives statements = [] := by
    cases h : compileToAssembly NativeDatabase.empty leavingLoop with
    | error fault =>
        rw [h] at hFree
        cases hFree
    | ok statements =>
        rw [h] at hFree
        exact ⟨statements, rfl, List.isEmpty_iff.mp hFree⟩
  obtain ⟨statements, h, hNatives⟩ := hCompiled
  have hNamed : ClearlyNamed NativeDatabase.empty leavingLoop statements := {
    distinct := by decide
    plain := by simp [leavingLoop]
    labelled := fun function hFunction => by
      have hEach : function = leavingLoop.functions[0] ∨ function = leavingLoop.functions[1] := by
        simpa [leavingLoop] using hFunction
      rcases hEach with rfl | rfl
      · exact ⟨by decide, by decide, by decide⟩
      · exact ⟨by decide, by decide, by decide⟩
    natives_plain := by simp [hNatives]
    apart := by simp [hNatives]
    hashes := by simp [hNatives] }
  exact ⟨statements, h, hNamed, assemble_compiled h hNamed _ _⟩

end ScriptBackend
