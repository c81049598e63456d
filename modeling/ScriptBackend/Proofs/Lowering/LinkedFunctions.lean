import ScriptBackend.Proofs.Assembly.Blocks
import ScriptBackend.Proofs.Instruction.Partition
import ScriptBackend.Proofs.Lowering.CompiledData

/-!
Functions in scripts. Every function of a compiled program has an entry in the
code, at which its own frame instruction stands; calls, pushed addresses and the
words of variables denote these entries, and in front of every entry but the
first control has left the function before.
-/
namespace ScriptBackend

open Assembly Lowering Outcome

/-- An instruction enters a function with a frame. Its operands are numbers of
64 bits. -/
def Instruction.Enters (frame : Frame) (instruction : Instruction) : Prop :=
  instruction.opcode = .enter ∧ ∃ name,
    instruction.operands? = some (.enter (frame.parameterWords % 2 ^ 64) (frame.size % 2 ^ 64) name)

/-- An instruction pushes an address of the code. -/
def Instruction.PushesAddress (address : Nat) (instruction : Instruction) : Prop :=
  instruction.opcode = .pushConstU24 ∧ instruction.operands? = some (.unsigned24 address)

namespace Lowering

/-! Functions end by leaving -/

/-- A body that ends by returning has a way out as its last statement. -/
theorem Generates.exists_leave {environment : Environment} {targets : Targets}
    {statements : List Stmt}
    {n m : Nat} {code : Code} (h : Generates environment targets (.block statements) n code m)
    (hReturn : endsInReturn statements = true) :
    ∃ before, code = before ++ [leave environment.frame] := by
  induction statements generalizing n code with
  | nil => cases hReturn
  | cons first rest ih =>
      cases h with
      | cons hFirst hRest =>
          cases rest with
          | cons second others =>
              obtain ⟨before, rfl⟩ := ih hRest hReturn
              exact ⟨_ ++ before, (List.append_assoc ..).symm⟩
          | nil =>
              cases hRest
              cases hFirst with
              | ret => exact ⟨[], rfl⟩
              | retValue hValue => exact ⟨_, List.append_nil _⟩
              | _ => cases hReturn

/-- Every function ends by leaving. -/
theorem FunctionPiece.exists_leave {setting : Setting} (piece : FunctionPiece setting) :
    ∃ before, piece.inner = before ++ [leave piece.frame] := by
  unfold inner
  split
  · next hReturn =>
      obtain ⟨before, hBody⟩ := piece.generated.exists_leave hReturn
      exact ⟨before, (List.append_nil _).trans hBody⟩
  · exact ⟨piece.body, rfl⟩

end Lowering

section Sections

variable {source : NativeSource} {options : Options} {statements : List Statement} {script : Script}
  {assembled : Assembled source options statements script} {block : List Instruction}

/-- A number that an operand of 64 bits denotes. -/
theorem eq_mod_of_toInt {n value : Nat} (h : (Int64.ofNat n).toInt = (value : Int)) :
    value = n % 2 ^ 64 := by
  rw [Int64.toInt_ofNat', Int64.size, Int.bmod_def] at h
  split at h <;> omega

/-- The block of a frame instruction enters the function. -/
theorem enters_of_isBlock {frame : Frame} {name : String}
    (h : assembled.IsBlock (enter frame name) block) (hName : '.' ∉ name.toList) :
    ∃ instruction, block = [instruction] ∧ instruction.Enters frame ∧
      assembled.layout.labels.find? name = some instruction.address := by
  obtain ⟨located, instruction, rfl, hPrimitive, hCarries, hAddress⟩ :=
    h.of_opcode .enter rfl nofun
  refine ⟨instruction, rfl, ?_, hAddress name rfl (isLocal_eq_false hName)⟩
  have hFormat : located.primitive.opcode.format = .enter := by rw [hPrimitive]; rfl
  obtain ⟨values, hValues, hRead, hDenotes⟩ := hCarries.operands?_eq hFormat
  obtain ⟨parameters, size, stored, rfl⟩ := OperandValues.enter_of_read? hRead
  obtain ⟨first, second, rest, _, hOperands, hFirst, hSecond, _⟩ := hDenotes
  rw [hPrimitive] at hOperands
  cases hOperands
  have hParameters := eq_mod_of_toInt (Except.ok.inj hFirst)
  have hSize := eq_mod_of_toInt (Except.ok.inj hSecond)
  refine ⟨by rw [hCarries.opcode, hPrimitive], stored, ?_⟩
  rw [hValues, hParameters, hSize]

/-- The block of the instruction that leaves a function. -/
theorem leaves_of_isBlock {frame : Frame} (h : assembled.IsBlock (leave frame) block) :
    ∃ instruction, block = [instruction] ∧ instruction.opcode = .leave := by
  obtain ⟨located, instruction, rfl, hPrimitive, hCarries, _⟩ := h.of_opcode .leave rfl nofun
  exact ⟨instruction, rfl, by rw [hCarries.opcode, hPrimitive]⟩

/-- The steps of a function: it is entered at its name, and left at its end. -/
theorem Lowering.FunctionPiece.exists_steps {setting : Setting} (piece : FunctionPiece setting)
    {blocks : List (List Instruction)} (h : List.Forall₂ assembled.IsBlock piece.code blocks)
    (hName : '.' ∉ piece.name.toList) :
    ∃ entering inside leaving, blocks.flatten = entering :: (inside ++ [leaving]) ∧
      entering.Enters piece.frame ∧
      assembled.layout.labels.find? piece.name = some entering.address ∧
      leaving.opcode = .leave := by
  obtain ⟨before, hInner⟩ := piece.exists_leave
  rw [FunctionPiece.code, hInner] at h
  obtain _ | ⟨hEnter, hRest⟩ := h
  obtain ⟨inside, last, rfl, _, hLast⟩ := exists_append hRest
  obtain _ | ⟨hLeave, hNone⟩ := hLast
  cases hNone
  obtain ⟨entering, rfl, hEnters, hAddress⟩ := enters_of_isBlock hEnter hName
  obtain ⟨leaving, rfl, hLeaves⟩ := leaves_of_isBlock hLeave
  exact ⟨entering, inside.flatten, leaving, by simp, hEnters, hAddress, hLeaves⟩

end Sections

/-- The steps of a function: it is entered at its entry with its own frame, and
left at its end. -/
def Lowering.Setting.IsFunctionSteps (setting : Setting) (entry : Nat → Nat) (id : Nat)
    (steps : List Instruction) : Prop :=
  ∃ function entering inside leaving, setting.program.functions[id]? = some function ∧
    steps = entering :: (inside ++ [leaving]) ∧ entering.address = entry id ∧
    entering.Enters (Slots.frameOf setting.program setting.sizes function) ∧ leaving.opcode = .leave

section Parts

variable {α β : Type} {relation : α → β → Prop} {first item : α} {rest : List α} {parts : List β}

/-- In front of every part but the first is another one. -/
theorem exists_previous (h : List.Forall₂ relation (first :: rest) parts) (hItem : item ∈ rest) :
    ∃ before previous part behind, parts = before ++ previous :: part :: behind ∧
      (∃ other, relation other previous) ∧ relation item part := by
  induction rest generalizing first parts with
  | nil => cases hItem
  | cons second others ih =>
      obtain _ | ⟨hFirst, hRest⟩ := h
      rcases List.mem_cons.mp hItem with rfl | hLater
      · obtain _ | ⟨hSecond, _⟩ := hRest
        exact ⟨[], _, _, _, rfl, ⟨first, hFirst⟩, hSecond⟩
      · obtain ⟨before, previous, part, behind, rfl, hPrevious, hPart⟩ := ih hRest hLater
        exact ⟨_ :: before, previous, part, behind, rfl, hPrevious, hPart⟩

/-- Where there are parts, there is a last one. -/
theorem exists_last (h : List.Forall₂ relation (first :: rest) parts) :
    ∃ before part other, parts = before ++ [part] ∧ relation other part := by
  induction rest generalizing first parts with
  | nil =>
      obtain _ | ⟨hFirst, hNone⟩ := h
      cases hNone
      exact ⟨[], _, first, rfl, hFirst⟩
  | cons second others ih =>
      obtain _ | ⟨_, hRest⟩ := h
      obtain ⟨before, part, other, rfl, hPart⟩ := ih hRest
      exact ⟨_ :: before, part, other, rfl, hPart⟩

/-- What is paired with an item stands behind what is paired with the items in
front of it. -/
theorem exists_paired {items : List α} (h : List.Forall₂ relation items parts)
    (hItem : item ∈ items) :
    ∃ before part behind, parts = before ++ part :: behind ∧ relation item part := by
  induction h with
  | nil => cases hItem
  | @cons other part _ others hPart _ ih =>
      rcases List.mem_cons.mp hItem with rfl | hLater
      · exact ⟨[], part, others, rfl, hPart⟩
      · obtain ⟨before, found, behind, rfl, hFound⟩ := ih hLater
        exact ⟨part :: before, found, behind, rfl, hFound⟩

end Parts

section Units

variable {setting : Setting} {options : Options} {script : Script} {unit : CompiledUnit setting}
  {assembled : Assembled setting.natives options unit.statements script}

def Assembly.Assembled.entryOf {source : NativeSource} {statements : List Statement}
    (assembled : Assembled source options statements script) (program : Program) (id : Nat) : Nat :=
  ((program.functionName? id).bind assembled.layout.labels.find?).getD 0

/-- The steps of the functions follow each other in the order of their code. -/
theorem exists_functionSteps
    (hFrames : setting.slots.frames.toList =
      setting.program.functions.toList.map (Slots.frameOf setting.program setting.sizes))
    (hPlain : ∀ function ∈ setting.program.functions, '.' ∉ function.name.toList)
    {blocks : List (List Instruction)} (h : List.Forall₂ assembled.IsBlock unit.code blocks) :
    ∃ parts : List (List Instruction), blocks.flatten = parts.flatten ∧
      List.Forall₂ (setting.IsFunctionSteps (assembled.entryOf setting.program))
        (codeOrder setting.program unit.entry) parts := by
  obtain ⟨pieces, hCode, hPieces⟩ := unit.generated.exists_framedPieces
  rw [hCode] at h
  obtain ⟨groups, rfl, hGroups⟩ := exists_flatten h
  refine ⟨groups.map List.flatten, List.flatten_flatten, ?_⟩
  rw [List.forall₂_map_right_iff]
  rw [List.forall₂_map_left_iff] at hGroups
  clear h hCode
  generalize codeOrder setting.program unit.entry = ids at hPieces ⊢
  induction hPieces generalizing groups with
  | nil =>
      cases hGroups
      exact .nil
  | @cons id piece _ _ hPiece _ ih =>
      obtain _ | ⟨hGroup, hRest⟩ := hGroups
      refine .cons ?_ (ih _ hRest)
      obtain ⟨hFunction, hFrame, _⟩ := hPiece
      have hName := hPlain piece.function (Array.mem_of_getElem? hFunction)
      obtain ⟨entering, inside, leaving, hSteps, hEnters, hAddress, hLeaves⟩ :=
        piece.exists_steps hGroup hName
      rw [Slots.eq_frameOf hFrames hFunction hFrame] at hEnters
      refine ⟨piece.function, entering, inside, leaving, hFunction, hSteps, ?_, hEnters, hLeaves⟩
      rw [Assembled.entryOf, Program.functionName?, hFunction, Option.map_some, Option.bind_some]
      exact (congrArg (Option.getD · 0) hAddress).symm

/-- Every function begins somewhere in the code, and nothing else has its name. -/
theorem bound_entryOf (hPlain : ∀ function ∈ setting.program.functions, '.' ∉ function.name.toList)
    {id : Nat} {name : String} (hName : setting.program.functionName? id = some name) :
    '.' ∉ name.toList ∧ assembled.layout.labels.find? name =
      some (assembled.entryOf setting.program id) ∧
      assembled.data.symbols.contains name = false := by
  have hOwn : '.' ∉ name.toList := by
    obtain ⟨function, hFunction, rfl⟩ := Option.map_eq_some_iff.mp hName
    exact hPlain function (Array.mem_of_getElem? hFunction)
  obtain ⟨address, hBegins, hUnknown⟩ := exists_beginsAt assembled hName hOwn
  refine ⟨hOwn, ?_, hUnknown⟩
  rw [Assembled.entryOf, hName, Option.bind_some, hBegins.bound, Option.getD_some]

/-- A name of a function that an instruction asks for is its entry. -/
theorem integer_entryOf (hPlain : ∀ function ∈ setting.program.functions, '.' ∉
    function.name.toList)
    {id : Nat} {name : String}
    (hName : setting.program.functionName? id = some name) (line : Line) :
    assembled.environment.integer line (.name name) true =
      .ok (assembled.entryOf setting.program id : Int) := by
  obtain ⟨hOwn, hBound, hUnknown⟩ := @bound_entryOf _ _ _ _ assembled hPlain id name hName
  have hQualify : line.qualify name = name := qualify_of_not_mem hOwn line.scope
  refine Environment.integer_label ?_ ?_
  · rw [hQualify]
    exact hUnknown
  · rw [hQualify]
    exact hBound

end Units

/-! References to functions -/

/-- A statement is the call that is generated for a call of a function. -/
def Lowering.Setting.Calls (setting : Setting) (id : Nat) (statement : Statement) : Prop :=
  ∃ (environment : Lowering.Environment) (info : Info) (passed : List Expr)
    (n m : Nat) (code : Code), environment.toSetting = setting ∧
    (environment.value (.call info id passed)).run n = .ok (code ++ [statement], m)

/-- A statement is the push that is generated for a reference to a function. -/
def Lowering.Setting.Refers (setting : Setting) (id : Nat) (statement : Statement) : Prop :=
  ∃ (environment : Lowering.Environment) (info : Info) (n m : Nat),
    environment.toSetting = setting ∧
    (environment.value (.functionRef info id)).run n = .ok ([statement], m)

/-- A call names the function. -/
theorem Lowering.Setting.Calls.naming {setting : Setting} {id : Nat} {statement : Statement}
    (h : setting.Calls id statement) :
    ∃ name, setting.program.functionName? id = some name ∧ statement = naming "CALL" name := by
  obtain ⟨environment, info, passed, n, m, code, rfl, hRun⟩ := h
  have hEmits := environment.value_emits hRun
  generalize hMade : code ++ [statement] = made at hEmits
  cases hEmits with
  | known _ hWords =>
      unfold knownWords? at hWords
      split at hWords <;> cases hWords
  | computed _ hNode =>
      cases hNode with
      | call hFunction _ _ _ =>
          refine ⟨_, congrArg (Option.map Function.name) hFunction, ?_⟩
          exact List.singleton_inj.mp (List.append_inj_right' hMade rfl)
      | literal _ hWord => cases hWord

/-- A reference names the function. -/
theorem Lowering.Setting.Refers.naming {setting : Setting} {id : Nat} {statement : Statement}
    (h : setting.Refers id statement) :
    ∃ name, setting.program.functionName? id = some name ∧
      statement = naming "PUSH_CONST" name := by
  obtain ⟨environment, info, n, m, rfl, hRun⟩ := h
  have hEmits := environment.value_emits hRun
  generalize hMade : [statement] = made at hEmits
  cases hEmits with
  | known _ hWords =>
      unfold knownWords? at hWords
      split at hWords
      · obtain ⟨name, hName, rfl⟩ := Option.map_eq_some_iff.mp hWords
        exact ⟨name, hName, List.singleton_inj.mp hMade⟩
      · cases hWords
  | computed _ hNode =>
      cases hNode with
      | functionRef _ hNamed =>
          unfold functionName at hNamed
          split at hNamed
          · next name hName =>
              cases hNamed
              exact ⟨_, hName, List.singleton_inj.mp hMade⟩
          · cases hNamed
      | literal _ hWord => cases hWord

/-- Where instructions and words name a function, they denote its entry. -/
structure Lowering.Setting.Links (setting : Setting) (entry : Nat → Nat) (statement : Statement)
    (block : List Instruction) : Prop where
  calls : ∀ id, setting.Calls id statement →
    ∃ instruction, block = [instruction] ∧ instruction.callTarget? = some (entry id)
  refers : ∀ id, setting.Refers id statement →
    ∃ instruction, block = [instruction] ∧ instruction.PushesAddress (entry id)
  pushes : ∀ operands, statement.content = .instruction "PUSH_CONST" operands →
    List.Forall₂ (fun operand instruction => ∀ id name, operand = .name name →
      setting.program.functionName? id = some name →
      instruction.PushesAddress (entry id)) operands block

section Units

variable {setting : Setting} {options : Options} {script : Script} {unit : CompiledUnit setting}
  {assembled : Assembled setting.natives options unit.statements script} {statement : Statement}
  {block : List Instruction}

/-- The pushes of names of functions push their entries. -/
theorem pushes_entryOf (hPlain : ∀ function ∈ setting.program.functions, '.' ∉ function.name.toList)
    (h : assembled.IsBlock statement block) {operands : List Operand}
    (hContent : statement.content = .instruction "PUSH_CONST" operands) :
    List.Forall₂ (fun operand instruction => ∀ id name, operand = .name name →
      setting.program.functionName? id = some name →
        instruction.PushesAddress (assembled.entryOf setting.program id)) operands block := by
  refine (h.of_pushes hContent).imp ?_
  rintro _ instruction ⟨located, hCarries, hPush⟩ id name rfl hName
  obtain ⟨hOwn, _, hUnknown⟩ := @bound_entryOf _ _ _ _ assembled hPlain id name hName
  have hQualify : located.line.qualify name = name := qualify_of_not_mem hOwn located.line.scope
  rw [Expansion.pushOperand] at hPush
  dsimp only at hPush
  rw [hQualify, Symbols.value?_of_contains hUnknown, Except.ok.injEq] at hPush
  refine ⟨by rw [hCarries.opcode, ← hPush], ?_⟩
  exact hCarries.operands?_unsigned24_label (by rw [← hPush]; rfl)
    (congrArg Primitive.operands hPush.symm) (integer_entryOf hPlain hName located.line)

/-- Every statement of a compiled program links. -/
theorem links_of_isBlock (hPlain : ∀ function ∈ setting.program.functions, '.' ∉
    function.name.toList) (h : assembled.IsBlock statement block) :
    setting.Links (assembled.entryOf setting.program) statement block where
  calls := by
    intro id hCalls
    obtain ⟨name, hName, rfl⟩ := hCalls.naming
    obtain ⟨located, instruction, rfl, hPrimitive, hCarries, _⟩ := h.of_opcode .call rfl nofun
    refine ⟨instruction, rfl, ?_⟩
    exact hCarries.callTarget?_label (by rw [hPrimitive]; rfl)
      (congrArg Primitive.operands hPrimitive) (integer_entryOf hPlain hName located.line)
  refers := by
    intro id hRefers
    obtain ⟨name, hName, rfl⟩ := hRefers.naming
    obtain _ | ⟨hPush, hNone⟩ := pushes_entryOf hPlain h rfl
    cases hNone
    exact ⟨_, rfl, hPush id name rfl hName⟩
  pushes := fun _ hContent => pushes_entryOf hPlain h hContent

end Units

/-! References in data -/

/-- The words that the variables of a region begin with, in the order of their
declaration. -/
def Lowering.Setting.initialData (setting : Setting) (region : Region) :
    Except CompileFault (List Datum) := do
  let words ← (Slots.inRegion setting.program region).mapM fun id => do
    variableData setting (← setting.declaration id)
  return words.flatten

/-- A stored word is the entry of the function that the word of a variable
refers to. -/
def Lowering.Setting.LinksWord (setting : Setting) (entry : Nat → Nat) (word : Datum)
    (stored : Word) : Prop :=
  ∀ id name, word = .address name → setting.program.functionName? id = some name →
    stored = Word.ofInt (entry id)

section Data

variable {setting : Setting} {options : Options} {script : Script} {unit : CompiledUnit setting}

/-- The words of variables come from their parts of a section. -/
theorem exists_initialWords {segment : Segment} {ids : List Nat}
    (h : ∀ id ∈ ids, ∃ code, variableCode setting id = .ok code)
    (hRoom : ∀ id ∈ ids, (variableSources setting segment id).length < UInt32.size - 1) :
    ∃ words, (ids.mapM fun id => do variableData setting (← setting.declaration id)) = .ok words ∧
      List.Forall₂ ComesFrom words.flatten (ids.map (variableSources setting segment)).flatten := by
  induction ids with
  | nil => exact ⟨[], rfl, .nil⟩
  | cons first rest ih =>
      rw [List.forall_mem_cons] at h hRoom
      obtain ⟨code, hCode⟩ := h.1
      obtain ⟨declared, words, hDeclared, hWords, hComes⟩ := comesFrom_variableSources hCode hRoom.1
      obtain ⟨others, hOthers, hRest⟩ := ih h.2 hRoom.2
      refine ⟨words :: others, ?_, List.rel_append hComes hRest⟩
      have hDeclaration : setting.declaration first = .ok declared := by
        rw [Setting.declaration, hDeclared]
      rw [List.mapM_cons, hDeclaration, hOthers]
      exact bind_eq_ok.mpr ⟨words, hWords, rfl⟩

/-- Where the words of a region refer to functions, the image holds the entries
of these. -/
theorem linksWords_region (assembled : Assembled setting.natives options unit.statements script)
    (hLists : setting.slots.ListsData setting.program)
    (hPlain : ∀ function ∈ setting.program.functions, '.' ∉ function.name.toList) (region : Region)
    (hRegion : region.isData = true) :
    ∃ words, setting.initialData region = .ok words ∧
      List.Forall₂ (setting.LinksWord (assembled.entryOf setting.program)) words
        (assembled.image.regionWords region).toList := by
  have hSources := unit.wordSources_region hLists hRegion
  have hRoom := length_wordSources assembled hRegion
  rw [hSources] at hRoom
  obtain ⟨words, hWords, hComes⟩ := exists_initialWords
    (codeSources_dataSegment (unit.dataSegment_dataOf hLists hRegion)).2
    (fun id hId => Nat.lt_of_le_of_lt
      (List.sublist_flatten_of_mem (List.mem_map_of_mem hId)).length_le hRoom)
  rw [← hSources] at hComes
  have hSize := assembled.holdsData.sizes region
  refine ⟨words.flatten, bind_eq_ok.mpr ⟨words, hWords, rfl⟩, ?_⟩
  refine List.forall₂_iff_get.mpr ⟨hComes.length_eq.trans hSize.symm,
    fun i hi hStored id name hWord hName => ?_⟩
  have hSource : i < (wordSources region (scopeLines unit.statements)).length :=
    hComes.length_eq ▸ hi
  have hComesFrom := hComes.get hi hSource
  obtain ⟨stored, hFound, hDenotes⟩ :=
    assembled.holdsData.words region i _ (List.getElem?_eq_getElem hSource)
  obtain ⟨hOwn, hBound, _⟩ := @bound_entryOf _ _ _ _ assembled hPlain id name hName
  rw [hWord] at hComesFrom
  obtain ⟨address, hBegins, rfl⟩ := becomes_of_denotes assembled hComesFrom nofun
    (fun other hOther => by
      cases hOther
      exact ⟨hOwn, exists_beginsAt assembled hName hOwn⟩) hDenotes
  rw [hBegins.bound, Option.some.injEq] at hBound
  rw [← Array.getElem?_toList, List.getElem?_eq_getElem hStored, Option.some.injEq] at hFound
  rw [List.get_eq_getElem, hFound, hBound]

end Data
/-! Linked programs -/

section Units

variable {setting : Setting} {options : Options} {script : Script} {unit : CompiledUnit setting}

/-- A segment of data consists of directives. -/
theorem isDirective_dataSegment {segment : Segment} {ids : List Nat} {code : Code}
    (h : dataSegment setting segment ids = .ok code) :
    ∀ statement ∈ code, statement.IsDirective := by
  intro statement hStatement
  rcases mem_dataSegment h hStatement with rfl | ⟨_, _, hPart, hMem⟩
  · exact ⟨_, rfl⟩
  · obtain ⟨_, _, _, _, directive, _, _, _, hContent⟩ := exists_run_of_mem hPart hMem
    exact ⟨directive, hContent⟩

theorem isDirective_globals (unit : CompiledUnit setting) :
    ∀ statement ∈ unit.globals, statement.IsDirective := by
  cases hBlock : setting.program.globalsBlock with
  | none => simp [unit.no_globals hBlock]
  | some block => exact isDirective_dataSegment (unit.globals_ok block hBlock)

theorem isDirective_nativeSegment (natives : NativeSource) (code : Array Statement) :
    ∀ statement ∈ nativeSegment natives code, statement.IsDirective := by
  unfold nativeSegment
  dsimp only
  split
  · exact List.forall_mem_nil _
  · refine List.forall_mem_cons.mpr ⟨⟨_, rfl⟩, fun statement hStatement => ?_⟩
    obtain ⟨_, _, hEntry⟩ := List.mem_filterMap.mp hStatement
    obtain ⟨_, _, rfl⟩ := Option.map_eq_some_iff.mp hEntry
    exact ⟨_, rfl⟩

theorem isDirective_header (unit : CompiledUnit setting) :
    ∀ statement ∈ unit.header, statement.IsDirective := by
  refine List.forall_mem_cons.mpr ⟨⟨_, rfl⟩, fun statement hStatement => ?_⟩
  obtain ⟨_, _, rfl⟩ := List.mem_map.mp hStatement
  exact ⟨_, rfl⟩

/-- In front of the code of a unit stand only directives. -/
theorem exists_front (unit : CompiledUnit setting) :
    ∃ front, unit.statements = front ++ unit.code ∧ ∀ statement ∈ front, statement.IsDirective := by
  refine ⟨unit.header ++ (unit.globals ++ (unit.statics ++ (unit.arguments ++ (unit.natives ++
    [.ofDirective (.segment .code)])))), by simp [CompiledUnit.statements], ?_⟩
  simp only [List.forall_mem_append, List.forall_mem_singleton]
  exact ⟨isDirective_header unit, isDirective_globals unit, isDirective_dataSegment unit.statics_ok,
    isDirective_dataSegment unit.arguments_ok, isDirective_nativeSegment _ _, _, rfl⟩

/-- The entry point has address zero. -/
theorem entryOf_main (assembled : Assembled setting.natives options unit.statements script)
    (hPlain : ∀ function ∈ setting.program.functions, '.' ∉ function.name.toList) :
    assembled.entryOf setting.program unit.entry = 0 := by
  obtain ⟨front, hStatements, hFront⟩ := exists_front unit
  obtain ⟨pieces, hCode, hPieces⟩ := unit.generated.exists_pieces
  cases hPieces with
  | @cons _ piece _ others hFunction _ =>
      have hName := hPlain piece.function (Array.mem_of_getElem? hFunction)
      have hFirst : unit.statements = front ++ enter piece.frame piece.name ::
          (piece.inner ++ (others.map FunctionPiece.code).flatten) := by
        rw [hStatements, hCode]
        rfl
      have hZero := assembled.find?_first hFirst hFront rfl rfl (isLocal_eq_false hName)
      rw [Assembled.entryOf, Program.functionName?, hFunction, Option.map_some, Option.bind_some]
      exact congrArg (Option.getD · 0) hZero

end Units

/-- The code that is generated for a function stands among statements from an
index on, and the block of its first statement, which has the name of the
function and its frame, is the instruction at its entry. -/
def Lowering.Setting.EntersAt (setting : Setting) (statements : Code)
    (blocks : List (List Instruction))
    (entry : Nat → Nat) (id : Nat) (function : Function) (i : Nat) : Prop :=
  ∃ (inner behind : Code) (entering : Instruction),
    let first := enter (Slots.frameOf setting.program setting.sizes function) function.name
    statements.drop i = (first :: inner) ++ behind ∧ GeneratesFunction setting id (first :: inner) ∧
      blocks[i]? = some [entering] ∧ entering.address = entry id

/-- The functions of a script are linked: each is entered with its own frame
where its own code stands, the entry point at address zero, and no two of them
at one address; wherever the code or the data refer to a function, they hold its
entry; and in front of every entry but the first, and at the end of the code,
stands the instruction that leaves a function. -/
structure LinksFunctions (setting : Setting) (statements : List Statement)
    (script : Script) (main : Nat) (entry : Nat → Nat) : Prop where
  decodes : (Disassembly.ofCode script.code).fault = none
  main_entry : entry main = 0
  entered : ∀ (id : Nat) function, setting.program.functions[id]? = some function →
    ∃ instruction, Instruction.decodeAt script.code (entry id) = .ok instruction ∧
      instruction.Enters (Slots.frameOf setting.program setting.sizes function)
  guarded : ∀ (id : Nat) function, setting.program.functions[id]? = some function → id ≠ main →
    ∃ before leaving entering behind, script.steps = before ++ leaving :: entering :: behind ∧
      leaving.opcode = .leave ∧ entering.opcode = .enter ∧ entering.address = entry id
  left : ∃ before leaving, script.steps = before ++ [leaving] ∧ leaving.opcode = .leave
  distinct : ∀ first second, first < setting.program.functions.size →
    second < setting.program.functions.size → entry first = entry second → first = second
  code : ∃ blocks : List (List Instruction), script.steps = blocks.flatten ∧
    List.Forall₂ (setting.Links entry) statements blocks ∧
    ∀ (id : Nat) function, setting.program.functions[id]? = some function →
      ∃ i, setting.EntersAt statements blocks entry id function i
  statics : ∃ statics arguments, setting.initialData .statics = .ok statics ∧
    setting.initialData .arguments = .ok arguments ∧
    List.Forall₂ (setting.LinksWord entry) (statics ++ arguments) script.statics.toList
  globals : ∃ globals, setting.initialData .globals = .ok globals ∧
    List.Forall₂ (setting.LinksWord entry) globals script.globalsPages.flatten

section Units

variable {setting : Setting} {options : Options} {script : Script} {unit : CompiledUnit setting}

/-- The steps of a script end with those of its functions. -/
theorem exists_parts (assembled : Assembled setting.natives options unit.statements script)
    (hFrames : setting.slots.frames.toList =
      setting.program.functions.toList.map (Slots.frameOf setting.program setting.sizes))
    (hPlain : ∀ function ∈ setting.program.functions, '.' ∉ function.name.toList) :
    ∃ (front : List Instruction) (parts : List (List Instruction)),
      script.steps = front ++ parts.flatten ∧
      List.Forall₂ (setting.IsFunctionSteps (assembled.entryOf setting.program))
        (codeOrder setting.program unit.entry) parts := by
  obtain ⟨blocks, hSteps, hBlocks⟩ := assembled.exists_blocks
  obtain ⟨front, hStatements, _⟩ := exists_front unit
  have hSplit : List.Forall₂ assembled.IsBlock (front ++ unit.code) blocks :=
    cast (congrArg (List.Forall₂ assembled.IsBlock · blocks) hStatements) hBlocks
  obtain ⟨before, codeBlocks, rfl, _, hCode⟩ := exists_append hSplit
  obtain ⟨parts, hParts, hFunctions⟩ := exists_functionSteps hFrames hPlain hCode
  exact ⟨before.flatten, parts, by rw [hSteps, List.flatten_append, hParts], hFunctions⟩

section Order

variable {entry : Nat → Nat} {main id : Nat} {function : Function} {front : List Instruction}
  {parts : List (List Instruction)}

/-- At the entry of a function its frame instruction is read. -/
theorem enters_of_parts (hSteps : script.steps = front ++ parts.flatten)
    (hParts : List.Forall₂ (setting.IsFunctionSteps entry) (codeOrder setting.program main) parts)
    (hFunction : setting.program.functions[id]? = some function) :
    ∃ instruction, Instruction.decodeAt script.code (entry id) = .ok instruction ∧
      instruction.Enters (Slots.frameOf setting.program setting.sizes function) := by
  have hId : id ∈ codeOrder setting.program main :=
    mem_codeOrder (Array.getElem?_eq_some_iff.mp hFunction).1
  obtain ⟨i, hi, rfl⟩ := List.getElem_of_mem hId
  have hBound : i < parts.length := hParts.length_eq ▸ hi
  obtain ⟨same, entering, inside, leaving, hSame, hPart, hAddress, hEnters, _⟩ :=
    hParts.get hi hBound
  rw [List.get_eq_getElem] at hSame hPart hAddress
  rw [hFunction, Option.some.injEq] at hSame
  have hMem : entering ∈ script.steps := by
    rw [hSteps]
    refine List.mem_append_right _ (List.mem_flatten.mpr ⟨_, List.getElem_mem hBound, ?_⟩)
    rw [hPart]
    exact List.mem_cons_self ..
  refine ⟨entering, ?_, hSame ▸ hEnters⟩
  rw [← hAddress]
  exact Disassembly.decodeAt_of_mem (List.mem_filter.mp hMem).1

/-- In front of every function but the first, control has left the one before. -/
theorem guarded_of_parts (hSteps : script.steps = front ++ parts.flatten)
    (hParts : List.Forall₂ (setting.IsFunctionSteps entry) (codeOrder setting.program main) parts)
    (hFunction : setting.program.functions[id]? = some function) (hOther : id ≠ main) :
    ∃ before leaving entering behind, script.steps = before ++ leaving :: entering :: behind ∧
      leaving.opcode = .leave ∧ entering.opcode = .enter ∧ entering.address = entry id := by
  have hId : id ∈ (List.range setting.program.functions.size).filter (· ≠ main) := by
    simp [hOther, (Array.getElem?_eq_some_iff.mp hFunction).1]
  obtain ⟨first, previous, part, behind, rfl, ⟨_, hPrevious⟩, hPart⟩ := exists_previous hParts hId
  obtain ⟨_, start, inside, leaving, _, rfl, _, _, hLeaves⟩ := hPrevious
  obtain ⟨_, entering, rest, last, _, rfl, hAddress, hEnters, _⟩ := hPart
  exact ⟨front ++ (first.flatten ++ start :: inside), leaving, entering,
    rest ++ last :: behind.flatten, by simp [hSteps], hLeaves, hEnters.1, hAddress⟩

/-- At the end of the code, control has left the last function. -/
theorem left_of_parts (hSteps : script.steps = front ++ parts.flatten)
    (hParts : List.Forall₂ (setting.IsFunctionSteps entry) (codeOrder setting.program main) parts) :
    ∃ before leaving, script.steps = before ++ [leaving] ∧ leaving.opcode = .leave := by
  obtain ⟨first, part, _, rfl, hPart⟩ := exists_last hParts
  obtain ⟨_, start, inside, leaving, _, rfl, _, _, hLeaves⟩ := hPart
  exact ⟨front ++ (first.flatten ++ start :: inside), leaving, by simp [hSteps], hLeaves⟩

/-- The addresses of the steps of a script ascend. -/
theorem pairwise_steps (script : Script) :
    (script.steps.map Instruction.address).Pairwise (· < ·) := by
  obtain ⟨_, hCovers⟩ := Disassembly.exists_covers_of_yields (Disassembly.yields_ofCode script.code)
    (Nat.zero_le _)
  exact hCovers.chained.pairwise_address.sublist (List.filter_sublist.map _)

/-- The entries are among the addresses of the steps, in the order of the code. -/
theorem sublist_entries {ids : List Nat}
    (h : List.Forall₂ (setting.IsFunctionSteps entry) ids parts) :
    (ids.map entry).Sublist (parts.flatten.map Instruction.address) := by
  induction h with
  | nil => exact .slnil
  | cons hPart _ ih =>
      obtain ⟨_, entering, inside, leaving, _, rfl, hAddress, _, _⟩ := hPart
      rw [List.map_cons, List.flatten_cons, List.map_append, List.map_cons,
        List.cons_append, hAddress]
      exact .cons_cons _ (List.sublist_append_of_sublist_right ih)

/-- No two functions are entered at one address. -/
theorem distinct_of_parts (hSteps : script.steps = front ++ parts.flatten)
    (hParts : List.Forall₂ (setting.IsFunctionSteps entry) (codeOrder setting.program main) parts)
    {first second : Nat} (hFirst : first < setting.program.functions.size)
    (hSecond : second < setting.program.functions.size) (hSame : entry first = entry second) :
    first = second := by
  have hAscending := pairwise_steps script
  rw [hSteps, List.map_append] at hAscending
  have hEntries := (List.pairwise_append.mp hAscending).2.1.sublist (sublist_entries hParts)
  have hDistinct : ((codeOrder setting.program main).map entry).Nodup := hEntries.imp Nat.ne_of_lt
  exact List.inj_on_of_nodup_map hDistinct (mem_codeOrder hFirst) (mem_codeOrder hSecond) hSame

end Order

/-- The code of every function stands among the statements of a unit, and its
block is entered at its entry. -/
theorem exists_entersAt (assembled : Assembled setting.natives options unit.statements script)
    (hFrames : setting.slots.frames.toList =
      setting.program.functions.toList.map (Slots.frameOf setting.program setting.sizes))
    (hPlain : ∀ function ∈ setting.program.functions, '.' ∉ function.name.toList)
    {blocks : List (List Instruction)}
    (hBlocks : List.Forall₂ assembled.IsBlock unit.statements blocks)
    {id : Nat} {function : Function} (hFunction : setting.program.functions[id]? = some function) :
    ∃ i, setting.EntersAt unit.statements blocks (assembled.entryOf setting.program)
      id function i := by
  obtain ⟨front, hStatements, _⟩ := exists_front unit
  obtain ⟨pieces, hCode, hPieces⟩ := unit.generated.exists_framedPieces
  obtain ⟨before, piece, behind, rfl, hSame, hFrame, hMade⟩ :=
    exists_paired hPieces (mem_codeOrder (Array.getElem?_eq_some_iff.mp hFunction).1)
  obtain rfl : piece.function = function := Option.some.inj (hSame.symm.trans hFunction)
  have hOwnFrame := Slots.eq_frameOf hFrames hSame hFrame
  have hSplit : unit.statements = (front ++ (before.map FunctionPiece.code).flatten) ++
      (piece.code ++ (behind.map FunctionPiece.code).flatten) := by
    rw [hStatements, hCode]
    simp
  have hSplitBlocks : List.Forall₂ assembled.IsBlock _ blocks :=
    cast (congrArg (List.Forall₂ assembled.IsBlock · blocks) hSplit) hBlocks
  obtain ⟨first, rest, rfl, hFirst, hRest⟩ := exists_append hSplitBlocks
  obtain ⟨own, others, rfl, hOwn, _⟩ := exists_append hRest
  rw [FunctionPiece.code] at hOwn
  obtain _ | ⟨hEnter, _⟩ := hOwn
  obtain ⟨entering, rfl, _, hAddress⟩ :=
    enters_of_isBlock hEnter (hPlain piece.function (Array.mem_of_getElem? hSame))
  refine ⟨(front ++ (before.map FunctionPiece.code).flatten).length, piece.inner,
    (behind.map FunctionPiece.code).flatten, entering, ?_, ?_, ?_, ?_⟩
  · rw [← hOwnFrame, hSplit, List.drop_left]
    rfl
  · rw [← hOwnFrame]
    exact hMade
  · rw [hFirst.length_eq, List.getElem?_append_right (Nat.le_refl _), Nat.sub_self]
    rfl
  · rw [Assembled.entryOf, Program.functionName?, hSame, Option.map_some, Option.bind_some]
    exact (congrArg (Option.getD · 0) hAddress).symm

/-- The functions of a unit that was assembled are linked. -/
theorem linksFunctions_of_assembled
    (assembled : Assembled setting.natives options unit.statements script)
    (hLists : setting.slots.ListsData setting.program)
    (hFrames : setting.slots.frames.toList =
      setting.program.functions.toList.map (Slots.frameOf setting.program setting.sizes))
    (hPlain : ∀ function ∈ setting.program.functions, '.' ∉ function.name.toList) :
    LinksFunctions setting unit.statements script unit.entry
      (assembled.entryOf setting.program) := by
  obtain ⟨blocks, hBlocks, hStatements⟩ := assembled.exists_blocks
  obtain ⟨front, parts, hSteps, hParts⟩ := exists_parts assembled hFrames hPlain
  obtain ⟨statics, hStatics, hFirst⟩ := linksWords_region assembled hLists hPlain .statics rfl
  obtain ⟨arguments, hArguments, hSecond⟩ :=
    linksWords_region assembled hLists hPlain .arguments rfl
  obtain ⟨globals, hGlobals, hWords⟩ := linksWords_region assembled hLists hPlain .globals rfl
  have hTable : script.statics.toList =
      (assembled.image.regionWords .statics).toList ++
        (assembled.image.regionWords .arguments).toList := by
    rw [congrArg Script.statics assembled.linked]
    exact Array.toList_append
  have hPages : script.globalsPages.flatten = (assembled.image.regionWords .globals).toList :=
    (congrArg (·.globalsPages.flatten) assembled.linked).trans (Page.flatten_split _)
  exact {
    decodes := assembled.fault_eq_none
    main_entry := entryOf_main assembled hPlain
    entered := fun _ _ hFunction => enters_of_parts hSteps hParts hFunction
    guarded := fun _ _ hFunction hOther => guarded_of_parts hSteps hParts hFunction hOther
    left := left_of_parts hSteps hParts
    distinct := fun _ _ hFirst hSecond hSame => distinct_of_parts hSteps hParts hFirst hSecond hSame
    code := ⟨blocks, hBlocks, hStatements.imp fun _ _ hBlock => links_of_isBlock hPlain hBlock,
      fun _ _ hFunction => exists_entersAt assembled hFrames hPlain hStatements hFunction⟩
    statics := ⟨statics, arguments, hStatics, hArguments, hTable ▸ List.rel_append hFirst hSecond⟩
    globals := ⟨globals, hGlobals, hPages ▸ hWords⟩ }

end Units

/-- Functions are linked. In a script of a program whose functions have names
without points, the entry point begins at address zero, every function is
entered with its own frame, whatever refers to a function denotes its entry, and
control leaves every function before the next one begins. -/
theorem linksFunctions_of_compileToScript {natives : NativeSource} {options : Options}
    {program : Program} {script : Script} (h : compileToScript natives options program = .ok script)
    (hPlain : ∀ function ∈ program.functions, '.' ∉ function.name.toList) :
    ∃ setting statements main entry, Setting.ofProgram natives program = .ok setting ∧
      compileToAssembly natives program = .ok statements ∧
      program.functionNamed? entryName = some main ∧
      LinksFunctions setting statements script main entry := by
  obtain ⟨slots, hSlots, unit, hCompiled, ⟨assembled⟩⟩ := exists_assembled_of_compileToScript h
  obtain ⟨hLists, hFrames⟩ := Slots.listsData_ofProgram hSlots
  exact ⟨_, unit.statements, unit.entry, _, bind_eq_ok.mpr ⟨slots, hSlots, rfl⟩,
    hCompiled, unit.named, linksFunctions_of_assembled assembled hLists hFrames hPlain⟩

/-- The program with two functions is linked: they have different entries, and
the static that begins as the address of the first one holds its entry. -/
theorem linksFunctions_of_compileToScript_savedGame :
    (∀ function ∈ savedGame.functions, '.' ∉ function.name.toList) ∧
      ∃ script setting statements entry,
        compileToScript NativeDatabase.empty .default savedGame = .ok script ∧
        Setting.ofProgram NativeDatabase.empty savedGame = .ok setting ∧
        LinksFunctions setting statements script 1 entry ∧ entry 0 ≠ entry 1 ∧
        script.statics[1]? = some (Word.ofInt (entry 0)) ∧
        (Disassembly.ofCode script.code).instructions.filterMap Instruction.callTarget? = [29] := by
  have hPlain : ∀ function ∈ savedGame.functions, '.' ∉ function.name.toList := by decide
  obtain ⟨script, h, _, _, hCalls⟩ := compileToScript_savedGame
  obtain ⟨setting, statements, main, entry, hSetting, _, hMain, hLinks⟩ :=
    linksFunctions_of_compileToScript h hPlain
  have hNamed : savedGame.functionNamed? entryName = some 1 := by decide +kernel
  obtain rfl : main = 1 := Option.some.inj (hMain.symm.trans hNamed)
  have hProgram : setting.program = savedGame := by
    obtain ⟨slots, _, hOwn⟩ := bind_eq_ok.mp hSetting
    cases hOwn
    rfl
  have hApart : entry 0 ≠ entry 1 := fun hSame =>
    absurd (hLinks.distinct 0 1 (hProgram ▸ by decide) (hProgram ▸ by decide) hSame) (by decide)
  -- the second word of the statics is the first one of the pointer
  obtain ⟨words, hWords, hPointer⟩ : ∃ words,
      (do (← Setting.ofProgram NativeDatabase.empty savedGame).initialData .statics) = .ok words ∧
        words[1]? = some (.address "AWARD") := exists_of_any (by decide +kernel)
  obtain ⟨statics, arguments, hStatics, _, hLinked⟩ := hLinks.statics
  rw [hSetting] at hWords
  obtain rfl : statics = words := Except.ok.inj (hStatics.symm.trans hWords)
  obtain ⟨hInside, hOwn⟩ := List.getElem?_eq_some_iff.mp hPointer
  have hFirst : 1 < (statics ++ arguments).length := by
    rw [List.length_append]
    exact Nat.lt_add_right _ hInside
  have hStored : 1 < script.statics.toList.length := hLinked.length_eq ▸ hFirst
  have hWord : (statics ++ arguments)[1] = .address "AWARD" :=
    (List.getElem_append_left hInside).trans hOwn
  have hEntry : script.statics.toList[1] = Word.ofInt (entry 0) :=
    hLinked.get hFirst hStored 0 "AWARD" hWord (hProgram ▸ rfl)
  refine ⟨hPlain, script, setting, statements, entry, h, hSetting, hLinks, hApart, ?_, hCalls⟩
  rw [← Array.getElem?_toList, List.getElem?_eq_getElem hStored, hEntry]

end ScriptBackend
