import ScriptBackend.Proofs.Assembly.Artifact
import ScriptBackend.Proofs.Assembly.Repetitions
import ScriptBackend.Proofs.Assembly.Scopes

/-!
Local labels. All labels of the code share one table, in which a local label has
the name of its scope in front. As long as no label that opens a scope has a
point in its name, a full name says which scope and which local label it belongs
to: what jumps to a local label reaches the one of its own scope, and labels of
different scopes are never taken for one.
-/
namespace ScriptBackend.Assembly

/-! Full names -/

/-- A name that can be told from the local names behind it. -/
structure IsScopeName (name : String) : Prop where
  nonempty : name ≠ ""
  plain : '.' ∉ name.toList

/-- No label but the local ones has a point in its name. -/
def ScopesClear (statements : List Statement) : Prop :=
  ∀ statement ∈ statements, ∀ name, statement.label = some name →
    isLocal name = false → IsScopeName name

section Names

variable {scope other : Option String} {name second : String}

theorem exists_of_isLocal (h : isLocal name = true) : ∃ rest, name.toList = '.' :: rest := by
  rw [isLocal, beq_iff_eq] at h
  exact List.head?_eq_some_iff.mp h

/-- A local name is put behind the name of its scope without anything in between. -/
theorem qualify_of_isLocal (h : isLocal name = true) (scope : Option String) :
    qualify scope name = scope.getD "" ++ name := by
  rw [qualify, h]
  rfl

theorem plain_getD (h : ∀ found, scope = some found → IsScopeName found) :
    '.' ∉ (scope.getD "").toList := by
  cases scope with
  | none => simp
  | some found => exact (h found rfl).plain

/-- What stands in front of the first point, and what stands behind it, can be
told. -/
theorem append_point_inj {first front rest back : List Char} (hFirst : '.' ∉ first)
    (hFront : '.' ∉ front)
    (h : first ++ '.' :: rest = front ++ '.' :: back) : first = front ∧ rest = back := by
  induction first generalizing front with
  | nil =>
      cases front with
      | nil => exact ⟨rfl, (List.cons.inj h).2⟩
      | cons c others => exact absurd (List.mem_cons.mpr (.inl (List.cons.inj h).1)) hFront
  | cons c chars ih =>
      cases front with
      | nil => exact absurd (List.mem_cons.mpr (.inl (List.cons.inj h).1.symm)) hFirst
      | cons d others =>
          obtain ⟨rfl, hRest⟩ := List.cons.inj h
          obtain ⟨rfl, hBack⟩ :=
            ih (List.not_mem_of_not_mem_cons hFirst) (List.not_mem_of_not_mem_cons hFront) hRest
          exact ⟨rfl, hBack⟩

/-- Scopes of different names are different. -/
theorem eq_of_getD_eq (hScope : ∀ found, scope = some found → IsScopeName found)
    (hOther : ∀ found, other = some found → IsScopeName found) (h : scope.getD "" = other.getD "") :
    scope = other := by
  cases scope with
  | none =>
      cases other with
      | none => rfl
      | some found => exact absurd h.symm (hOther found rfl).nonempty
  | some first =>
      cases other with
      | none => exact absurd h (hScope first rfl).nonempty
      | some found => exact congrArg some h

/-- A full name says the name on its own, and the scope if the name is local. -/
theorem eq_of_qualify_eq (hScope : ∀ found, scope = some found → IsScopeName found)
    (hOther : ∀ found, other = some found → IsScopeName found)
    (hName : isLocal name = false → IsScopeName name)
    (hSecond : isLocal second = false → IsScopeName second)
    (h : qualify scope name = qualify other second) :
    name = second ∧ (isLocal name = true → scope = other) := by
  -- A full name has a point exactly if the name on its own is local.
  have hPoint : ∀ {scope : Option String} {name : String}, isLocal name = true →
      '.' ∈ (qualify scope name).toList := by
    intro scope name hLocal
    obtain ⟨rest, hRest⟩ := exists_of_isLocal hLocal
    rw [qualify_of_isLocal hLocal, String.toList_append, hRest]
    simp
  cases hFirst : isLocal name with
  | false =>
      cases hLast : isLocal second with
      | false =>
          rw [qualify_of_not_isLocal hFirst, qualify_of_not_isLocal hLast] at h
          exact ⟨h, nofun⟩
      | true =>
          have hMem := @hPoint other second hLast
          rw [← h, qualify_of_not_isLocal hFirst] at hMem
          exact absurd hMem (hName hFirst).plain
  | true =>
      cases hLast : isLocal second with
      | false =>
          have hMem := @hPoint scope name hFirst
          rw [h, qualify_of_not_isLocal hLast] at hMem
          exact absurd hMem (hSecond hLast).plain
      | true =>
          obtain ⟨rest, hRest⟩ := exists_of_isLocal hFirst
          obtain ⟨tail, hTail⟩ := exists_of_isLocal hLast
          have hChars := congrArg String.toList h
          rw [qualify_of_isLocal hFirst, qualify_of_isLocal hLast, String.toList_append,
            String.toList_append, hRest, hTail] at hChars
          obtain ⟨hFront, hBack⟩ := append_point_inj (plain_getD hScope) (plain_getD hOther) hChars
          refine ⟨String.toList_inj.mp (by rw [hRest, hTail, hBack]), fun _ => ?_⟩
          exact eq_of_getD_eq hScope hOther (String.toList_inj.mp hFront)

/-- A name with a point in it can be that of a local label in full. -/
example : qualify (some "A") ".x" = qualify none "A.x" := by cbv

end Names

/-! Lines -/

section Lines

variable {segment : Segment} {scope : Option String} {statements : List Statement} {line : Line}

/-- Every scope is the one around the statements, or was opened by a label among
them. -/
theorem scope_of_mem (h : line ∈ linesIn segment scope statements) {found : String}
    (hScope : line.scope = some found) :
    scope = some found ∨ ∃ statement ∈ statements, statement.label = some found ∧
    isLocal found = false := by
  induction statements generalizing segment scope with
  | nil => cases h
  | cons first rest ih =>
      have hNext : ∀ {found}, (Scoping.add ⟨segment, scope, #[]⟩ first).scope = some found →
          scope = some found ∨
            ∃ statement ∈ first :: rest, statement.label = some found ∧ isLocal found = false := by
        intro found hFound
        unfold Scoping.add at hFound
        dsimp only at hFound
        split at hFound
        · next name hLabel =>
            split at hFound
            · next hOpens =>
                cases hFound
                rw [Bool.and_eq_true, Bool.not_eq_true'] at hOpens
                exact .inr ⟨first, List.mem_cons_self .., hLabel, hOpens.1⟩
            · exact .inl hFound
        · exact .inl hFound
      rw [linesIn, List.mem_append] at h
      rcases h with hFirst | hLater
      · simp only [Scoping.add, Array.toList_push, List.nil_append, List.mem_singleton] at hFirst
        subst hFirst
        exact hNext hScope
      · rcases ih hLater with hBefore | ⟨statement, hMem, hLabel⟩
        · exact hNext hBefore
        · exact .inr ⟨statement, List.mem_cons_of_mem _ hMem, hLabel⟩

/-- Every scope of a unit can be told from the local names behind it. -/
theorem ScopesClear.of_scope (h : ScopesClear statements) (hLine : line ∈ scopeLines statements) :
    ∀ found, line.scope = some found → IsScopeName found := by
  intro found hScope
  rw [scopeLines_eq] at hLine
  rcases scope_of_mem hLine hScope with hNone | ⟨statement, hMem, hLabel, hOpens⟩
  · cases hNone
  · exact h statement hMem found hLabel hOpens

/-- The label of a line comes from its statement. -/
theorem exists_statementLabel (h : line ∈ scopeLines statements) {label : String}
    (hLabel : line.label = some label) :
    ∃ name, line.statement.label = some name ∧ line.qualify name = label := by
  rw [scopeLines_eq] at h
  rw [(line_of_mem h).2] at hLabel
  exact Option.map_eq_some_iff.mp hLabel

/-- What a line calls by a local name is only defined by that name in the same
scope. -/
theorem ScopesClear.of_label {other : Line} (h : ScopesClear statements)
    (hLine : line ∈ scopeLines statements)
    (hOther : other ∈ scopeLines statements) {name : String} (hLocal : isLocal name = true)
    (hLabel : other.label = some (line.qualify name)) :
    other.statement.label = some name ∧ other.scope = line.scope := by
  obtain ⟨second, hSecond, hSame⟩ := exists_statementLabel hOther hLabel
  obtain ⟨rfl, hScope⟩ := eq_of_qualify_eq (h.of_scope hLine) (h.of_scope hOther)
    (fun hNot => absurd hLocal (by simp [hNot]))
      (h _ (statement_mem hOther) second hSecond) hSame.symm
  exact ⟨hSecond, (hScope hLocal).symm⟩

end Lines

/-! Tables of labels -/

namespace LayoutState

variable {symbols : Symbols} {options : Options} {strings stored : StringPages}
  {state final : LayoutState} {label : String}

/-- The labels that are seen at the end are those of the code. -/
theorem seen_of_addAll {lines : List Line}
    (h : addAll symbols options lines state strings = (.ok final, stored))
    (hSeen : final.Seen label) : state.Seen label ∨ label ∈ codeLabels lines := by
  induction lines generalizing state strings with
  | nil =>
      cases h
      exact .inl hSeen
  | cons line rest ih =>
      obtain ⟨noted, next, hNote, hPlace, hRest⟩ := addAll_cons_ok h
      rw [codeLabels, List.filterMap_cons]
      rcases ih hRest with hNext | hLater
      · rcases seen_of_note hNote (seen_of_place hPlace hNext) with hOld | hOwn
        · exact .inl hOld
        · rw [hOwn]
          exact .inr (List.mem_cons_self ..)
      · right
        split
        · exact hLater
        · exact List.mem_cons_of_mem _ hLater

end LayoutState

/-- Every label with an address is that of a line of the code. -/
theorem exists_line_of_find? {symbols : Symbols} {options : Options} {lines : List Line}
    {strings stored : StringPages} {layout : Layout}
    (h : layoutCode symbols options lines strings = (.ok layout, stored))
    {label : String} {address : Nat} (hFound : layout.labels.find? label = some address) :
    ∃ (i : Nat) (line : Line), lines[i]? = some line ∧ line.segment = .code ∧
      line.label = some label := by
  unfold layoutCode at h
  split at h
  · cases h
  · next state _ hState =>
      cases h
      have hBound : (state.bind state.codeEnd).Seen label := by
        left
        rw [Table.contains_eq_isSome_find?, hFound]
        rfl
      rcases LayoutState.seen_of_addAll hState (LayoutState.seen_of_bind hBound) with hStart | hMem
      · rcases hStart with hNone | hNone <;> simp [LayoutState.start] at hNone
      · obtain ⟨line, hLine, hOwn⟩ := List.mem_filterMap.mp hMem
        obtain ⟨i, hi⟩ := List.getElem?_of_mem hLine
        rw [Line.codeLabel?] at hOwn
        split at hOwn
        · next hCode => exact ⟨i, line, hi, hCode, hOwn⟩
        · cases hOwn

/-! Rejected labels -/

section Rejected

variable {lines : List Line} {line : Line} {label : String}

/-- A line that defines no constant of the name defines it at most as its label. -/
theorem count_definedNames (hConstant : line.constant? ≠ some label) :
    line.definedNames.count label = if line.label = some label then 1 else 0 := by
  have hOther : line.constant?.toList.count label = 0 := by
    rw [List.count_eq_zero, Option.mem_toList]
    exact hConstant
  rw [Line.definedNames, List.count_append, hOther, Nat.add_zero]
  cases hLabel : line.label with
  | none => simp
  | some own => simp [List.count_singleton]

/-- A name that is there twice, though not as a constant, is the label of two
lines. -/
theorem exists_lines_of_duplicate (h : List.Duplicate label (definedNames lines))
    (hConstant : ∀ line ∈ lines, line.constant? ≠ some label) :
    ∃ (i j : Nat) (first second : Line), i < j ∧ lines[i]? = some first ∧ lines[j]? = some second ∧
      first.label = some label ∧ second.label = some label := by
  induction lines with
  | nil => exact absurd h (List.not_duplicate_nil label)
  | cons line rest ih =>
      rw [List.forall_mem_cons] at hConstant
      rw [List.duplicate_iff_two_le_count, definedNames_cons, List.count_append,
        count_definedNames hConstant.1] at h
      by_cases hOwn : line.label = some label
      · rw [if_pos hOwn] at h
        have hLater : label ∈ definedNames rest := List.count_pos_iff.mp (by omega)
        obtain ⟨second, hMem, hName⟩ := List.mem_flatMap.mp hLater
        have hLabel : second.label = some label := by
          rw [Line.definedNames, List.mem_append, Option.mem_toList, Option.mem_toList] at hName
          exact hName.resolve_right (hConstant.2 second hMem)
        obtain ⟨j, hj⟩ := List.getElem?_of_mem hMem
        exact ⟨0, j + 1, line, second, by omega, rfl, hj, hOwn, hLabel⟩
      · rw [if_neg hOwn, Nat.zero_add, ← List.duplicate_iff_two_le_count] at h
        obtain ⟨i, j, first, second, hLess, hFirst, hSecond, hLabels⟩ := ih h hConstant.2
        exact ⟨i + 1, j + 1, first, second, by omega, hFirst, hSecond, hLabels⟩

/-- A label that is there already: it is the name of a constant, or two
statements have this very label, in the same scope if it is local. -/
def LabelsClash (statements : List Statement) (label : String) : Prop :=
  (∃ line ∈ scopeLines statements, line.constant? = some label) ∨
    ∃ (i j : Nat) (first second : Line) (name : String), i < j ∧
      (scopeLines statements)[i]? = some first ∧ (scopeLines statements)[j]? = some second ∧
        first.statement.label = some name ∧ second.statement.label = some name ∧
          first.qualify name = label ∧ (isLocal name = true → first.scope = second.scope)

/-- Labels are only rejected where they clash, in a unit whose scopes have names
without points. -/
theorem labelsClash_of_duplicateLabel {source : NativeSource} {options : Options}
    {statements : List Statement}
    {fault : Fault} (h : assemble source options statements = .error fault)
    (hCause : fault.cause = .duplicateLabel label) (hClear : ScopesClear statements) :
    LabelsClash statements label := by
  have hRepeats := assemble_onlyRepeats source options statements fault h
  rw [hCause, not_not] at hRepeats
  by_cases hConstant : ∃ line ∈ scopeLines statements, line.constant? = some label
  · exact .inl hConstant
  · right
    push Not at hConstant
    obtain ⟨i, j, first, second, hLess, hFirst, hSecond, hLabel, hOther⟩ :=
      exists_lines_of_duplicate hRepeats hConstant
    have hFirstMem := List.mem_of_getElem? hFirst
    have hSecondMem := List.mem_of_getElem? hSecond
    obtain ⟨name, hName, hFull⟩ := exists_statementLabel hFirstMem hLabel
    obtain ⟨other, hOtherName, hOtherFull⟩ := exists_statementLabel hSecondMem hOther
    have hClearFirst := hClear first.statement (statement_mem hFirstMem) name hName
    have hClearSecond := hClear second.statement (statement_mem hSecondMem) other hOtherName
    obtain ⟨rfl, hScope⟩ :=
      eq_of_qualify_eq (hClear.of_scope hFirstMem) (hClear.of_scope hSecondMem) hClearFirst
      hClearSecond (hFull.trans hOtherFull.symm)
    exact ⟨i, j, first, second, name, hLess, hFirst, hSecond, hName, hOtherName, hFull, hScope⟩

end Rejected

/-! Operands -/

/-- An operand of a primitive jumps to a name. -/
def Primitive.JumpsTo (primitive : Primitive) (name : String) : Prop :=
  primitive.opcode.format = .relative ∧ primitive.operands = [.name name] ∨
    primitive.opcode.format = .switch ∧ ∃ (k : Nat) (value : Int64), primitive.operands[k]? =
      some (.case value name)

section Units

variable {source : NativeSource} {options : Options} {statements : List Statement} {script : Script}
  {environment : Environment} {located : Located} {instruction : Instruction} {name : String}

/-- What is jumped to has an address. -/
theorem Carries.exists_target (h : Carries environment located instruction)
    (hJumps : located.primitive.JumpsTo name) :
    ∃ address, environment.labels.find? (located.line.qualify name) = some address := by
  have hFind : ∀ {address}, environment.codeLabel located.line name = .ok address →
      environment.labels.find? (located.line.qualify name) = some address := by
    intro address hAddress
    unfold Environment.codeLabel at hAddress
    split at hAddress
    · next hFound =>
        cases hAddress
        exact hFound
    · cases hAddress
  rcases hJumps with ⟨hFormat, hOperands⟩ | ⟨hFormat, k, value, hOperand⟩
  · obtain ⟨values, _, hRead, hDenotes⟩ := h.operands?_eq hFormat
    obtain ⟨distance, rfl, _⟩ := OperandValues.relative_of_read? hRead
    obtain ⟨label, target, hName, hTarget, _⟩ := hDenotes
    rw [hOperands] at hName
    cases hName
    exact ⟨target, hFind hTarget⟩
  · obtain ⟨values, _, hRead, hDenotes⟩ := h.operands?_eq hFormat
    obtain ⟨cases, rfl, _⟩ := OperandValues.switch_of_read? hRead
    obtain ⟨_, _, target, _, _, hTarget, _⟩ := CasesDenote.entry hDenotes hOperand
    exact ⟨target, hFind hTarget⟩

/-- Every operand that jumps to a local label denotes the address of a statement
with this very label in the same scope. -/
def Assembled.KeepsScopes (unit : Assembled source options statements script)
    (rows : List (List Located)) (instructions : List Instruction) : Prop :=
  ∀ located ∈ rows.flatten, ∀ name, isLocal name = true → located.primitive.JumpsTo name →
    ∃ (i : Nat) (line : Line), (scopeLines statements)[i]? = some line ∧ line.segment = .code ∧
      line.statement.label = some name ∧ line.scope = located.line.scope ∧
      ∃ instruction ∈ instructions, Carries unit.environment located instruction ∧
        Reaches (located.line.qualify name)
          (firstAddress (rows.drop i).flatten unit.layout.codeLength) located instruction

/-- Local labels stay in their scopes in an assembled unit whose scopes have
names without points. -/
theorem keepsScopes_of_assemble (h : assemble source options statements = .ok script)
    (hClear : ScopesClear statements) :
    ∃ (unit : Assembled source options statements script) (rows : List (List Located))
      (instructions : List Instruction),
      Arranged unit.data.symbols unit.strings options 0 (scopeLines statements) rows
        unit.layout.codeLength ∧
      Disassembly.ofCode script.code = ⟨instructions, none⟩ ∧
      Renders unit.environment 0 rows.flatten instructions ∧
      unit.KeepsScopes rows instructions := by
  obtain ⟨unit⟩ := assemble_ok h
  obtain ⟨rows, hRows, hAddresses, hLabels, hBound⟩ := layoutCode_ok unit.laidOut
  obtain ⟨instructions, hDecoded, hRenders⟩ := unit.ofCode_eq hRows hAddresses
  refine ⟨unit, rows, instructions, hRows, hDecoded, hRenders,
    fun located hMem name hLocal hJumps => ?_⟩
  obtain ⟨instruction, hInstruction, hCarries⟩ := hRenders.exists_instruction hMem
  obtain ⟨address, hFound⟩ := hCarries.exists_target hJumps
  obtain ⟨i, line, hLine, hCode, hLabel⟩ := exists_line_of_find? unit.laidOut hFound
  obtain ⟨hOwn, hScope⟩ :=
    hClear.of_label (hRows.expanded_of_mem hMem).1 (List.mem_of_getElem? hLine) hLocal hLabel
  have hAddress := hLabels i line _ hLine hCode hLabel
  obtain ⟨hLength, hSymbol⟩ := hBound _ _ hAddress
  exact ⟨i, line, hLine, hCode, hOwn, hScope, instruction, hInstruction, hCarries,
    hCarries.reaches hAddress hSymbol (Nat.le_trans hLength unit.reachable)⟩

/-- Local labels belong to their scopes, as long as the names of scopes have no
points: what jumps to one reaches the statement of this label in the same scope,
and labels are only rejected as repeated if they are the same in the same scope. -/
theorem localLabels_private (source : NativeSource) (options : Options)
    (hClear : ScopesClear statements) : (∀ script, assemble source options statements = .ok script →
      ∃ (unit : Assembled source options statements script) (rows : List (List Located))
        (instructions : List Instruction),
        Arranged unit.data.symbols unit.strings options 0 (scopeLines statements) rows
          unit.layout.codeLength ∧
        Disassembly.ofCode script.code = ⟨instructions, none⟩ ∧
        Renders unit.environment 0 rows.flatten instructions ∧ unit.KeepsScopes rows instructions) ∧
    ∀ fault label, assemble source options statements = .error fault →
      fault.cause = .duplicateLabel label → LabelsClash statements label :=
  ⟨fun _ hScript => keepsScopes_of_assemble hScript hClear,
    fun _ _ hFault hCause => labelsClash_of_duplicateLabel hFault hCause hClear⟩

end Units

/-! Two functions with local labels of one name -/

def loopingFunction (name : String) : List Statement :=
  [.ofLabel name, { Statement.ofInstruction "J" [.name ".again"] with label := some ".again" }]

def loopingUnit : List Statement :=
  loopingFunction "FIRST" ++ loopingFunction "SECOND"

theorem assemble_looping :
    ∃ script, assemble NativeDatabase.empty .default loopingUnit = .ok script :=
  Outcome.exists_of_isOk (by decide +kernel)

theorem localLabels_private_looping :
    ScopesClear loopingUnit ∧ ∃ (script : Script)
      (unit : Assembled NativeDatabase.empty .default loopingUnit script)
      (rows : List (List Located)) (instructions : List Instruction),
      Arranged unit.data.symbols unit.strings .default 0 (scopeLines loopingUnit) rows
        unit.layout.codeLength ∧
      Disassembly.ofCode script.code = ⟨instructions, none⟩ ∧
      Renders unit.environment 0 rows.flatten instructions ∧
      unit.KeepsScopes rows instructions := by
  have hClear : ScopesClear loopingUnit := by
    simp only [ScopesClear, loopingUnit, loopingFunction, isLocal, Statement.ofLabel,
      List.forall_mem_append, List.forall_mem_cons, Option.some.injEq, forall_eq']
    exact ⟨⟨fun _ => ⟨by decide, by decide⟩, nofun, by simp⟩,
      fun _ => ⟨by decide, by decide⟩, nofun, by simp⟩
  obtain ⟨script, hScript⟩ := assemble_looping
  exact ⟨hClear, script, (localLabels_private NativeDatabase.empty .default hClear).1 script
    hScript⟩

end ScriptBackend.Assembly
