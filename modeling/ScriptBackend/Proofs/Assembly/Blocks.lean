import ScriptBackend.Proofs.Assembly.Artifact
import ScriptBackend.Proofs.Assembly.Mnemonics
import ScriptBackend.Proofs.Assembly.Scopes

/-!
The instructions of statements. Apart from those that do nothing, the
instructions of a script fall into blocks, one for every statement of its unit:
the block of a statement holds its primitives in order, and its label stands for
the first of them.
-/
namespace ScriptBackend

open Assembly Outcome

/-- The instructions of a script that do something. Pages are padded with those
that do nothing. -/
def Script.steps (script : Script) : List Instruction :=
  (Disassembly.ofCode script.code).instructions.filter fun instruction => instruction.opcode ≠ .nop

namespace Assembly

/-- A statement is a directive. -/
def Statement.IsDirective (statement : Statement) : Prop :=
  ∃ directive, statement.content = .directive directive

def busy (row : List Located) : List Located :=
  row.filter fun located => located.primitive.opcode ≠ .nop

/-- Instructions that do something are found row by row or in all rows at once. -/
theorem flatten_map_busy (rows : List (List Located)) :
    (rows.map busy).flatten = busy rows.flatten :=
  (List.filter_flatten ..).symm

/-- What a relation pairs with two lists, one behind the other, falls into what
it pairs with each. -/
theorem exists_append {α β : Type} {relation : α → β → Prop} {first rest : List α} {whole : List β}
    (h : List.Forall₂ relation (first ++ rest) whole) :
    ∃ own others, whole = own ++ others ∧ List.Forall₂ relation first own ∧
      List.Forall₂ relation rest others := by
  have hFirst := List.forall₂_take first.length h
  have hRest := List.forall₂_drop first.length h
  rw [List.take_left] at hFirst
  rw [List.drop_left] at hRest
  exact ⟨_, _, (List.take_append_drop first.length whole).symm, hFirst, hRest⟩

/-- What a relation pairs with joined lists is joined from what it pairs with
each of them. -/
theorem exists_flatten {α β : Type} {relation : α → β → Prop}
    {parts : List (List α)} {whole : List β} (h : List.Forall₂ relation parts.flatten whole) :
    ∃ others, whole = others.flatten ∧ List.Forall₂ (List.Forall₂ relation) parts others := by
  induction parts generalizing whole with
  | nil =>
      cases h
      exact ⟨[], rfl, .nil⟩
  | cons first rest ih =>
      obtain ⟨own, others, rfl, hFirst, hRest⟩ := exists_append h
      obtain ⟨parts, rfl, hParts⟩ := ih hRest
      exact ⟨own :: parts, rfl, .cons hFirst hParts⟩

section Lines

variable {segment : Segment} {scope : Option String}

/-- The line of a statement stands in front of those of the statements behind it. -/
theorem exists_line (segment : Segment) (scope : Option String) (first : Statement)
    (rest : List Statement) :
    ∃ line others, linesIn segment scope (first :: rest) = line :: others ∧ line.statement = first ∧
      ∃ inner, line.label = first.label.map (qualify inner) :=
  ⟨_, _, rfl, rfl, scope, rfl⟩

/-- Every statement has its line. -/
theorem forall₂_linesIn (segment : Segment) (scope : Option String) (statements : List Statement) :
    List.Forall₂ (fun statement line => line.statement = statement ∧
      ∃ inner, line.label = statement.label.map (qualify inner)) statements
      (linesIn segment scope statements) := by
  induction statements generalizing segment scope with
  | nil => exact .nil
  | cons first rest ih => exact .cons ⟨rfl, scope, rfl⟩ (ih _ _)

/-- The lines of statements stand in front of those of the statements behind
them. -/
theorem exists_linesIn_append (first rest : List Statement) :
    ∃ next inner, linesIn segment scope (first ++ rest) =
      linesIn segment scope first ++ linesIn next inner rest := by
  induction first generalizing segment scope with
  | nil => exact ⟨segment, scope, rfl⟩
  | cons statement others ih =>
      let added := Scoping.add ⟨segment, scope, #[]⟩ statement
      obtain ⟨next, inner, hOthers⟩ := @ih added.segment added.scope
      refine ⟨next, inner, ?_⟩
      rw [List.cons_append, linesIn, linesIn, hOthers, List.append_assoc]

end Lines

section Steps

variable {environment : Environment} {position : Nat} {row : List Located}
  {instructions : List Instruction}

/-- Without padding, every primitive that does something has its instruction. -/
theorem Renders.carries_busy (h : Renders environment position row instructions) :
    List.Forall₂ (Carries environment) (busy row)
      (instructions.filter fun instruction => instruction.opcode ≠ .nop) := by
  have hCons : ∀ {located : Located} {rest : List Located} {instruction : Instruction}
      {others : List Instruction}, Carries environment located instruction →
      List.Forall₂ (Carries environment) (busy rest)
        (others.filter fun instruction => instruction.opcode ≠ .nop) →
      List.Forall₂ (Carries environment) (busy (located :: rest))
        ((instruction :: others).filter fun instruction => instruction.opcode ≠ .nop) := by
    intro located rest instruction others hCarries hRest
    unfold busy at hRest ⊢
    rw [List.filter_cons, List.filter_cons, hCarries.opcode]
    split
    · exact .cons hCarries hRest
    · exact hRest
  induction h with
  | nil => exact .nil
  | next fits address carries others ih => exact hCons carries ih
  | @moved position located rest instruction instructions crosses address carries others ih =>
      have hPadding : (Instruction.nops position (located.address - position)).filter
          (fun instruction => instruction.opcode ≠ .nop) = [] := by
        rw [List.filter_eq_nil_iff]
        intro padding hPadding
        simp [(Instruction.of_mem_nops hPadding).1]
      rw [List.filter_append, hPadding, List.nil_append]
      exact hCons carries ih

end Steps

/-- Lines are only collected when their instructions stand in the code. -/
theorem Collection.segment_of_instruction {first final : Collection} {lines : List Line}
    (h : first.addAll lines = .ok final) {line : Line} (hLine : line ∈ lines) {mnemonic : String}
    {operands : List Operand} (hContent : line.statement.content = .instruction mnemonic operands) :
    line.segment = .code := by
  induction lines generalizing first with
  | nil => cases hLine
  | cons other rest ih =>
      rw [Collection.addAll] at h
      split at h
      · cases h
      · next middle hMiddle =>
          rcases List.mem_cons.mp hLine with rfl | hLater
          · obtain ⟨_, _, hMiddle⟩ := bind_eq_ok.mp hMiddle
            obtain ⟨_, _, hMiddle⟩ := bind_eq_ok.mp hMiddle
            rw [Collection.addContent, hContent] at hMiddle
            dsimp only at hMiddle
            split at hMiddle
            · assumption
            · cases hMiddle
          · exact ih h hLater

/-- What fills the code from its beginning has its first primitive there. -/
theorem Contiguous.firstAddress_zero {options : Options} {row : List Located} {finish : Nat}
    (h : Contiguous options 0 row finish) : firstAddress row finish = 0 := by
  cases row with
  | nil => exact h.symm
  | cons located rest =>
      obtain ⟨hSize, hAddress, _⟩ := h
      have hFits : 0 % Page.size + located.size ≤ Page.size := by
        rw [Nat.zero_mod, Nat.zero_add]
        exact Primitive.size_le hSize
      exact hAddress.trans (Page.place_of_fits hFits)

namespace Expansion

variable {expansion : Expansion}

/-- No push is padding, so that pushes are told apart from the gaps between
pages. -/
theorem ne_nop_of_pushInt {value : Int} {primitive : Primitive}
    (h : expansion.pushInt value = .ok primitive) :
    primitive.opcode ≠ .nop := by
  unfold pushInt at h
  split at h
  · next opcode hCompact =>
      cases h
      unfold Opcode.compactInt? at hCompact
      split at hCompact
      all_goals
        cases hCompact
        try exact nofun
  · repeat' split at h
    all_goals first
      | cases h; exact nofun
      | simp [fault] at h

theorem ne_nop_pushFloat (value : Binary32) : (pushFloat value).opcode ≠ .nop := by
  unfold pushFloat
  split
  · next opcode hCompact =>
      have hAll : ∀ entry ∈ Opcode.compactFloats, entry.2 ≠ .nop := by decide
      obtain ⟨entry, hEntry, rfl⟩ := Option.map_eq_some_iff.mp hCompact
      exact hAll entry (List.mem_of_find?_eq_some hEntry)
  · exact nofun

/-- A push does something. -/
theorem ne_nop_of_pushOperand {operand : Operand} {primitive : Primitive}
    (h : expansion.pushOperand operand = .ok primitive) : primitive.opcode ≠ .nop := by
  cases operand with
  | int value => exact ne_nop_of_pushInt h
  | float value =>
      cases h
      exact ne_nop_pushFloat value
  | sizeOf name =>
      obtain ⟨_, _, h⟩ := bind_eq_ok.mp h
      exact ne_nop_of_pushInt h
  | name label =>
      unfold pushOperand at h
      dsimp only at h
      split at h
      · exact ne_nop_of_pushInt h
      · cases h
        exact ne_nop_pushFloat _
      · cases h
        exact nofun
  | text _ | case _ _ => cases h

/-- Each operand has its push. -/
theorem pushOperands_ok {operands : List Operand} {primitives : List Primitive}
    (h : expansion.pushOperands operands = .ok primitives) :
    List.Forall₂ (fun operand primitive => expansion.pushOperand operand = .ok primitive)
      operands primitives := by
  induction operands generalizing primitives with
  | nil =>
      cases h
      exact .nil
  | cons operand rest ih =>
      obtain ⟨first, hFirst, h⟩ := bind_eq_ok.mp h
      obtain ⟨others, hOthers, h⟩ := bind_eq_ok.mp h
      cases h
      exact .cons hFirst (ih hOthers)

end Expansion

namespace Assembled

variable {source : NativeSource} {options : Options} {statements : List Statement} {script : Script}
  (unit : Assembled source options statements script)

/-- The row of a line in an assembled unit: its primitives, for the first of
which its label stands. -/
structure IsRow (line : Line) (row : List Located) : Prop where
  primitives : line.primitives unit.data.symbols unit.strings = .ok (row.map Located.primitive)
  own : ∀ located ∈ row, located.line = line
  bound : ∀ label first, line.segment = .code → line.label = some label → row.head? = some first →
    unit.layout.labels.find? label = some first.address

/-- The block of a statement: instructions that carry the primitives of its line. -/
def IsBlock (statement : Statement) (block : List Instruction) : Prop :=
  ∃ line row, line ∈ scopeLines statements ∧ line.statement = statement ∧
    (∃ scope, line.label = statement.label.map (qualify scope)) ∧ unit.IsRow line row ∧
    List.Forall₂ (Carries unit.environment) (busy row) block

variable {unit}

/-- The code of an assembled unit decodes to its end. -/
theorem fault_eq_none (unit : Assembled source options statements script) :
    (Disassembly.ofCode script.code).fault = none := by
  obtain ⟨rows, hRows, hAddresses, _, _⟩ := layoutCode_ok unit.laidOut
  obtain ⟨_, hDecoded, _⟩ := unit.ofCode_eq hRows hAddresses
  rw [hDecoded]

/-- The steps of a script are the blocks of the statements of its unit, one
behind the other. -/
theorem exists_blocks (unit : Assembled source options statements script) :
    ∃ blocks : List (List Instruction), script.steps = blocks.flatten ∧
      List.Forall₂ unit.IsBlock statements blocks := by
  obtain ⟨rows, hRows, hAddresses, hLabels, _⟩ := layoutCode_ok unit.laidOut
  obtain ⟨instructions, hDecoded, hRenders⟩ := unit.ofCode_eq hRows hAddresses
  have hSteps : List.Forall₂ (Carries unit.environment) (rows.map busy).flatten script.steps := by
    rw [flatten_map_busy, Script.steps, hDecoded]
    exact hRenders.carries_busy
  obtain ⟨blocks, hBlocks, hCarried⟩ := exists_flatten hSteps
  rw [List.forall₂_map_left_iff, List.forall₂_iff_get] at hCarried
  have hLines := forall₂_linesIn .code none statements
  rw [← scopeLines_eq, List.forall₂_iff_get] at hLines
  have hLength : statements.length = rows.length := hLines.1.trans hRows.length_eq.symm
  refine ⟨blocks, hBlocks, List.forall₂_iff_get.mpr ⟨hLength.trans hCarried.1,
    fun i hi hBlock => ?_⟩⟩
  have hRow : i < rows.length := hLength ▸ hi
  have hLine : i < (scopeLines statements).length := hLines.1 ▸ hi
  obtain ⟨hStatement, hLabel⟩ := hLines.2 i hi hLine
  obtain ⟨hPrimitives, hOwn⟩ :=
    hRows.row_of_line (List.getElem?_eq_getElem hLine) (List.getElem?_eq_getElem hRow)
  refine ⟨(scopeLines statements)[i], rows[i], List.getElem_mem hLine, hStatement, hLabel,
    ⟨hPrimitives, hOwn, fun label first hCode hOwnLabel hFirst => ?_⟩, hCarried.2 i hRow hBlock⟩
  obtain ⟨rest, hRest⟩ := List.head?_eq_some_iff.mp hFirst
  rw [hLabels i _ label (List.getElem?_eq_getElem hLine) hCode hOwnLabel,
    List.drop_eq_getElem_cons hRow, hRest]
  rfl

/-- Instructions stand in the code. -/
theorem segment_of_instruction (unit : Assembled source options statements script) {line : Line}
    (hLine : line ∈ scopeLines statements) {mnemonic : String} {operands : List Operand}
    (hContent : line.statement.content = .instruction mnemonic operands) :
    line.segment = .code := by
  obtain ⟨_, hCollected, _⟩ := bind_eq_ok.mp unit.collected
  exact Collection.segment_of_instruction hCollected hLine hContent

/-- A label of the code in front of all instructions stands for address zero. -/
theorem find?_of_silent (unit : Assembled source options statements script)
    {before rest : List Line}
    {line : Line} {label : String} (hLines : scopeLines statements = before ++ line :: rest)
    (hBefore : ∀ other ∈ before, other.instruction? = none) (hCode : line.segment = .code)
    (hLabel : line.label = some label) : unit.layout.labels.find? label = some 0 := by
  obtain ⟨rows, hRows, _, hLabels, _⟩ := layoutCode_ok unit.laidOut
  have hLine : (scopeLines statements)[before.length]? = some line := by simp [hLines]
  have hEmpty : (rows.take before.length).flatten = [] := by
    refine List.flatten_eq_nil_iff.mpr fun row hRow => ?_
    obtain ⟨i, hi, rfl⟩ := List.getElem_of_mem hRow
    rw [List.length_take] at hi
    have hOther : (scopeLines statements)[i]? = some before[i] := by
      rw [hLines, List.getElem?_append_left (by omega), List.getElem?_eq_getElem (by omega)]
    obtain ⟨row, hFound, hCases⟩ := hRows.row_cases hOther
    rw [hBefore _ (List.getElem_mem _)] at hCases
    rw [List.getElem_take, ← hCases]
    exact Option.some.inj ((List.getElem?_eq_getElem (by omega)).symm.trans hFound)
  have hAll : (rows.drop before.length).flatten = rows.flatten := by
    conv_rhs =>
      rw [← List.take_append_drop before.length rows, List.flatten_append, hEmpty, List.nil_append]
  rw [hLabels _ line label hLine hCode hLabel, hAll, hRows.contiguous.firstAddress_zero]

/-- The name of the first instruction stands for address zero, unless the name
is local. -/
theorem find?_first (unit : Assembled source options statements script)
    {before rest : List Statement}
    {statement : Statement} (hStatements : statements = before ++ statement :: rest)
    (hBefore : ∀ other ∈ before, other.IsDirective) {mnemonic name : String}
    {operands : List Operand} (hContent : statement.content = .instruction mnemonic operands)
    (hLabel : statement.label = some name) (hName : isLocal name = false) :
    unit.layout.labels.find? name = some 0 := by
  obtain ⟨segment, scope, hLines⟩ : ∃ segment scope, scopeLines statements =
      linesIn .code none before ++ linesIn segment scope (statement :: rest) := by
    rw [scopeLines_eq, hStatements]
    exact exists_linesIn_append before (statement :: rest)
  obtain ⟨line, others, hSplit, rfl, inner, hOwn⟩ := exists_line segment scope statement rest
  rw [hSplit] at hLines
  rw [hLabel, Option.map_some, qualify, hName] at hOwn
  have hLine : line ∈ scopeLines statements := by simp [hLines]
  refine unit.find?_of_silent hLines (fun other hOther => ?_)
    (unit.segment_of_instruction hLine hContent) hOwn
  obtain ⟨i, hi, rfl⟩ := List.getElem_of_mem hOther
  have hAll := forall₂_linesIn .code none before
  have hBound : i < before.length := hAll.length_eq ▸ hi
  obtain ⟨directive, hDirective⟩ := hBefore before[i] (List.getElem_mem hBound)
  have hSame : (linesIn .code none before)[i].statement = before[i] := (hAll.get hBound hi).1
  simp [Line.instruction?, hSame, hDirective]

section Blocks

variable {statement : Statement} {block : List Instruction} {operands : List Operand}

/-- The block of a primitive instruction is that instruction, and a name that is
not local its address. -/
theorem IsBlock.of_opcode (h : unit.IsBlock statement block) (opcode : Opcode)
    (hContent : statement.content = .instruction opcode.mnemonic operands) (hBusy : opcode ≠ .nop) :
    ∃ located instruction, block = [instruction] ∧ located.primitive = ⟨opcode, operands⟩ ∧
      Carries unit.environment located instruction ∧
      ∀ name, statement.label = some name → isLocal name = false →
        unit.layout.labels.find? name = some instruction.address := by
  obtain ⟨line, row, hLine, rfl, ⟨scope, hScope⟩, hRow, hCarried⟩ := h
  have hCode := unit.segment_of_instruction hLine hContent
  have hPrimitives := hRow.primitives
  have hInstruction : line.instruction? = some (opcode.mnemonic, operands) := by
    simp [Line.instruction?, hContent, hCode]
  rw [Line.primitives, hInstruction] at hPrimitives
  simp only [expand_opcode, Except.ok.injEq] at hPrimitives
  obtain ⟨located, rest, rfl, hPrimitive, hRest⟩ := List.map_eq_cons_iff.mp hPrimitives.symm
  obtain rfl := List.map_eq_nil_iff.mp hRest
  have hSame : busy [located] = [located] := by
    simp [busy, hPrimitive, hBusy]
  rw [hSame] at hCarried
  obtain _ | ⟨hFirst, hNone⟩ := hCarried
  cases hNone
  refine ⟨located, _, rfl, hPrimitive, hFirst, fun name hLabel hName => ?_⟩
  rw [hLabel, Option.map_some, qualify, hName] at hScope
  rw [hRow.bound name located hCode hScope rfl, hFirst.address]

/-- The block of a push has an instruction for each of its operands. -/
theorem IsBlock.of_pushes (h : unit.IsBlock statement block)
    (hContent : statement.content = .instruction "PUSH_CONST" operands) :
    List.Forall₂ (fun operand instruction =>
      ∃ located, Carries unit.environment located instruction ∧
      Expansion.pushOperand ⟨located.line, "PUSH_CONST", unit.data.symbols, unit.strings⟩ operand =
        .ok located.primitive) operands block := by
  obtain ⟨line, row, hLine, rfl, _, hRow, hCarried⟩ := h
  have hCode := unit.segment_of_instruction hLine hContent
  have hPrimitives := hRow.primitives
  have hInstruction : line.instruction? = some ("PUSH_CONST", operands) := by
    simp [Line.instruction?, hContent, hCode]
  have hNamed : ⟨"PUSH_CONST", .pushConstants⟩ ∈ Shorthand.all := by simp [Shorthand.all]
  rw [Line.primitives, hInstruction] at hPrimitives
  replace hPrimitives := (expand_shorthand hNamed operands).symm.trans hPrimitives
  simp only [Expansion.apply] at hPrimitives
  split at hPrimitives
  · cases hPrimitives
  · have hPushes := Expansion.pushOperands_ok hPrimitives
    rw [List.forall₂_map_right_iff] at hPushes
    have hBusy : busy row = row := by
      refine List.filter_eq_self.mpr fun located hLocated => ?_
      obtain ⟨i, hi, rfl⟩ := List.getElem_of_mem hLocated
      exact decide_eq_true (Expansion.ne_nop_of_pushOperand
        (hPushes.get (hPushes.length_eq ▸ hi) hi))
    rw [hBusy] at hCarried
    refine List.forall₂_iff_get.mpr ⟨hPushes.length_eq.trans hCarried.length_eq,
      fun i hi hBlock => ?_⟩
    have hBound : i < row.length := hPushes.length_eq ▸ hi
    have hOwn : row[i].line = line := hRow.own _ (List.getElem_mem hBound)
    exact ⟨row[i], hCarried.get hBound hBlock, hOwn ▸ hPushes.get hi hBound⟩

end Blocks

end Assembled
end Assembly
end ScriptBackend
