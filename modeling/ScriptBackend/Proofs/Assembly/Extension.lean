import Mathlib.Tactic.FinCases
import ScriptBackend.Proofs.Assembly.Blocks
import ScriptBackend.Proofs.Assembly.DeclaredData
import ScriptBackend.Proofs.Assembly.Lookups
import ScriptBackend.Proofs.Assembly.NativeIndices
import ScriptBackend.Proofs.Assembly.Reassembly

/-!
Code that is put behind a unit. It changes nothing of what is there: the data
pass does not see it, the layout goes on where it ended, and the labels that are
new have names of which the code before them knew nothing. Only a label behind
the last instruction would move, since it stands for whatever comes next.
-/
namespace ScriptBackend

/-- A script with the same data as another one, whose code, strings and natives
begin with those of the other. -/
structure Script.Extends (longer script : Script) : Prop where
  code : script.code <+: longer.code
  strings : script.strings <+: longer.strings
  natives : script.nativeHashes <+: longer.nativeHashes
  statics : longer.statics = script.statics
  argumentCount : longer.argumentCount = script.argumentCount
  globalsBlock : longer.globalsBlock = script.globalsBlock
  globalsPages : longer.globalsPages = script.globalsPages
  globalsLength : longer.globalsLength = script.globalsLength
  name : longer.name = script.name
  nameHash : longer.nameHash = script.nameHash
  hash : longer.hash = script.hash

namespace Assembly

open Outcome

/-! More labels -/

/-- Labels that have the same addresses in another table, which may have more
labels. -/
def LabelTable.Within (labels more : LabelTable) : Prop :=
  ∀ label address, labels.find? label = some address → more.find? label = some address

section

variable {labels more : LabelTable}

/-- Words that wait for addresses get the same ones. -/
theorem resolveReferences_more (h : labels.Within more) (references : List CodeReference)
    (image : DataImage) :
    Transfers (resolveReferences labels references image)
      (resolveReferences more references image) := by
  induction references generalizing image with
  | nil => exact .of_eq rfl
  | cons reference rest ih =>
      intro filled hFilled
      rw [resolveReferences] at hFilled ⊢
      split at hFilled
      · cases hFilled
      · next address hFound =>
          rw [h _ _ hFound]
          exact ih _ filled hFilled

end

namespace Environment

variable {environment : Environment} {more : LabelTable} {line : Line}

/-- The same names and natives with another table of labels. -/
def relabel (environment : Environment) (more : LabelTable) : Environment :=
  { environment with labels := more }

theorem codeLabel_more (h : environment.labels.Within more) (name : String) :
    Transfers (environment.codeLabel line name)
      ((environment.relabel more).codeLabel line name) := by
  intro address hAddress
  unfold codeLabel at hAddress
  split at hAddress
  · next found hFound =>
      cases hAddress
      exact codeLabel_label (h _ _ hFound)
  · cases hAddress

/-- An operand that has a value keeps it when there are more labels. -/
theorem integer_more (h : environment.labels.Within more) (operand : Operand) (codeLabels : Bool) :
    Transfers (environment.integer line operand codeLabels)
      ((environment.relabel more).integer line operand codeLabels) := by
  refine .bind (.of_eq rfl) fun value => ?_
  cases value with
  | some value => exact .of_eq rfl
  | none =>
      cases operand with
      | name name =>
          cases codeLabels with
          | true => exact (codeLabel_more h name).bind fun _ => .of_eq rfl
          | false => exact .of_eq rfl
      | _ => exact .of_eq rfl

theorem ranged_more (h : environment.labels.Within more) (operand : Operand)
    (least : Int) (greatest : Nat) (codeLabels : Bool) (what : Quantity) :
    Transfers (environment.ranged line operand least greatest codeLabels what)
      ((environment.relabel more).ranged line operand least greatest codeLabels what) :=
  (integer_more h operand codeLabels).bind fun _ => .of_eq rfl

theorem cases_more (h : environment.labels.Within more) (opcode : Opcode) (entry : Nat)
    (operands : List Operand) :
    Transfers (environment.cases line opcode entry operands)
      ((environment.relabel more).cases line opcode entry operands) := by
  induction operands generalizing entry with
  | nil => exact .of_eq rfl
  | cons operand rest ih =>
      cases operand with
      | case value label =>
          rw [Environment.cases, Environment.cases]
          split
          · exact .of_eq rfl
          · exact (codeLabel_more h label).bind fun _ => .bind (.of_eq rfl) fun _ =>
              (ih _).bind fun _ => .of_eq rfl
      | _ => exact .of_eq rfl

/-- Operands that can be encoded are encoded alike when there are more labels. -/
theorem operandBytes_more (h : environment.labels.Within more)
    (primitive : Primitive) (address : Nat) (natives : NativeTable) :
    Transfers (environment.operandBytes line primitive address natives)
      ((environment.relabel more).operandBytes line primitive address natives) := by
  obtain ⟨opcode, operands⟩ := primitive
  have hLike : environment.Like (environment.relabel more) := ⟨.refl _, rfl⟩
  by_cases hNone : isRelocated opcode.format = false ∧ holdsAddress opcode.format = false
  · exact .of_eq (hLike.operandBytes hNone.1 fun _ _ _ hHolds => by cases hNone.2.symm.trans hHolds)
  · unfold Environment.operandBytes
    dsimp only
    cases hKind : opcode.format with
    | word | call | unsigned24 =>
        cases operands with
        | nil => exact .of_eq rfl
        | cons operand rest =>
            exact ((ranged_more h operand _ _ _ _).bind fun _ => .of_eq rfl).map _
    | relative =>
        cases operands with
        | nil => exact .of_eq rfl
        | cons operand rest =>
            cases operand with
            | name name => exact ((codeLabel_more h name).bind fun _ => .of_eq rfl).map _
            | _ => exact .of_eq rfl
    | switch => exact ((cases_more h opcode _ operands).bind fun _ => .of_eq rfl).map _
    | enter =>
        rcases operands with _ | ⟨parameters, _ | ⟨frame, rest⟩⟩
        · exact .of_eq rfl
        · exact .of_eq rfl
        · exact ((ranged_more h parameters _ _ _ _).bind
              fun _ => (ranged_more h frame _ _ _ _).bind fun _ =>
            .of_eq rfl).map _
    | _ => exact absurd (by rw [hKind]; exact ⟨rfl, rfl⟩) hNone

end Environment

/-- A primitive that is emitted is emitted alike when there are more labels. -/
theorem Located.emit_more {environment : Environment} {more : LabelTable}
    (h : environment.labels.Within more) (image : CodeImage) (located : Located) :
    Transfers (located.emit environment image) (located.emit (environment.relabel more) image) :=
  ((Environment.operandBytes_more h located.primitive located.address image.natives).map _).map _

/-! More lines -/

/-- Every label of the code has an instruction on its own line or behind it. -/
def LabelsLead (lines : List Line) : Prop :=
  ∀ (i : Nat) (line : Line), lines[i]? = some line → line.segment = .code →
    line.label.isSome = true → ∃ later ∈ lines.drop i, later.instruction?.isSome = true

namespace LayoutState

variable {symbols : Symbols} {options : Options} {strings stored : StringPages}
  {state noted next final : LayoutState} {line : Line} {lines more : List Line}

/-- Laying out lines is laying out some of them, and then the others. -/
theorem addAll_append (lines more : List Line) (state : LayoutState) (strings : StringPages) :
    addAll symbols options (lines ++ more) state strings =
      match addAll symbols options lines state strings with
      | (.error fault, stored) => (.error fault, stored)
      | (.ok middle, stored) => addAll symbols options more middle stored := by
  induction lines generalizing state strings with
  | nil => rfl
  | cons line rest ih =>
      rw [List.cons_append, addAll_line, addAll_line]
      cases state.note symbols line with
      | error fault => rfl
      | ok noted =>
          cases hPlace : noted.place symbols (line.store strings) options line with
          | error fault => simp only [hPlace]
          | ok next => simp only [hPlace, ih]

/-- An instruction gives all waiting labels their address. -/
theorem place_pending (h : state.place symbols strings options line = .ok next) :
    next.pending = if line.instruction?.isSome then Table.empty else state.pending := by
  obtain ⟨row, hPrimitives, _, _, _, hChange⟩ := place_ok h
  have hEmpty := Line.primitives_eq_nil_iff hPrimitives
  cases row with
  | nil =>
      have hNone : line.instruction? = none := hEmpty.mp rfl
      rw [hNone, hChange.2]
      rfl
  | cons located rest =>
      have hSome : line.instruction?.isSome = true := by
        rw [Option.isSome_iff_ne_none]
        exact fun hNone => by cases hEmpty.mpr hNone
      rw [hSome, hChange.2]
      rfl

/-- No label waits behind the last instruction, when all of them have an
instruction behind them. -/
theorem addAll_pending (hLead : LabelsLead lines)
    (hState : state.pending = Table.empty ∨ ∃ line ∈ lines, line.instruction?.isSome = true)
    (h : addAll symbols options lines state strings = (.ok final, stored)) :
    final.pending = Table.empty := by
  induction lines generalizing state strings with
  | nil =>
      cases h
      simpa using hState
  | cons line rest ih =>
      obtain ⟨noted, next, hNote, hPlace, hRest⟩ := addAll_cons_ok h
      refine ih (fun i => hLead (i + 1)) ?_ hRest
      rw [place_pending hPlace]
      cases hInstruction : line.instruction?.isSome with
      | true => exact .inl rfl
      | false =>
          -- what waits now has an instruction among the lines behind
          have hLater : (∃ later ∈ line :: rest, later.instruction?.isSome = true) →
              ∃ later ∈ rest, later.instruction?.isSome = true := by
            rintro ⟨later, hMem, hSome⟩
            rcases List.mem_cons.mp hMem with rfl | hMem
            · rw [hInstruction] at hSome
              cases hSome
            · exact ⟨later, hMem, hSome⟩
          by_cases hLabelled : line.segment = .code ∧ line.label.isSome = true
          · exact .inr (hLater (hLead 0 line rfl hLabelled.1 hLabelled.2))
          · have hSame : state.note symbols line = .ok state := note_unlabelled fun hCode =>
              Option.not_isSome_iff_eq_none.mp fun hSome => hLabelled ⟨hCode, hSome⟩
            cases hNote.symm.trans hSame
            exact hState.imp_right hLater

end LayoutState

/-- A layout goes on behind another one where that one ends. -/
theorem Arranged.append {symbols : Symbols} {strings : StringPages} {options : Options}
    {start middle finish : Nat} {lines more : List Line} {rows others : List (List Located)}
    (h : Arranged symbols strings options start lines rows middle)
    (hMore : Arranged symbols strings options middle more others finish) :
    Arranged symbols strings options start (lines ++ more) (rows ++ others) finish := by
  induction h with
  | nil => exact hMore
  | cons primitives own places _ ih => exact .cons primitives own places (ih hMore)

/-- Code behind the last instruction leaves the rows before it and the labels in
them where they are. -/
theorem layoutCode_append {symbols : Symbols} {options : Options} {lines more : List Line}
    {strings stored pages : StringPages} {layout longer : Layout} (hLead : LabelsLead lines)
    (h : layoutCode symbols options lines strings = (.ok layout, stored))
    (hLonger : layoutCode symbols options (lines ++ more) strings = (.ok longer, pages)) :
    layout.labels.Within longer.labels ∧ stored.Keeps pages ∧ ∃ rows others,
      Arranged symbols stored options 0 lines rows layout.codeLength ∧
      layout.addresses.toList = rows.map (fun row => row.head?.map Located.address) ∧
      Arranged symbols pages options layout.codeLength more others longer.codeLength ∧
      longer.addresses.toList = (rows ++ others).map fun row => row.head?.map Located.address := by
  unfold layoutCode at h hLonger
  rw [LayoutState.addAll_append] at hLonger
  cases hRun : LayoutState.addAll symbols options lines .start strings with
  | mk outcome between =>
      cases outcome with
      | error fault => simp [hRun] at h
      | ok middle =>
          simp only [hRun, Prod.mk.injEq, Except.ok.injEq] at h hLonger
          obtain ⟨rfl, rfl⟩ := h
          cases hRest : LayoutState.addAll symbols options more middle between with
          | mk last after =>
              cases last with
              | error fault => simp [hRest] at hLonger
              | ok final =>
                  simp only [hRest, Prod.mk.injEq, Except.ok.injEq] at hLonger
                  obtain ⟨rfl, rfl⟩ := hLonger
                  obtain ⟨_, hSound, rows, hRows, hAddresses, _⟩ :=
                    LayoutState.addAll_ok LayoutState.sound_start hRun
                  obtain ⟨hKeeps, _, others, hOthers, hPlaces, hBinds⟩ :=
                    LayoutState.addAll_ok hSound hRest
                  have hPending : middle.pending = Table.empty :=
                    LayoutState.addAll_pending hLead (.inl rfl) hRun
                  refine ⟨fun label address hFound => ?_, hKeeps, rows, others, hRows,
                    hAddresses, hOthers, ?_⟩
                  · rw [LayoutState.find?_bind, hPending] at hFound
                    exact hBinds.kept label address (by simpa using hFound)
                  · have hEarlier : middle.addresses.toList = rows.map fun row =>
                        row.head?.map Located.address :=
                      hAddresses
                    rw [List.map_append, ← hEarlier]
                    exact hPlaces

/-! More code -/

/-- Code that is put behind a unit is not seen in its data. -/
theorem collectData_append {lines more : List Line}
    (hMore : ∀ line ∈ more, line.segment = .code ∧
      ∀ directive, line.statement.content = .directive directive →
      ∃ segment, directive = .segment segment) : collectData (lines ++ more) =
        collectData lines := by
  have hSilent : ∀ collection : Collection, collection.addAll more = .ok collection := by
    induction more with
    | nil => exact fun _ => rfl
    | cons line rest ih =>
        intro collection
        rw [List.forall_mem_cons] at hMore
        rw [Collection.addAll_cons (Collection.add_silent hMore.1.1 hMore.1.2)]
        exact ih hMore.2 collection
  have hAll : ∀ collection : Collection, collection.addAll (lines ++ more) =
      collection.addAll lines := by
    intro collection
    induction lines generalizing collection with
    | nil => exact hSilent collection
    | cons line rest ih =>
        rw [List.cons_append, Collection.addAll, Collection.addAll]
        cases collection.add line with
        | error fault => rfl
        | ok next => exact ih next
  rw [collectData, hAll, collectData]

/-- Behind the directive that begins the code, instructions and labels stand in
the code. -/
theorem code_of_mem_linesIn {separator : Statement} {code : List Statement}
    (hLabel : separator.label = none)
    (hContent : separator.content = .directive (.segment .code))
    (hCode : ∀ statement ∈ code, ¬statement.IsDirective)
    {segment : Segment} {scope : Option String} {line : Line}
    (hLine : line ∈ linesIn segment scope (separator :: code)) :
    line.segment = .code ∧ ∀ directive, line.statement.content = .directive directive →
      ∃ segment, directive = .segment segment := by
  have hAdd : Scoping.add ⟨segment, scope, #[]⟩ separator =
      ⟨.code, scope, #[⟨separator, .code, none, scope⟩]⟩ := by
    simp [Scoping.add, Scoping.segmentOf, hLabel, hContent]
  rw [linesIn, hAdd] at hLine
  rcases List.mem_append.mp hLine with hFirst | hLater
  · obtain rfl := List.mem_singleton.mp hFirst
    refine ⟨rfl, fun directive hSays => ⟨.code, ?_⟩⟩
    cases hContent.symm.trans hSays
    rfl
  · have hPlain : ∀ statement ∈ code, ∀ directive, statement.content ≠ .directive directive :=
      fun statement hMem directive hSays => hCode statement hMem ⟨directive, hSays⟩
    refine ⟨segment_linesIn hPlain _ line hLater, fun directive hSays => ?_⟩
    exact absurd hSays (hPlain _ (line_of_mem hLater).1 directive)

section Units

variable {source : NativeSource} {options : Options} {statements longer : List Statement}
  {script extended : Script}

/-- Lines of code behind those of a unit extend its script. -/
theorem Assembled.extends (unit : Assembled source options statements script)
    (other : Assembled source options longer extended) {more : List Line}
    (hLines : scopeLines longer = scopeLines statements ++ more)
    (hLead : LabelsLead (scopeLines statements))
    (hMore : ∀ line ∈ more, line.segment = .code ∧
      ∀ directive, line.statement.content = .directive directive →
      ∃ segment, directive = .segment segment) : extended.Extends script := by
  have hData : other.data = unit.data := by
    have hCollected := other.collected
    rw [hLines, collectData_append hMore, unit.collected] at hCollected
    exact (Except.ok.inj hCollected).symm
  have hLaidOut := other.laidOut
  rw [hLines, hData] at hLaidOut
  obtain ⟨hWithin, hKeeps, rows, others, hRows, hAddresses, hOthers, hPlaces⟩ :=
    layoutCode_append hLead unit.laidOut hLaidOut
  have hImage : other.image = unit.image := by
    have hResolved := other.resolved
    rw [hData, resolveReferences_more hWithin _ _ _ unit.resolved] at hResolved
    exact (Except.ok.inj hResolved).symm
  -- the rows of the unit come first in both runs of the emission
  have hEnvironment : other.environment = unit.environment.relabel other.layout.labels := by
    rw [environment, hData]
    rfl
  have hFirst : rows.flatten.foldlM (Located.emit other.environment) ⟨#[], unit.data.natives⟩ =
      .ok unit.code := by
    have hEmit : emitCode unit.environment unit.strings unit.layout (scopeLines statements)
        unit.data.natives = _ :=
      emitCode_eq_foldlM hRows hAddresses
    rw [hEnvironment]
    exact Transfers.foldlM (fun image located => Located.emit_more hWithin image located) _ _ _
      (hEmit.symm.trans unit.emitted)
  have hLast : others.flatten.foldlM (Located.emit other.environment) unit.code =
      .ok other.code := by
    have hEmitted : emitCode other.environment other.strings other.layout (scopeLines longer)
        unit.data.natives = .ok other.code := hData ▸ other.emitted
    have hWhole : Arranged other.environment.symbols other.strings other.environment.options 0
        (scopeLines longer) (rows ++ others) other.layout.codeLength := by
      rw [hLines, hEnvironment]
      exact (hRows.mono hKeeps).append hOthers
    rw [emitCode_eq_foldlM hWhole hPlaces, List.flatten_append,
      List.foldlM_append, hFirst] at hEmitted
    exact hEmitted
  have hBehind : Contiguous other.environment.options unit.code.code.size others.flatten
      other.layout.codeLength := by
    rw [unit.size_code]
    exact hOthers.contiguous
  obtain ⟨_, instructions, hEncodes, hCode⟩ := emit_ok hBehind hLast
  have hStrings : other.strings = unit.strings.internAll (more.filterMap Line.pushedText?) := by
    rw [layoutCode_stores hLaidOut, layoutCode_stores unit.laidOut, List.filterMap_append,
      StringPages.internAll_append]
  have hLinked : extended = link options unit.image other.strings other.code :=
    hImage ▸ other.linked
  exact {
    code := by
      rw [unit.code_toList, other.code_toList, hCode]
      exact List.prefix_append ..
    strings := by
      rw [unit.strings_eq, other.strings_eq, hStrings]
      exact StringPages.prefix_internAll ..
    natives := by
      rw [Script.nativeHashes_eq unit.natives_eq, Script.nativeHashes_eq other.natives_eq]
      exact hEncodes.natives_prefix hBehind
    statics := (congrArg Script.statics hLinked).trans (congrArg Script.statics unit.linked).symm
    argumentCount :=
      (congrArg Script.argumentCount hLinked).trans (congrArg Script.argumentCount unit.linked).symm
    globalsBlock :=
      (congrArg Script.globalsBlock hLinked).trans (congrArg Script.globalsBlock unit.linked).symm
    globalsPages :=
      (congrArg Script.globalsPages hLinked).trans (congrArg Script.globalsPages unit.linked).symm
    globalsLength :=
      (congrArg Script.globalsLength hLinked).trans (congrArg Script.globalsLength unit.linked).symm
    name := (congrArg Script.name hLinked).trans (congrArg Script.name unit.linked).symm
    nameHash := (congrArg Script.nameHash hLinked).trans (congrArg Script.nameHash unit.linked).symm
    hash := (congrArg Script.hash hLinked).trans (congrArg Script.hash unit.linked).symm }

/-- More code only extends a script. Where every label of the code has an
instruction behind it, instructions and labels that are put behind a unit change
no byte of its code, no string and no native, and neither its data nor its
identity, whatever names they define. -/
theorem appended_code_extends {separator : Statement} {code : List Statement}
    {script extended : Script} (h : assemble source options statements = .ok script)
    (hExtended : assemble source options (statements ++ separator :: code) = .ok extended)
    (hLead : LabelsLead (scopeLines statements)) (hLabel : separator.label = none)
    (hContent : separator.content = .directive (.segment .code))
    (hCode : ∀ statement ∈ code, ¬statement.IsDirective) : extended.Extends script := by
  obtain ⟨unit⟩ := assemble_ok h
  obtain ⟨other⟩ := assemble_ok hExtended
  obtain ⟨segment, scope, hLines⟩ :=
    @exists_linesIn_append .code none statements (separator :: code)
  rw [← scopeLines_eq, ← scopeLines_eq] at hLines
  exact unit.extends other hLines hLead fun line hLine =>
    code_of_mem_linesIn hLabel hContent hCode hLine

end Units

/-- A second function, which pushes a string and calls natives of its own. -/
def laterCode : List Statement := [
  { Statement.ofInstruction "ENTER" [.int 0, .int 3] with label := some "later" },
  .ofInstruction "PUSH_STRING" [.text "bye"],
  .ofInstruction "NATIVE" [.int 1, .int 0, .int 0x5678],
  .ofInstruction "NATIVE" [.int 0, .int 1, .int 0x1234],
  { Statement.ofInstruction "CALL" [.name "main"] with label := some ".again" },
  .ofInstruction "JZ" [.name ".again"],
  .ofInstruction "LEAVE" [.int 0, .int 0]]

/-- The unit that calls natives, with the second function behind it. -/
def longerUnit : List Statement :=
  callUnit ++ .ofDirective (.segment .code) :: laterCode

theorem assemble_longer :
    ∃ extended, assemble NativeDatabase.empty .default longerUnit = .ok extended ∧
    extended.strings.length = 10 ∧ extended.natives.length = 4 :=
  exists_of_any (by decide +kernel)

theorem appended_code_extends_longer :
    LabelsLead (scopeLines callUnit) ∧ (∀ statement ∈ laterCode, ¬statement.IsDirective) ∧
      ∃ script extended, assemble NativeDatabase.empty .default callUnit = .ok script ∧
        assemble NativeDatabase.empty .default longerUnit = .ok extended ∧
        extended.strings.length = 10 ∧ extended.natives.length = 4 ∧ extended.Extends script := by
  have hLead : LabelsLead (scopeLines callUnit) := by
    -- the last line holds an instruction, and stands behind every label
    obtain ⟨last, hLast, hInstruction⟩ : ∃ last, (scopeLines callUnit)[15]? = some last ∧
        last.instruction?.isSome = true := ⟨_, rfl, rfl⟩
    intro i line hLine _ _
    have hBound : i ≤ 15 := Nat.le_of_lt_succ (List.getElem?_eq_some_iff.mp hLine).1
    refine ⟨last, List.mem_of_getElem? (i := 15 - i) ?_, hInstruction⟩
    rw [List.getElem?_drop, Nat.add_sub_cancel' hBound]
    exact hLast
  have hCode : ∀ statement ∈ laterCode, ¬statement.IsDirective := by
    intro statement hMem
    rintro ⟨directive, hContent⟩
    fin_cases hMem <;> cases hContent
  obtain ⟨script, hScript, _⟩ := assemble_call
  obtain ⟨extended, hExtended, hStrings, hNatives⟩ := assemble_longer
  exact ⟨hLead, hCode, script, extended, hScript, hExtended, hStrings, hNatives,
    appended_code_extends hScript hExtended hLead rfl rfl hCode⟩

end Assembly
end ScriptBackend
