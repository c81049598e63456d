import ScriptBackend.Proofs.Assembly.ArtifactBounds
import ScriptBackend.Proofs.Assembly.DeclaredData
import ScriptBackend.Proofs.Assembly.OperandWidths

/-!
The strings of an assembled unit. Those of the data are stored first and those
that the code pushes behind them. A text without a zero character is read back
from the script at the offset that it was given, and this is what its label
stands for, and what the code pushes.
-/
namespace ScriptBackend

/-- A literal on one page is read back, unless it has a zero character. -/
theorem Script.stringAt?_of_literal {script : Script} {bytes : List UInt8}
    {text : String} {offset : Nat}
    (hPages : script.stringPages = Page.split bytes)
    (hStored : StringPages.literal text <+: bytes.drop offset)
    (hFits : offset % Page.size + (StringPages.literal text).length ≤ Page.size)
    (hText : '\x00' ∉ text.toList) :
    script.stringAt? offset = some text := by
  obtain ⟨later, hLater⟩ := hStored
  have hPage : offset / Page.size * Page.size < bytes.length := by
    have hLength := congrArg List.length hLater
    rw [List.length_append, StringPages.length_literal, List.length_drop] at hLength
    have hFirst := Nat.div_mul_le_self offset Page.size
    omega
  -- what is left of the page begins with the literal
  have hRest : (((bytes.drop (offset / Page.size * Page.size)).take Page.size).drop
      (offset % Page.size)) =
      Text.utf8 text ++ 0 ::
        later.take (Page.size - offset % Page.size - (StringPages.literal text).length) := by
    rw [List.drop_take, List.drop_drop, Nat.div_add_mod', ← hLater, List.take_append,
      List.take_of_length_le (by omega), StringPages.literal, List.append_assoc]
    rfl
  have hLong : ¬((bytes.drop (offset / Page.size * Page.size)).take Page.size).length <
      offset % Page.size := by
    intro hShort
    rw [List.drop_eq_nil_of_le (Nat.le_of_lt hShort)] at hRest
    simp at hRest
  have hNoZero : ∀ byte ∈ Text.utf8 text, decide (byte ≠ 0) = true := fun byte hByte =>
    decide_eq_true fun hZero => Text.zero_notMem_utf8 hText (hZero ▸ hByte)
  have hBytes : script.stringBytes? offset = some (Text.utf8 text) := by
    rw [stringBytes?, hPages, Page.getElem?_split hPage]
    simp only [Option.bind_eq_bind, Option.bind_some, if_neg hLong, hRest]
    rw [if_pos (by simp), List.takeWhile_append_of_pos hNoZero]
    simp
  rw [stringAt?, hBytes, Option.map_some, Text.ofUtf8_utf8, String.ofList_toList]

namespace Assembly

open Outcome

/-- What a primitive performs is what the instruction in its place does. -/
theorem Encodes.exists_motion {environment : Environment} {natives later : NativeTable}
    {row : List Located}
    {instructions : List Instruction} {start finish : Nat}
    (h : Encodes environment natives row instructions later)
    (hRow : Contiguous environment.options start row finish) {located : Located}
    (hMem : located ∈ row)
    {motion : Motion} (hPerforms : environment.Performs located.line located.primitive motion) :
    ∃ instruction ∈ instructions, instruction.address = located.address ∧
      instruction.motion? = some motion := by
  induction h generalizing start with
  | nil => cases hMem
  | @cons natives middle later first rest bytes instructions hFirst hRest ih =>
      obtain ⟨hSize, _, hOthers⟩ := hRow
      rcases List.mem_cons.mp hMem with rfl | hLater
      · obtain ⟨_, _, hAll⟩ := hPerforms
        obtain ⟨encoded, instruction, hEncoded, _, hDecoded, hMotion⟩ :=
          hAll located.address natives []
        rw [Environment.encode, hFirst] at hEncoded
        cases hEncoded
        obtain ⟨values, hValues, _⟩ := (Environment.operandBytes_ok hSize hFirst).2
        let own : Instruction := ⟨located.address, located.primitive.opcode, bytes⟩
        have hOwn : own.operands? = some values := hValues
        have hSame : own = instruction :=
          Except.ok.inj ((Instruction.decodeFirst_bytes hOwn []).symm.trans hDecoded)
        exact ⟨own, List.mem_cons_self .., rfl, hSame ▸ hMotion⟩
      · obtain ⟨instruction, hInstruction, hFound⟩ := ih hOthers hLater
        exact ⟨instruction, List.mem_cons_of_mem _ hInstruction, hFound⟩

/-- The push of a text expands to the push of its offset, and the instruction
that makes a string of it. -/
theorem expand_pushedText {symbols : Symbols} {strings : StringPages} {line : Line}
    {mnemonic : String} {operands : List Operand} {text : String} {primitives : List Primitive}
    (hText : pushedText? mnemonic operands = some text)
    (h : expand symbols strings line mnemonic operands = .ok primitives) :
    ∃ (offset : Nat) (push : Primitive), strings.offset? text = some offset ∧
      primitives = [push, ⟨.string, []⟩] ∧ offset ≤ greatestUInt32 ∧
      ∀ environment : Environment, environment.Performs line push (.push [.ofInt offset]) := by
  unfold pushedText? at hText
  split at hText
  · split at hText
    · next shorthand hOpcode hShorthand =>
        split at hText
        · next hRule =>
            cases hText
            simp only [expand, hOpcode, hShorthand, hRule, Expansion.apply, Expansion.pushText] at h
            obtain ⟨operand, hOperand, h⟩ := bind_eq_ok.mp h
            cases hOperand
            dsimp only at h
            split at h
            · next offset hOffset =>
                obtain ⟨push, hPush, h⟩ := bind_eq_ok.mp h
                cases h
                have hHolds : Rule.pushConstants.Holds offset := by
                  by_contra hOutside
                  rw [pushInt_error hOutside] at hPush
                  cases hPush
                obtain ⟨same, hSame, hPerforms, _⟩ := pushInt_ok hHolds
                cases hPush.symm.trans hSame
                refine ⟨offset, push, hOffset, rfl, ?_,
                  fun environment => hPerforms environment line⟩
                exact Int.ofNat_le.mp hHolds.2
            · cases h
        · cases hText
    · cases hText
  · cases hText

section Units

variable {source : NativeSource} {options : Options} {statements : List Statement} {script : Script}

/-- The code of a row pushes an offset and makes a string of it. -/
def PushesString (instructions : List Instruction) (row : List Located) (offset : Nat) : Prop :=
  ∃ push made, row = [push, made] ∧
    (∃ first ∈ instructions, first.address = push.address ∧
      first.motion? = some (.push [.ofInt offset])) ∧
    ∃ second ∈ instructions, second.address = made.address ∧ second.opcode = .string

/-- A text that is stored is read back from the script. -/
theorem Assembled.stringAt?_of_offset?
    (unit : Assembled source options statements script) {text : String}
    {offset : Nat} (h : unit.strings.offset? text = some offset) (hText : '\x00' ∉ text.toList) :
    script.stringAt? offset = some text := by
  have hPages : script.stringPages = Page.split unit.strings.bytes.toList :=
    congrArg Script.stringPages unit.linked
  exact Script.stringAt?_of_literal hPages (unit.strings_tidy.stored text offset h)
    (unit.strings_tidy.fits text offset h) hText

/-- A line that pushes a text pushes the offset at which the text is stored. -/
theorem Assembled.exists_pushesString (unit : Assembled source options statements script)
    {rows : List (List Located)}
    (hRows : Arranged unit.data.symbols unit.strings options 0 (scopeLines statements) rows
      unit.layout.codeLength)
    (hAddresses : unit.layout.addresses.toList = rows.map fun row => row.head?.map Located.address)
    {i : Nat} {line : Line} {text : String} (hLine : (scopeLines statements)[i]? = some line)
    (hText : line.pushedText? = some text) :
    ∃ row offset, rows[i]? = some row ∧ unit.strings.offset? text = some offset ∧
      offset ≤ greatestUInt32 ∧
      PushesString (Disassembly.ofCode script.code).instructions row offset := by
  obtain ⟨⟨mnemonic, operands⟩, hInstruction, hPushed⟩ := Option.bind_eq_some_iff.mp hText
  obtain ⟨row, hRow, hCases⟩ := hRows.row_cases hLine
  simp only [hInstruction] at hCases
  obtain ⟨push, rest, rfl, hExpand⟩ := hCases
  obtain ⟨offset, primitive, hOffset, hPrimitives, hFits, hPerforms⟩ :=
    expand_pushedText hPushed hExpand
  obtain ⟨hFirst, hRest⟩ := List.cons_eq_cons.mp hPrimitives
  obtain ⟨made, rfl, hMade⟩ := List.map_eq_singleton_iff.mp hRest
  have hOwn : push.line = line := (hRows.row_of_line hLine hRow).2 push (List.mem_cons_self ..)
  have hPlaced : ∀ located ∈ [push, made], located ∈ rows.flatten := fun located hMem =>
    List.mem_flatten.mpr ⟨_, List.mem_of_getElem? hRow, hMem⟩
  obtain ⟨instructions, hEncodes, hDecoded⟩ := unit.encodes hRows hAddresses
  have hRenders := renders_padded hRows.contiguous (hEncodes.carries hRows.contiguous)
  rw [hDecoded]
  refine ⟨[push, made], offset, hRow, hOffset, hFits, push, made, rfl, ?_, ?_⟩
  · obtain ⟨first, hMem, hAddress, hMotion⟩ :=
      hEncodes.exists_motion hRows.contiguous (hPlaced push (by simp))
      (by rw [hOwn, hFirst]; exact hPerforms unit.environment)
    exact ⟨first, Instruction.mem_padded hMem, hAddress, hMotion⟩
  · obtain ⟨second, hMem, hCarries⟩ := hRenders.exists_instruction (hPlaced made (by simp))
    exact ⟨second, hMem, hCarries.address, by rw [hCarries.opcode, hMade]⟩

/-- The label of a text stands for the offset at which the text is stored. -/
theorem Assembled.exists_offset_of_text (unit : Assembled source options statements script)
    (hNames : (dataNames (scopeLines statements)).Nodup) {line : Line} {text : String}
    (hLine : line ∈ scopeLines statements) (hText : line.text? = some text) :
    ∃ offset, unit.strings.offset? text = some offset ∧ ∀ name, line.label = some name →
      unit.data.symbols.data[name]? = some ⟨.strings, offset, 0⟩ := by
  obtain ⟨collected, hCollected, _, hStrings, _⟩ := collectData_collected unit.collected
  obtain ⟨hTakes, hPlaced⟩ := Collection.addAll_takes hCollected
  obtain ⟨offset, hOffset⟩ :=
    (internAll_of_storeText? hTakes.strings).2 text (List.mem_filterMap.mpr ⟨line, hLine, hText⟩)
  rw [← hStrings] at hOffset
  refine ⟨offset, unit.strings_keeps text offset hOffset, fun name hLabel => ?_⟩
  have hContent : line.statement.content = .directive (.text text) := by
    unfold Line.text? at hText
    split at hText <;> cases hText
    assumption
  have hSegment : line.segment = .strings := by
    have hOwn := hPlaced line hLine
    rw [Line.isPlaced, hContent] at hOwn
    exact of_decide_eq_true hOwn
  have hOwn : ⟨.entry, name⟩ ∈ line.contentDefinitions := by
    simp [Line.contentDefinitions, hContent, Directive.definitions, hLabel]
  obtain ⟨value, hEntry, hSymbol⟩ := unit.symbol_of_entry hNames hLine hOwn
  rw [hSegment] at hSymbol
  cases hEntry with
  | native hash content included => cases hContent.symm.trans content
  | text same content stored =>
      cases hContent.symm.trans content
      rw [hSymbol, Option.some.inj (stored.symm.trans hOffset)]

end Units

/-- Any texts are stored soundly, and those of a unit are read back from its
script: one without a zero character at the offset that the code pushes for it,
and at the one that its label stands for. -/
theorem texts_read_back :
    (∀ texts, StringPages.Interns texts) ∧
      ∀ (source : NativeSource) (options : Options) (statements : List Statement) (script : Script),
        assemble source options statements = .ok script →
        (dataNames (scopeLines statements)).Nodup →
        ∃ (unit : Assembled source options statements script) (rows : List (List Located)),
          Arranged unit.data.symbols unit.strings options 0 (scopeLines statements) rows
            script.codeLength ∧
          unit.strings = StringPages.empty.internAll
            ((scopeLines statements).filterMap Line.text? ++
            (scopeLines statements).filterMap Line.pushedText?) ∧
          (∀ (i : Nat) line text, (scopeLines statements)[i]? = some line →
            line.pushedText? = some text →
            '\x00' ∉ text.toList → ∃ row offset, rows[i]? = some row ∧ offset ≤ greatestUInt32 ∧
              PushesString (Disassembly.ofCode script.code).instructions row offset ∧
              script.stringAt? offset = some text) ∧
          ∀ line ∈ scopeLines statements, ∀ text, line.text? = some text → '\x00' ∉ text.toList →
            ∃ offset, script.stringAt? offset = some text ∧ ∀ name, line.label = some name →
              unit.data.symbols.data[name]? = some ⟨.strings, offset, 0⟩ := by
  refine ⟨StringPages.interns, fun source options statements script h hNames => ?_⟩
  obtain ⟨unit⟩ := assemble_ok h
  obtain ⟨rows, hRows, hAddresses, _, _⟩ := layoutCode_ok unit.laidOut
  refine ⟨unit, rows, unit.codeLength_eq ▸ hRows, unit.strings_run,
    fun i line text hLine hPushed hText => ?_, fun line hLine text hSaid hText => ?_⟩
  · obtain ⟨row, offset, hRow, hOffset, hFits, hPushes⟩ :=
      unit.exists_pushesString hRows hAddresses hLine hPushed
    exact ⟨row, offset, hRow, hFits, hPushes, unit.stringAt?_of_offset? hOffset hText⟩
  · obtain ⟨offset, hOffset, hLabel⟩ := unit.exists_offset_of_text hNames hLine hSaid
    exact ⟨offset, unit.stringAt?_of_offset? hOffset hText, hLabel⟩

/-- A unit with a text that is labelled, and pushed by the code. -/
def greetingUnit : List Statement := [
  .ofDirective (.segment .strings),
  { Statement.ofDirective (.text "HELLO") with label := some "hello" },
  .ofDirective (.segment .code),
  .ofInstruction "PUSH_STRING" [.text "HELLO"]]

/-- The line of the text, and the one that pushes it. -/
def greetingLines : Line × Line :=
  (⟨{ Statement.ofDirective (.text "HELLO") with label := some "hello" }, .strings,
    some "hello", none⟩, ⟨.ofInstruction "PUSH_STRING" [.text "HELLO"], .code, none, none⟩)

theorem assemble_greeting :
    ∃ script, assemble NativeDatabase.empty .default greetingUnit = .ok script :=
  exists_of_isOk (by decide +kernel)

/-- The text is read back where its label stands for, and where the code pushes
it from. -/
theorem texts_read_back_greeting :
    (dataNames (scopeLines greetingUnit)).Nodup ∧ '\x00' ∉ "HELLO".toList ∧
      ∃ script, assemble NativeDatabase.empty .default greetingUnit = .ok script ∧
        (∃ offset, script.stringAt? offset = some "HELLO" ∧
          ∃ unit : Assembled NativeDatabase.empty .default greetingUnit script,
            unit.data.symbols.data["hello"]? = some ⟨.strings, offset, 0⟩) ∧
        ∃ row offset, PushesString (Disassembly.ofCode script.code).instructions row offset ∧
          script.stringAt? offset = some "HELLO" := by
  have hNames : (dataNames (scopeLines greetingUnit)).Nodup := by decide
  have hPlain : '\x00' ∉ "HELLO".toList := by simp
  have hAll : ⟨"PUSH_STRING", .pushText⟩ ∈ Shorthand.all := by simp [Shorthand.all]
  have hInstruction : greetingLines.2.instruction? = some ("PUSH_STRING", [.text "HELLO"]) := rfl
  have hPush : greetingLines.2.pushedText? = some "HELLO" := by
    rw [Line.pushedText?, hInstruction, Option.bind_some]
    dsimp only
    rw [pushedText?_shorthand hAll, if_pos rfl]
  obtain ⟨script, hScript⟩ := assemble_greeting
  obtain ⟨unit, rows, _, _, hPushed, hText⟩ := texts_read_back.2 _ _ _ _ hScript hNames
  obtain ⟨offset, hRead, hLabel⟩ :=
    hText greetingLines.1 (List.mem_of_getElem? (i := 1) rfl) "HELLO" rfl hPlain
  obtain ⟨row, place, _, _, hPushes, hFound⟩ :=
    hPushed 3 greetingLines.2 "HELLO" rfl hPush hPlain
  exact ⟨hNames, hPlain, script, hScript, ⟨offset, hRead, unit, hLabel "hello" rfl⟩, row,
    place, hPushes, hFound⟩

end Assembly
end ScriptBackend
