import ScriptBackend.Proofs.Assembly.Rewriting
import ScriptBackend.Proofs.Assembly.Scopes

/-!
Writing and reading are inverse. A unit whose names read as names comes back
from its text up to line numbers, capitals, comments and lines of labels, and
what comes back has the same script.
-/
namespace ScriptBackend.Assembly

open Outcome

section

variable {segment : Segment} {scope : Option String} {statement other : Statement}
  {statements parsed : List Statement}

def lineBehind (segment : Segment) (scope : Option String) (statement : Statement) : Line :=
  let next := Scoping.add ⟨segment, scope, #[]⟩ statement
  ⟨statement, next.segment, statement.label.map (qualify scope), next.scope⟩

/-- A line changes the segment and the scope for those behind it. -/
theorem linesIn_cons_behind (segment : Segment) (scope : Option String) (statement : Statement)
    (rest : List Statement) :
    linesIn segment scope (statement :: rest) =
      lineBehind segment scope statement ::
        linesIn (lineBehind segment scope statement).segment
          (lineBehind segment scope statement).scope rest :=
  rfl

theorem segmentOf_upperCased (segment : Segment) (content : Content) :
    Scoping.segmentOf segment content.upperCased = Scoping.segmentOf segment content := by
  cases content <;> rfl

/-- A statement without its number is a line under the same label with the same
content. -/
theorem same_of_unnumbered (h : other.unnumbered = statement.normal) (segment : Segment)
    (scope : Option String) :
    (lineBehind segment scope statement).Same (lineBehind segment scope other) := by
  have hLabel : other.unnumbered.label = statement.normal.label := congrArg Statement.label h
  have hContent : other.unnumbered.content = statement.normal.content :=
    congrArg Statement.content h
  change other.label = statement.label at hLabel
  change other.content = statement.content.upperCased at hContent
  have hSegment : Scoping.segmentOf segment other.content =
      Scoping.segmentOf segment statement.content := by
    rw [hContent, segmentOf_upperCased]
  refine ⟨⟨hSegment, ?_⟩, ?_, hContent⟩
  · simp only [lineBehind, Scoping.add, hLabel, hSegment]
  · simp only [lineBehind, hLabel]

/-- A label in front of its instruction, and the instruction behind it. -/
theorem rewritten_labelled {front back : Statement} {name mnemonic : String}
    {operands : List Operand} {rest others : List Statement} (hLabel : statement.label = some name)
    (hContent : statement.content = .instruction mnemonic operands)
    (hFront : front.unnumbered = (Statement.ofLabel name).normal)
    (hBack : back.unnumbered = ({ statement with label := none } : Statement).normal)
    (hRest : Rewritten (lineBehind segment scope statement).segment
      (linesIn (lineBehind segment scope statement).segment
        (lineBehind segment scope statement).scope rest)
      (linesIn (lineBehind segment scope statement).segment
        (lineBehind segment scope statement).scope others)) :
    Rewritten segment (linesIn segment scope (statement :: rest))
      (linesIn segment scope (front :: back :: others)) := by
  have hFrontLabel : front.label = some name := congrArg Statement.label hFront
  have hFrontContent : front.content = .empty := congrArg Statement.content hFront
  have hBackLabel : back.label = none := congrArg Statement.label hBack
  have hBackContent : back.content = statement.content.upperCased :=
    congrArg Statement.content hBack
  have hInstruction : back.content = .instruction (Text.upperCased mnemonic) operands := by
    rw [hBackContent, hContent]
    rfl
  have hSegment : (lineBehind segment scope statement).segment = segment := by
    simp [lineBehind, Scoping.add, Scoping.segmentOf, hContent]
  have hFrontAlike : (lineBehind segment scope statement).Alike
      (lineBehind segment scope front) := by
    constructor <;> simp [lineBehind, Scoping.add, Scoping.segmentOf, hContent, hLabel,
      hFrontLabel, hFrontContent]
  -- without a label the instruction stands where the label stands
  have hBehind : ∀ segment scope, lineBehind segment scope back =
      ⟨back, segment, none, scope⟩ := fun _ _ => by
    simp [lineBehind, Scoping.add, Scoping.segmentOf, hInstruction, hBackLabel]
  rw [linesIn_cons_behind, linesIn_cons_behind, linesIn_cons_behind, hBehind, hFrontAlike.segment,
    hFrontAlike.scope]
  refine .labelled ⟨mnemonic, operands, hContent⟩ hFrontAlike ?_ hFrontContent
    ⟨rfl, rfl⟩ rfl hBackContent hRest
  simp [lineBehind, hLabel, hFrontLabel]

/-- What reads back from the text of a unit are the lines of the unit rewritten. -/
theorem rewritten_of_normalUnit (h : parsed.map Statement.unnumbered = normalUnit statements) :
    Rewritten segment (linesIn segment scope statements) (linesIn segment scope parsed) := by
  induction statements generalizing segment scope parsed with
  | nil =>
      rw [List.map_eq_nil_iff.mp h]
      exact .nil
  | cons statement rest ih =>
      have hSplit : normalUnit (statement :: rest) =
          (statement.lines.map Statement.normal).filter (fun line => !line.isBlank) ++
            normalUnit rest := by
        simp [normalUnit]
      rw [hSplit] at h
      unfold Statement.lines at h
      split at h
      · next name mnemonic operands hLabel hContent =>
          have hKept : [Statement.ofLabel name,
              { statement with label := none }].map Statement.normal =
              ([Statement.ofLabel name, { statement with label := none }].map
                Statement.normal).filter fun line => !line.isBlank := by
            simp [Statement.normal, Statement.isBlank, Statement.ofLabel, hContent,
              Content.upperCased]
          rw [← hKept] at h
          obtain ⟨front, parsed, rfl, hFront, h⟩ := List.map_eq_cons_iff.mp h
          obtain ⟨back, parsed, rfl, hBack, h⟩ := List.map_eq_cons_iff.mp h
          exact rewritten_labelled hLabel hContent hFront hBack (ih h)
      · cases hBlank : statement.normal.isBlank with
        | true =>
            have hNone : statement.label = none ∧ statement.content.upperCased = .empty := by
              rw [Statement.isBlank, Bool.and_eq_true, decide_eq_true_eq,
                Option.isNone_iff_eq_none] at hBlank
              exact hBlank
            have hContent : statement.content = .empty := by
              cases hSays : statement.content <;> simp_all [Content.upperCased]
            have hBehind : lineBehind segment scope statement =
                ⟨statement, segment, none, scope⟩ := by
              simp [lineBehind, Scoping.add, Scoping.segmentOf, hContent, hNone.1]
            have hRest : parsed.map Statement.unnumbered = normalUnit rest := by
              simpa [hBlank] using h
            rw [linesIn_cons_behind, hBehind]
            exact .blank rfl hContent rfl (ih hRest)
        | false =>
            have hCons : parsed.map Statement.unnumbered = statement.normal :: normalUnit rest := by
              simpa [hBlank] using h
            obtain ⟨other, parsed, rfl, hOther, hRest⟩ := List.map_eq_cons_iff.mp hCons
            have hSame := same_of_unnumbered hOther segment scope
            rw [linesIn_cons_behind, linesIn_cons_behind, hSame.segment, hSame.scope]
            exact .line hSame (ih hRest)

/-- A unit whose names read as names can be written and read again: it comes
back up to line numbers, capitals in mnemonics, blanks around comments, labels
on lines of their own and lines that say nothing, and if it assembles, its text
assembles to the same script. Floats come back because the text of a finite
number reads as that number. -/
theorem assembleText_render (hFormed : ∀ statement ∈ statements, statement.IsWellFormed)
    (hFloats : ∀ statement ∈ statements, ∀ value ∈
      statement.content.floatOperands, ReadsBack value) :
    (∃ parsed, read (render statements) = .ok parsed ∧
      parsed.map Statement.unnumbered = normalUnit statements) ∧
    ∀ (source : NativeSource) (options : Options) (script : Script),
      assemble source options statements = .ok script →
        assembleText source options (render statements) = .ok script := by
  obtain ⟨parsed, hRead, hParsed⟩ := read_render hFormed hFloats
  refine ⟨⟨parsed, hRead, hParsed⟩, fun source options script hScript => ?_⟩
  have hLines : Rewritten .code (scopeLines statements) (scopeLines parsed) := by
    rw [scopeLines_eq, scopeLines_eq]
    exact rewritten_of_normalUnit hParsed
  rw [assembleText, hRead]
  exact assemble_rewritten hLines hScript

end

/-- A unit with a static, a line that says nothing, and a function whose name
stands in front of its first instruction. -/
def mixedUnit : List Statement := [
  .ofDirective (.segment .statics),
  ⟨0, some "half", .directive (.floats [.float ⟨0x3F000000⟩]), some " one word "⟩,
  ⟨0, none, .empty, some "code"⟩,
  .ofDirective (.segment .code),
  ⟨0, some "main", .instruction "Switch" [.case (-5) "main"], none⟩,
  .ofInstruction "push_const" [.sizeOf "half"],
  .ofInstruction "PUSH_STRING" [.text "it's\n"]]

theorem assemble_mixed :
    ∃ script, assemble NativeDatabase.empty .default mixedUnit = .ok script :=
  exists_of_isOk (by decide +kernel)

theorem assembleText_render_mixed :
    (∀ statement ∈ mixedUnit, statement.IsWellFormed) ∧
    (∃ parsed, read (render mixedUnit) = .ok parsed ∧
      parsed.map Statement.unnumbered = normalUnit mixedUnit) ∧
    ∃ script, assemble NativeDatabase.empty .default mixedUnit = .ok script ∧
      assembleText NativeDatabase.empty .default (render mixedUnit) = .ok script := by
  have hNames : ∀ name ∈ ["half", "main", "Switch", "push_const", "PUSH_STRING"],
      ReadsAsName name :=
    fun name hName => readsAsName_of_plain (by revert name; decide)
  have hLabels : ∀ statement ∈ mixedUnit, ∀ label ∈ statement.label, ReadsAsName label :=
    fun statement hStatement label hLabel => hNames label (by revert statement label; decide)
  have hComments : ∀ statement ∈ mixedUnit, ∀ comment ∈ statement.comment,
      '\n' ∉ comment.toList := by
    decide
  have hContents : ∀ statement ∈ mixedUnit, statement.content.IsWellFormed := by
    have hCode : isLocal "Switch" = false ∧ isLocal "push_const" = false ∧
        isLocal "PUSH_STRING" = false := by decide
    simp [mixedUnit, Statement.ofDirective, Statement.ofInstruction, Content.IsWellFormed,
      Directive.IsWellFormed, Operand.IsWellFormed, hNames, hCode]
    decide
  have hFormed : ∀ statement ∈ mixedUnit, statement.IsWellFormed := fun statement hStatement =>
    ⟨hLabels statement hStatement, hContents statement hStatement, hComments statement hStatement⟩
  have hFloats : ∀ statement ∈ mixedUnit, ∀ value ∈ statement.content.floatOperands,
      ReadsBack value := by
    have hHalf : ReadsBack ⟨0x3F000000⟩ := fun _ => by decide +kernel
    simpa [mixedUnit, Statement.ofDirective, Statement.ofInstruction, Content.floatOperands,
      Directive.floatOperands, Operand.floats] using hHalf
  obtain ⟨script, hScript⟩ := assemble_mixed
  obtain ⟨hRead, hSame⟩ := assembleText_render hFormed hFloats
  exact ⟨hFormed, hRead, script, hScript, hSame _ _ script hScript⟩

end ScriptBackend.Assembly
