import ScriptBackend.Proofs.Assembly.Reading

/-!
Units as text. What is written of a unit reads back line by line: a labelled
instruction as its label and the instruction, mnemonics in upper case, comments
trimmed, and without the lines that say nothing.
-/
namespace ScriptBackend.Assembly

open ScriptBackend.Text

/-! Lines -/

def withoutReturn (line : List Char) : List Char :=
  if line.getLast? = some '\r' then line.dropLast else line

section Lines

variable {line text : List Char}

theorem linesFrom_feed (rest current : List Char) (done : List (List Char)) :
    linesFrom ('\n' :: rest) current done =
      linesFrom rest [] (withoutReturn current.reverse :: done) := by
  cases current with
  | nil => rfl
  | cons c current =>
      by_cases hReturn : c = '\r'
      · subst hReturn
        simp [linesFrom, withoutReturn]
      · simp [linesFrom, withoutReturn, hReturn]

/-- A line without a break inside of it is read as one line. -/
theorem linesFrom_line (h : '\n' ∉ line) (rest current : List Char) (done : List (List Char)) :
    linesFrom (line ++ '\n' :: rest) current done =
      linesFrom rest [] (withoutReturn (current.reverse ++ line) :: done) := by
  induction line generalizing current with
  | nil => rw [List.nil_append, linesFrom_feed, List.append_nil]
  | cons c line ih =>
      rw [List.mem_cons, not_or] at h
      have hFeed : c ≠ '\n' := Ne.symm h.1
      have hStep : linesFrom (c :: (line ++ '\n' :: rest)) current done =
          linesFrom (line ++ '\n' :: rest) (c :: current) done := by
        simp [linesFrom, hFeed]
      rw [List.cons_append, hStep, ih h.2, List.reverse_cons, List.append_assoc,
        List.singleton_append]

/-- Lines without line feeds, one after each, are the lines of their text. -/
theorem linesOf_flatMap {lines : List (List Char)} (h : ∀ line ∈ lines, '\n' ∉ line) :
    linesOf (lines.flatMap (· ++ ['\n'])) = lines.map withoutReturn := by
  have hFrom : ∀ done, linesFrom (lines.flatMap (· ++ ['\n'])) [] done =
      done.reverse ++ lines.map withoutReturn := by
    induction lines with
    | nil => simp [linesFrom]
    | cons line rest ih =>
        intro done
        rw [List.forall_mem_cons] at h
        rw [List.flatMap_cons, List.append_assoc, List.singleton_append, linesFrom_line h.1, ih h.2]
        simp
  exact hFrom []

/-- Only a return at the very end of a line is dropped. -/
theorem withoutReturn_append (hFront : line.getLast? ≠ some '\r') :
    withoutReturn (line ++ text) = line ++ withoutReturn text := by
  by_cases hNone : text = []
  · simp [withoutReturn, hFront, hNone]
  · have hLast : (line ++ text).getLast? = text.getLast? := by
      rw [List.getLast?_append, Option.or_of_isSome (by simpa using hNone)]
    rw [withoutReturn, withoutReturn, hLast, List.dropLast_append_of_ne_nil hNone]
    split <;> rfl

theorem withoutReturn_of_flat (h : ∀ c ∈ line, endsLine c = false) : withoutReturn line = line := by
  refine if_neg fun hLast => ?_
  have hReturn := h '\r' (List.mem_of_getLast? hLast)
  cases hReturn

theorem trim_space (text : List Char) : trim (' ' :: text) = trim text := by
  have hStart : trimStart (' ' :: text) = trimStart text := List.dropWhile_cons_of_pos isBlank_space
  rw [trim, trim, hStart]

theorem trim_return (text : List Char) : trim (text ++ ['\r']) = trim text := by
  have hBlank : ∀ rest, trimStart ('\r' :: rest) = trimStart rest := fun _ =>
    List.dropWhile_cons_of_pos isBlank_return
  have hStart : trimStart (text ++ ['\r']) =
      if (trimStart text).isEmpty then trimStart ['\r'] else trimStart text ++ ['\r'] :=
        List.dropWhile_append
  rw [trim, trim, hStart]
  split
  · next hNone =>
      rw [List.isEmpty_iff.mp hNone, hBlank]
      rfl
  · rw [List.reverse_append, List.reverse_singleton, List.singleton_append, hBlank]

/-- A carriage return at the end of a comment is a blank. -/
theorem trim_withoutReturn (text : List Char) : trim (withoutReturn text) = trim text := by
  unfold withoutReturn
  split
  · next hLast =>
      obtain ⟨front, rfl⟩ := List.getLast?_eq_some_iff.mp hLast
      rw [List.dropLast_concat, trim_return]
  · rfl

end Lines

/-! Statements -/

/-- The statements on the lines of a statement: a labelled instruction has two. -/
def Statement.lines (statement : Statement) : List Statement :=
  match statement.label, statement.content with
  | some label, .instruction _ _ => [.ofLabel label, { statement with label := none }]
  | _, _ => [statement]

def Content.upperCased : Content → Content
  | .instruction mnemonic operands => .instruction (Text.upperCased mnemonic) operands
  | content => content

/-- The comment that is kept: without blanks at its ends, and none if nothing
remains. -/
def keptComment (comment : Option String) : Option String :=
  ((comment.map fun text => trim text.toList).filter fun text => !text.isEmpty).map String.ofList

/-- The statement without its line number, with its mnemonic in upper case and
its comment trimmed. -/
def Statement.normal (statement : Statement) : Statement :=
  ⟨0, statement.label, statement.content.upperCased, keptComment statement.comment⟩

/-- A unit as it reads back, without line numbers. -/
def normalUnit (statements : List Statement) : List Statement :=
  ((statements.flatMap Statement.lines).map Statement.normal).filter fun statement =>
    !statement.isBlank

/-- The statement without its line number. -/
def Statement.unnumbered (statement : Statement) : Statement :=
  { statement with line := 0 }

/-- Content that can be written. A mnemonic is not the name of a directive. -/
def Content.IsWellFormed : Content → Prop
  | .empty => True
  | .directive said => said.IsWellFormed
  | .instruction mnemonic operands =>
    ReadsAsName mnemonic ∧ isLocal mnemonic = false ∧ ∀ operand ∈ operands, operand.IsWellFormed

def Content.floatOperands : Content → List Binary32
  | .empty => []
  | .directive said => said.floatOperands
  | .instruction _ operands => operands.flatMap Operand.floats

/-- Statements that can be written: every name reads as a name, floats are
finite, and a comment stays on its line. -/
structure Statement.IsWellFormed (statement : Statement) : Prop where
  label : ∀ label ∈ statement.label, ReadsAsName label
  content : statement.content.IsWellFormed
  comment : ∀ comment ∈ statement.comment, '\n' ∉ comment.toList

def labelTokens : Option String → List Token
  | some label => [.name label, .colon]
  | none => []

def Content.tokens : Content → List Token
  | .empty => []
  | .directive said => .name said.name :: said.tokens
  | .instruction mnemonic operands => .name mnemonic :: operandTokens operands

section Contents

variable {label : Option String} {content : Content}

/-- A well-formed instruction is read as its mnemonic and the tokens of its
operands. -/
theorem lexes_instruction {mnemonic : String} {operands : List Operand}
    (h : (Content.instruction mnemonic operands).IsWellFormed)
    (hFloats : ∀ value ∈ (Content.instruction mnemonic operands).floatOperands, ReadsBack value) :
    Lexes (renderInstruction mnemonic operands).toList
      (Content.instruction mnemonic operands).tokens := by
  have hMnemonic := (isName_of_tokenize h.1).lexes
  have hOperands := lexes_operands h.2.2 hFloats
  cases operands with
  | nil => exact hMnemonic
  | cons operand rest =>
      simpa [renderInstruction, Content.tokens] using hMnemonic.before hOperands.space

/-- Blanks in front of a line say nothing. -/
theorem Lexes.indented {text : List Char} {tokens : List Token} (h : Lexes text tokens) :
    Lexes ("    ".toList ++ text) tokens :=
  h.space.space.space.space

/-- A line reads as its label and what it says. -/
theorem lexes_body (hLabel : ∀ name ∈ label, ReadsAsName name) (h : content.IsWellFormed)
    (hFloats : ∀ value ∈ content.floatOperands, ReadsBack value)
    (hAlone : ∀ mnemonic operands, content = .instruction mnemonic operands → label = none) :
    Lexes (renderBody label content).toList (labelTokens label ++ content.tokens) := by
  cases label with
  | none =>
      cases content with
      | empty => exact lexes_nil
      | directive directive =>
          have hDirective := Directive.lexes h hFloats
          rw [renderBody]
          split
          · exact hDirective
          · rw [String.toList_append]
            exact hDirective.indented
      | instruction mnemonic operands =>
          rw [renderBody, String.toList_append]
          exact (lexes_instruction h hFloats).indented
  | some name =>
      have hName := (isName_of_tokenize (hLabel name rfl)).lexes
      cases content with
      | empty =>
          simpa [renderBody, labelTokens, Content.tokens] using hName.before lexes_nil.colon
      | directive directive =>
          have hDirective := Directive.lexes h hFloats
          simpa [renderBody, labelTokens, Content.tokens] using hName.before hDirective.space.colon
      | instruction mnemonic operands => cases hAlone mnemonic operands rfl

theorem Operand.tokens_ne_colon (operand : Operand) (rest : List Token) :
    (operand.tokens ++ rest).head? ≠ some .colon := by
  cases operand <;> simp [Operand.tokens]

theorem operandTokens_ne_colon (operands : List Operand) :
    (operandTokens operands).head? ≠ some .colon := by
  cases operands with
  | nil => simp [operandTokens]
  | cons operand rest =>
      cases rest with
      | nil => simpa [operandTokens] using operand.tokens_ne_colon []
      | cons next others => exact operand.tokens_ne_colon _

theorem Directive.tokens_ne_colon (directive : Directive) :
    directive.tokens.head? ≠ some .colon := by
  cases directive with
  | segment segment => cases segment <;> simp [Directive.tokens]
  | ints operands => exact operandTokens_ne_colon operands
  | floats operands => exact operandTokens_ne_colon operands
  | _ => simp [Directive.tokens]

/-- A name is no label unless a colon comes right behind it. -/
theorem readLabel_of_ne_colon {name : String} {tokens : List Token}
    (h : tokens.head? ≠ some .colon) :
    readLabel (.name name :: tokens) = (none, .name name :: tokens) := by
  cases tokens with
  | nil => rfl
  | cons token rest =>
      cases token with
      | colon => exact absurd rfl h
      | _ => rfl

/-- Only a label is followed by a colon. -/
theorem readLabel_tokens (label : Option String) (content : Content) :
    readLabel (labelTokens label ++ content.tokens) = (label, content.tokens) := by
  cases label with
  | some name => rfl
  | none =>
      cases content with
      | empty => rfl
      | directive directive => exact readLabel_of_ne_colon directive.tokens_ne_colon
      | instruction mnemonic operands =>
          exact readLabel_of_ne_colon (operandTokens_ne_colon operands)

theorem Directive.isLocal_name (directive : Directive) : isLocal directive.name = true := by
  have hLocal : ∀ name ∈ directiveNames, isLocal name = true := by decide
  exact hLocal _ directive.name_mem

/-- What a line says is read from its tokens, unless its mnemonic looks like the
name of a directive. -/
theorem readContent_tokens
    (h : ∀ mnemonic operands, content = .instruction mnemonic operands → isLocal mnemonic = false) :
    readContent content.tokens = .ok content.upperCased := by
  cases content with
  | empty => rfl
  | directive directive =>
      rw [Content.tokens, readContent, if_pos directive.isLocal_name, readDirective?_tokens]
      rfl
  | instruction mnemonic operands =>
      rw [Content.tokens, readContent, h mnemonic operands rfl, readOperands_tokens]
      rfl

/-- A line whose tokens are those of a label and of what is said behind it. -/
theorem readLine_tokens {line : List Char} {comment : Option (List Char)}
    (hLine : tokenize line = .ok (labelTokens label ++ content.tokens, comment))
    (h : ∀ mnemonic operands, content = .instruction mnemonic operands → isLocal mnemonic = false)
    (number : Nat) :
    readLine number line = .ok ⟨number, label, content.upperCased,
      (comment.filter fun text => !text.isEmpty).map String.ofList⟩ := by
  rw [readLine, hLine]
  dsimp only
  rw [readLabel_tokens, readContent_tokens h]

end Contents

section Statements

variable {statement : Statement} {statements : List Statement}

/-- Statements that take one line. -/
def Statement.IsLine (statement : Statement) : Prop :=
  ∀ mnemonic operands, statement.content = .instruction mnemonic operands → statement.label = none

/-- A line with its comment, up to the carriage return before its end. -/
theorem tokenize_line (h : statement.IsWellFormed) (hLine : statement.IsLine)
    (hFloats : ∀ value ∈ statement.content.floatOperands, ReadsBack value) :
    tokenize (withoutReturn statement.render.toList) =
      .ok (labelTokens statement.label ++ statement.content.tokens,
        statement.comment.map fun text => trim text.toList) := by
  have hBody := lexes_body h.label h.content hFloats hLine
  cases hComment : statement.comment with
  | none =>
      have hText : statement.render.toList =
          (renderBody statement.label statement.content).toList := by
        simp [Statement.render, hComment]
      rw [hText, withoutReturn_of_flat hBody.flat, hBody.tokenize_eq]
      rfl
  | some comment =>
      have hText : statement.render.toList =
          (renderBody statement.label statement.content).toList ++ [' ', ';', ' '] ++
            comment.toList := by
        simp [Statement.render, hComment]
      have hMark : ((renderBody statement.label statement.content).toList ++
          [' ', ';', ' ']).getLast? ≠ some '\r' := by
        simp
      have hTail : tokenize (' ' :: ';' :: ' ' :: withoutReturn comment.toList) =
          .ok ([], some (trim comment.toList)) := by
        rw [tokenize_space, tokenize_comment, trim_space, trim_withoutReturn]
      rw [hText, withoutReturn_append hMark, List.append_assoc]
      have hRead :=
        hBody.reads (' ' :: ';' :: ' ' :: withoutReturn comment.toList) (ends_cons _ (by decide))
      rw [hTail] at hRead
      simpa [Except.map, prepend] using hRead

/-- A line reads as its statement. -/
theorem readLine_line (h : statement.IsWellFormed) (hLine : statement.IsLine)
    (hFloats : ∀ value ∈ statement.content.floatOperands, ReadsBack value) (number : Nat) :
    readLine number (withoutReturn statement.render.toList) =
      .ok { statement.normal with line := number } := by
  refine readLine_tokens (tokenize_line h hLine hFloats)
    (fun mnemonic operands hContent => ?_) number
  have hFormed := h.content
  rw [hContent] at hFormed
  exact hFormed.2.1

/-- Lines are read one by one, and those that say nothing are left out. -/
theorem readLines_lines {lines : List (List Char)}
    (h : List.Forall₂ (fun line (statement : Statement) => ∀ number,
      readLine number line = .ok { statement with line := number }) lines statements)
    (number : Nat) (found : List Statement) :
    ∃ parsed, readLines number lines found = .ok (found.reverse ++ parsed) ∧
      parsed.map Statement.unnumbered =
        (statements.map Statement.unnumbered).filter fun statement => !statement.isBlank := by
  induction h generalizing number found with
  | nil => exact ⟨[], by simp [readLines], rfl⟩
  | @cons line statement lines statements hFirst _ ih =>
      rw [readLines, hFirst]
      dsimp only
      -- the number of a statement does not decide whether it says something
      have hBlank : ({ statement with line := number } : Statement).isBlank =
          statement.unnumbered.isBlank := rfl
      rw [hBlank, List.map_cons]
      cases hSays : statement.unnumbered.isBlank with
      | true =>
          obtain ⟨parsed, hRead, hParsed⟩ := ih (number + 1) found
          exact ⟨parsed, hRead, by simp [hSays, hParsed]⟩
      | false =>
          obtain ⟨parsed, hRead, hParsed⟩ :=
            ih (number + 1) ({ statement with line := number } :: found)
          refine ⟨{ statement with line := number } :: parsed, by simpa using hRead, ?_⟩
          rw [List.map_cons, hParsed, List.filter_cons_of_pos (by rw [hSays]; rfl)]
          rfl

/-- A line holds no line feed. -/
theorem not_mem_render (h : statement.IsWellFormed) (hLine : statement.IsLine)
    (hFloats : ∀ value ∈ statement.content.floatOperands, ReadsBack value) :
    '\n' ∉ statement.render.toList := by
  have hBody : '\n' ∉ (renderBody statement.label statement.content).toList := fun hFeed =>
    absurd ((lexes_body h.label h.content hFloats hLine).flat _ hFeed) (by decide)
  cases hComment : statement.comment with
  | none => simpa [Statement.render, hComment] using hBody
  | some comment => simpa [Statement.render, hComment, hBody] using h.comment comment hComment

/-! Units -/

/-- A statement is written on one or more lines, each with an end. -/
theorem toList_render_line (statement : Statement) :
    (statement.render ++ "\n").toList = statement.lines.flatMap
      fun line => line.render.toList ++ ['\n'] := by
  unfold Statement.lines
  split
  · next label mnemonic operands hLabel hContent =>
      simp [Statement.render, hLabel, hContent, renderBody, Statement.ofLabel]
  · simp

/-- A unit is written as the lines of its statements, each with an end. -/
theorem toList_render (statements : List Statement) :
    (render statements).toList =
      ((statements.flatMap Statement.lines).map fun line => line.render.toList).flatMap
      (· ++ ['\n']) := by
  rw [render, String.toList_join, List.flatMap_map, List.flatMap_map, List.flatMap_assoc]
  exact congrArg statements.flatMap (funext toList_render_line)

/-- The lines of a statement that can be written can be written, and each takes
one line. -/
theorem Statement.IsWellFormed.lines (h : statement.IsWellFormed)
    (hFloats : ∀ value ∈ statement.content.floatOperands, ReadsBack value) :
    ∀ line ∈ statement.lines, line.IsWellFormed ∧ line.IsLine ∧
      ∀ value ∈ line.content.floatOperands, ReadsBack value := by
  unfold Statement.lines
  split
  · next label mnemonic operands hLabel hContent =>
      rw [List.forall_mem_cons, List.forall_mem_singleton]
      have hName : ∀ name ∈ (ofLabel label).label, ReadsAsName name := fun name hName =>
        h.label name (hLabel.trans hName)
      exact ⟨⟨⟨hName, trivial, by simp [ofLabel]⟩, by simp [IsLine, ofLabel],
        by simp [ofLabel, Content.floatOperands]⟩, ⟨by simp, h.content, h.comment⟩,
          fun _ _ _ => rfl, hFloats⟩
  · next hNot =>
      rw [List.forall_mem_singleton]
      refine ⟨h, fun mnemonic operands hContent => ?_, hFloats⟩
      rw [Option.eq_none_iff_forall_ne_some]
      exact fun label hLabel => hNot label mnemonic operands hLabel hContent

/-- What is written of a unit reads back as its lines that say something. -/
theorem read_render (h : ∀ statement ∈ statements, statement.IsWellFormed)
    (hFloats : ∀ statement ∈ statements, ∀ value ∈
      statement.content.floatOperands, ReadsBack value) :
    ∃ parsed, read (render statements) = .ok parsed ∧
      parsed.map Statement.unnumbered = normalUnit statements := by
  have hLines : ∀ line ∈ statements.flatMap Statement.lines, line.IsWellFormed ∧ line.IsLine ∧
      ∀ value ∈ line.content.floatOperands, ReadsBack value := by
    intro line hLine
    obtain ⟨statement, hStatement, hLine⟩ := List.mem_flatMap.mp hLine
    exact (h statement hStatement).lines (hFloats statement hStatement) line hLine
  have hFlat : ∀ line ∈ (statements.flatMap Statement.lines).map fun line => line.render.toList,
      '\n' ∉ line := by
    intro text hText
    obtain ⟨line, hLine, rfl⟩ := List.mem_map.mp hText
    obtain ⟨hFormed, hAlone, hOwn⟩ := hLines line hLine
    exact not_mem_render hFormed hAlone hOwn
  have hEach : List.Forall₂ (fun line (statement : Statement) => ∀ number,
        readLine number line = .ok { statement with line := number })
      ((statements.flatMap Statement.lines).map fun line => withoutReturn line.render.toList)
      ((statements.flatMap Statement.lines).map Statement.normal) := by
    rw [List.forall₂_map_left_iff, List.forall₂_map_right_iff, List.forall₂_same]
    intro line hLine number
    obtain ⟨hFormed, hAlone, hOwn⟩ := hLines line hLine
    exact readLine_line hFormed hAlone hOwn number
  obtain ⟨parsed, hRead, hParsed⟩ := readLines_lines hEach 1 []
  rw [List.map_map] at hParsed
  refine ⟨parsed, ?_, hParsed⟩
  rw [read, toList_render, linesOf_flatMap hFlat, List.map_map]
  exact hRead

/-- A line that holds a statement without a comment. -/
structure Writes (line : String) (statement : Statement) : Prop where
  lexes : Lexes line.toList (labelTokens statement.label ++ statement.content.tokens)
  alone : statement.IsLine
  comment : statement.comment = none
  mnemonic : ∀ mnemonic operands, statement.content = .instruction mnemonic operands →
    isLocal mnemonic = false

/-- A line that writes a statement is read as that statement in its normal form. -/
theorem Writes.readLine_eq {line : String} (h : Writes line statement) (number : Nat) :
    readLine number (withoutReturn line.toList) = .ok { statement.normal with line := number } := by
  have hTokens := readLine_tokens h.lexes.tokenize_eq h.mnemonic number
  rw [withoutReturn_of_flat h.lexes.flat, hTokens, Statement.normal, h.comment]
  rfl

theorem Statement.IsLine.lines_eq (h : statement.IsLine) : statement.lines = [statement] := by
  unfold Statement.lines
  split
  · next hLabel hContent => cases hLabel.symm.trans (h _ _ hContent)
  · rfl

/-- Lines that hold a statement each read back as these statements. -/
theorem read_lines {lines : List String} (h : List.Forall₂ Writes lines statements) :
    ∃ parsed, read (String.join (lines.map (· ++ "\n"))) = .ok parsed ∧
      parsed.map Statement.unnumbered = normalUnit statements := by
  have hText : (String.join (lines.map (· ++ "\n"))).toList =
      (lines.map String.toList).flatMap (· ++ ['\n']) := by
    rw [String.toList_join, List.flatMap_map, List.flatMap_map]
    simp
  have hFlat : (∀ line ∈ lines, ∀ c ∈ line.toList, endsLine c = false) ∧
      List.Forall₂ Writes lines statements :=
    (List.forall₂_and_left ..).mp (h.imp fun _ _ hWrites => ⟨hWrites.lexes.flat, hWrites⟩)
  have hFeed : ∀ line ∈ lines.map String.toList, '\n' ∉ line := by
    simp only [List.forall_mem_map]
    exact fun line hMem hFeed => absurd (hFlat.1 line hMem _ hFeed) (by decide)
  have hAlone : statements.flatMap Statement.lines = statements := by
    clear hText hFlat hFeed
    induction h with
    | nil => rfl
    | cons hFirst _ ih => rw [List.flatMap_cons, hFirst.alone.lines_eq, ih, List.singleton_append]
  have hEach : List.Forall₂ (fun line (statement : Statement) => ∀ number,
        readLine number line = .ok { statement with line := number })
      (lines.map fun line => withoutReturn line.toList) (statements.map Statement.normal) := by
    rw [List.forall₂_map_left_iff, List.forall₂_map_right_iff]
    exact h.imp fun _ _ hWrites => hWrites.readLine_eq
  obtain ⟨parsed, hRead, hParsed⟩ := readLines_lines hEach 1 []
  rw [List.map_map] at hParsed
  refine ⟨parsed, ?_, by rw [normalUnit, hAlone]; exact hParsed⟩
  rw [read, hText, linesOf_flatMap hFeed, List.map_map]
  exact hRead

end Statements
end ScriptBackend.Assembly
