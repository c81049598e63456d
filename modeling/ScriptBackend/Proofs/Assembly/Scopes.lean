import ScriptBackend.Assembly.Scope

/-!
The lines of a unit, section by section. Statements that begin no segment and no
function stand where the statements before them stand, so that sections and
functions can be read one by one.
-/
namespace ScriptBackend.Assembly

def lineOf (segment : Segment) (scope : Option String) (statement : Statement) : Line :=
  ⟨statement, segment, statement.label.map (qualify scope), scope⟩

def linesIn (segment : Segment) (scope : Option String) : List Statement → List Line
  | [] => []
  | first :: rest =>
    let next := Scoping.add ⟨segment, scope, #[]⟩ first
    next.lines.toList ++ linesIn next.segment next.scope rest

/-- A statement that begins neither a segment nor a function. -/
structure Statement.Continues (segment : Segment) (statement : Statement) : Prop where
  content : ∀ other, statement.content ≠ .directive (.segment other)
  label : ∀ label, statement.label = some label → isLocal label = true ∨ segment ≠ .code

/-- Statements that stand in one segment, which they begin unless there are none. -/
def InSegment (segment : Segment) (statements : List Statement) : Prop :=
  statements = [] ∨ ∃ body, statements = .ofDirective (.segment segment) :: body ∧
    ∀ statement ∈ body, statement.Continues segment

/-- Statements that begin a segment of their own. -/
def Restarts (statements : List Statement) : Prop :=
  ∀ segment other, linesIn segment none statements = linesIn other none statements

section

variable {segment : Segment} {scope : Option String} {statement : Statement}
variable {statements rest : List Statement}

theorem segmentOf_of_ne (h : ∀ other, statement.content ≠ .directive (.segment other)) :
    Scoping.segmentOf segment statement.content = segment := by
  unfold Scoping.segmentOf
  split
  · next hContent => exact absurd hContent (h _)
  · rfl

/-- Lines are collected behind those that are there. -/
theorem foldl_add_lines (scoping : Scoping) :
    (statements.foldl Scoping.add scoping).lines.toList =
      scoping.lines.toList ++ linesIn scoping.segment scoping.scope statements := by
  induction statements generalizing scoping with
  | nil => simp [linesIn]
  | cons first rest ih =>
      rw [List.foldl_cons, ih]
      simp [linesIn, Scoping.add]

/-- The lines of a unit begin in the code, outside of functions. -/
theorem scopeLines_eq (statements : List Statement) :
    scopeLines statements = linesIn .code none statements := by
  rw [scopeLines, foldl_add_lines]
  rfl

/-- A statement that begins nothing leaves the segment and the scope as they are. -/
theorem Statement.Continues.add (h : statement.Continues segment) (lines : Array Line) :
    Scoping.add ⟨segment, scope, lines⟩ statement =
      ⟨segment, scope, lines.push (lineOf segment scope statement)⟩ := by
  have hSegment : Scoping.segmentOf segment statement.content = segment := segmentOf_of_ne h.content
  cases hLabel : statement.label with
  | none => simp [Scoping.add, hSegment, hLabel, lineOf]
  | some label =>
      rcases h.label label hLabel with hLocal | hOther
      · simp [Scoping.add, hSegment, hLabel, lineOf, hLocal]
      · simp [Scoping.add, hSegment, hLabel, lineOf, hOther]

/-- A statement that neither enters a segment nor begins a function leaves both
as they are. -/
theorem linesIn_cons (h : statement.Continues segment) :
    linesIn segment scope (statement :: rest) =
      lineOf segment scope statement :: linesIn segment scope rest := by
  rw [linesIn, h.add]
  rfl

/-- Statements that begin nothing stand where the statements before them stand. -/
theorem linesIn_append (h : ∀ statement ∈ statements, statement.Continues segment) :
    linesIn segment scope (statements ++ rest) =
      statements.map (lineOf segment scope) ++ linesIn segment scope rest := by
  induction statements with
  | nil => rfl
  | cons first others ih =>
      rw [List.forall_mem_cons] at h
      rw [List.cons_append, linesIn_cons h.1, ih h.2]
      rfl

theorem linesIn_segment (next : Segment) :
    linesIn segment scope (.ofDirective (.segment next) :: rest) =
      lineOf next scope (.ofDirective (.segment next)) :: linesIn next scope rest :=
  rfl

theorem restarts_segment (next : Segment) (rest : List Statement) :
    Restarts (.ofDirective (.segment next) :: rest) :=
  fun _ _ => rfl

/-- Statements within a segment may be followed by whatever enters a segment. -/
theorem InSegment.restarts (h : InSegment segment statements) (hRest : Restarts rest) :
    Restarts (statements ++ rest) := by
  rcases h with rfl | ⟨body, rfl, _⟩
  · exact hRest
  · exact restarts_segment segment (body ++ rest)

/-- A section stands in its segment, whatever stands before it. -/
theorem InSegment.linesIn_append (h : InSegment segment statements) (hRest : Restarts rest)
    (current : Segment) :
    linesIn current none (statements ++ rest) =
      statements.map (lineOf segment none) ++ linesIn .code none rest := by
  rcases h with rfl | ⟨body, rfl, hBody⟩
  · exact hRest current .code
  · rw [List.cons_append, linesIn_segment, Assembly.linesIn_append hBody, hRest segment .code]
    rfl

/-- A function opens its scope. -/
theorem linesIn_function {name : String} (hLabel : statement.label = some name)
    (hName : isLocal name = false)
    (hContent : ∀ other, statement.content ≠ .directive (.segment other)) :
    linesIn .code scope (statement :: rest) =
      lineOf .code (some name) statement :: linesIn .code (some name) rest := by
  have hSegment : Scoping.segmentOf .code statement.content = .code := segmentOf_of_ne hContent
  rw [linesIn]
  simp [Scoping.add, hSegment, hLabel, hName, lineOf, qualify]

/-- Only local names depend on their scope. -/
theorem qualify_of_not_isLocal {name : String} (h : isLocal name = false) (scope : Option String) :
    qualify scope name = name := by
  rw [qualify, h]
  rfl

/-- A line is a statement with its scope; a label that opens a scope stands in
its own. -/
theorem line_of_mem {line : Line} (h : line ∈ linesIn segment scope statements) :
    line.statement ∈ statements ∧ line.label = line.statement.label.map line.qualify := by
  induction statements generalizing segment scope with
  | nil => cases h
  | cons first rest ih =>
      rw [linesIn, List.mem_append] at h
      rcases h with hFirst | hLater
      · simp only [Scoping.add, Array.toList_push, List.nil_append, List.mem_singleton] at hFirst
        subst hFirst
        refine ⟨List.mem_cons_self .., ?_⟩
        cases hLabel : first.label with
        | none => simp
        | some name =>
            cases hLocal : isLocal name with
            | true => simp [Line.qualify, hLocal]
            | false => simp [Line.qualify, qualify_of_not_isLocal hLocal]
      · obtain ⟨hMem, hLabel⟩ := ih hLater
        exact ⟨List.mem_cons_of_mem _ hMem, hLabel⟩

/-- Instructions and labels stay in the code. -/
theorem segment_linesIn (h : ∀ statement ∈ statements, ∀ directive, statement.content ≠
    .directive directive)
    (scope : Option String) : ∀ line ∈ linesIn .code scope statements, line.segment = .code := by
  induction statements generalizing scope with
  | nil => simp [linesIn]
  | cons first rest ih =>
      rw [List.forall_mem_cons] at h
      have hSegment : Scoping.segmentOf .code first.content = .code :=
        segmentOf_of_ne fun other => h.1 _
      intro line hLine
      rw [linesIn] at hLine
      rcases List.mem_append.mp hLine with hFirst | hLater
      · simp only [Scoping.add, hSegment, Array.toList_push, List.nil_append,
          List.mem_singleton] at hFirst
        rw [hFirst]
      · simp only [Scoping.add, hSegment] at hLater
        exact ih h.2 _ line hLater

theorem statement_mem {line : Line} (h : line ∈ scopeLines statements) :
    line.statement ∈ statements := by
  rw [scopeLines_eq] at h
  exact (line_of_mem h).1

end
end ScriptBackend.Assembly
