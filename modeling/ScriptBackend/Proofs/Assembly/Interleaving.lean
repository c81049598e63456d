import Mathlib.Tactic.FinCases
import ScriptBackend.Proofs.Assembly.Scopes
import ScriptBackend.Proofs.Assembly.Shuffling

/-!
Units whose segments are interleaved in another way. A segment may be written in
one piece or in many, before or after the others: a unit keeps its script as
long as each segment keeps the order of its statements. Only local names would
notice, since they belong to the function that was begun last; so the code,
where functions begin, may have them, and the data may not.
-/
namespace ScriptBackend.Assembly

open Outcome

/-! Code -/

/-- Lists of lines that say the same in the code, whatever comes between. -/
inductive SameThread : List Line → List Line → Prop where
  | nil : SameThread [] []
  | both {line other : Line} {rest others : List Line} (code : line.segment = .code)
      (echoes : line.Echoes other)
      (tail : SameThread rest others) : SameThread (line :: rest) (other :: others)
  | left {line : Line} {rest others : List Line} (unlabelled : line.segment = .code →
      line.label = none)
      (silent : line.instruction? = none) (tail : SameThread rest others) :
      SameThread (line :: rest) others
  | right {other : Line} {rest others : List Line} (unlabelled : other.segment = .code →
      other.label = none)
      (silent : other.instruction? = none) (tail : SameThread rest others) :
      SameThread rest (other :: others)

section

variable {lines others : List Line} {line other : Line}

/-- A line without a place in the code is silent there. -/
theorem silent_of_not_code (h : ¬ (line.segment = .code ∧ line.isLoose = false)) :
    (line.segment = .code → line.label = none) ∧ line.instruction? = none := by
  constructor
  · intro hCode
    have hLoose : line.isLoose = true := by simpa [hCode] using h
    rw [Line.isLoose, Bool.and_eq_true] at hLoose
    exact Option.isNone_iff_eq_none.mp hLoose.1
  · rw [Line.instruction?]
    cases hSays : line.statement.content with
    | instruction mnemonic operands =>
        refine if_neg fun hCode => h ⟨hCode, ?_⟩
        simp [Line.isLoose, hSays, Content.isLoose]
    | _ => rfl

theorem SameThread.append_right {front : List Line}
    (hFront : ∀ other ∈ front, ¬ (other.segment = .code ∧ other.isLoose = false))
    (h : SameThread lines others) :
    SameThread lines (front ++ others) := by
  induction front with
  | nil => exact h
  | cons first rest ih =>
      rw [List.forall_mem_cons] at hFront
      obtain ⟨hLabel, hSilent⟩ := silent_of_not_code hFront.1
      exact .right hLabel hSilent (ih hFront.2)

/-- Lines with the same code, line by line. -/
theorem sameThread_of_linesAt
    (h : List.Forall₂ Line.Echoes (linesAt .code lines) (linesAt .code others)) :
    SameThread lines others := by
  induction lines generalizing others with
  | nil =>
      have hNone : linesAt .code others = [] := List.forall₂_nil_left_iff.mp h
      rw [← List.append_nil others]
      refine .append_right (fun other hOther hPlace => ?_) .nil
      rw [linesAt, List.filter_eq_nil_iff] at hNone
      exact hNone other hOther (by simp [hPlace])
  | cons line rest ih =>
      by_cases hPlace : line.segment = .code ∧ line.isLoose = false
      · rw [linesAt, List.filter_cons_of_pos (by simp [hPlace])] at h
        obtain ⟨other, later, hEchoes, hLater, hOthers⟩ := List.forall₂_cons_left_iff.mp h
        obtain ⟨front, back, rfl, hFront, _, rfl⟩ := List.filter_eq_cons_iff.mp hOthers
        refine .append_right (fun first hFirst hPlace => hFront first hFirst (by simp [hPlace])) ?_
        exact .both hPlace.1 hEchoes (ih hLater)
      · rw [linesAt, List.filter_cons_of_neg (by simpa using hPlace)] at h
        obtain ⟨hLabel, hSilent⟩ := silent_of_not_code hPlace
        exact .left hLabel hSilent (ih h)

theorem Line.Echoes.sameCode (h : line.Echoes other) (hCode : line.segment = .code) :
    line.SameCode other := by
  refine ⟨⟨h.segment, h.scope hCode⟩, .inl ?_⟩
  rw [Line.instruction?, Line.instruction?, h.content, h.segment]

/-- The same code is laid out alike, whatever comes between. -/
theorem SameThread.retraces {symbols : Symbols} {options : Options} {state state' : LayoutState}
    {strings : StringPages} (h : SameThread lines others) (hState : state.Alike state') :
    LayoutState.Retraces symbols options lines others state state' strings := by
  induction h generalizing state state' strings with
  | nil => exact .nil hState
  | both code echoes tail ih =>
      exact .both hState echoes.label (echoes.sameCode code) fun _ _ hNext => ih hNext
  | left unlabelled silent tail ih =>
      exact .left (LayoutState.note_unlabelled unlabelled) silent
        (ih ⟨hState.labels, hState.pending, hState.codeEnd⟩)
  | right unlabelled silent tail ih =>
      exact .right (LayoutState.note_unlabelled unlabelled) silent
        (ih ⟨hState.labels, hState.pending, hState.codeEnd⟩)

end

/-- A unit keeps its script when its lines are shuffled. -/
theorem Assembled.assemble_shuffled {source : NativeSource} {options : Options}
    {first second : List Statement} {script : Script} (unit : Assembled source options first script)
    (h : Shuffled (scopeLines first) (scopeLines second))
    (hNames : (dataNames (scopeLines first)).Nodup) :
    assemble source options second = .ok script := by
  obtain ⟨data, hData, hSymbols, hStrings, hNatives, hImage⟩ := unit.collectData_shuffled h hNames
  have hThread := sameThread_of_linesAt (h.within .code)
  obtain ⟨layout, hLayout, hLabels, hLength, hAligned⟩ :=
    layoutCode_retraced (hThread.retraces ⟨rfl, rfl, rfl⟩) unit.laidOut
  have hCode := emitCode_aligned hAligned hLength unit.emitted
  have hLike : Environment.Like ⟨unit.data.symbols, unit.layout.labels, source, options⟩
      ⟨data.symbols, unit.layout.labels, source, options⟩ := ⟨hSymbols, rfl⟩
  refine Assembled.assemble_eq_ok ⟨data, layout, unit.strings, unit.image, unit.code,
    hData, ?_, ?_, ?_, ?_, unit.linked⟩
  · rw [layoutCode_same hSymbols, hStrings, hLayout]
  · rw [hLength]
    exact unit.reachable
  · rw [hLabels]
    exact hImage
  · rw [hLabels, hNatives, emitCode_same hLike rfl rfl]
    exact hCode

/-! Statements -/

def Line.said (line : Line) : Option String × Content :=
  (line.statement.label, line.statement.content)

/-- Statements, and the same statements with the segments put together in
another way: each segment keeps the order of its statements, so do the
directives that may stand in any segment, and the same block of globals is
chosen. -/
structure Interleaved (first second : List Statement) : Prop where
  within : ∀ segment, (linesAt segment (scopeLines second)).map Line.said =
    (linesAt segment (scopeLines first)).map Line.said
  floating : (scopeLines second).filterMap Line.floating? =
    (scopeLines first).filterMap Line.floating?
  blocks : ∀ block, (∃ other ∈ scopeLines second, other.segment = .globals block) ↔
    ∃ line ∈ scopeLines first, line.segment = .globals block

/-- Statements of which none outside of the code has a local label or mentions a
local name. -/
def NamesGlobally (statements : List Statement) : Prop :=
  ∀ line ∈ scopeLines statements, line.segment ≠ .code →
    (∀ label, line.statement.label = some label → isLocal label = false) ∧
      ∀ name ∈ line.statement.content.mentioned, isLocal name = false

/-- Each of two interleaved units is an interleaving of the other. -/
theorem Interleaved.symm {first second : List Statement} (h : Interleaved first second) :
    Interleaved second first :=
  ⟨fun segment => (h.within segment).symm, h.floating.symm, fun block => (h.blocks block).symm⟩

def Statement.lineIn (current : Segment) (scope : Option String) (statement : Statement) :
    Line where
  statement := statement
  segment := Scoping.segmentOf current statement.content
  label := statement.label.map (qualify scope)
  scope :=
    match statement.label with
    | some name =>
        if !isLocal name && Scoping.segmentOf current statement.content = .code then
        some name else scope
    | none => scope

section

variable {statements others : List Statement} {current : Segment} {scope : Option String}

theorem linesIn_eq_cons (current : Segment) (scope : Option String) (statement : Statement)
    (rest : List Statement) :
    linesIn current scope (statement :: rest) =
      statement.lineIn current scope ::
        linesIn (statement.lineIn current scope).segment
          (statement.lineIn current scope).scope rest :=
  rfl

/-- Only a place in the code changes the scope. -/
theorem Statement.scope_lineIn {statement : Statement}
    (h : ¬ ((statement.lineIn current scope).segment = .code ∧
    (statement.lineIn current scope).isLoose = false)) : (statement.lineIn current scope).scope =
      scope := by
  cases hLabel : statement.label with
  | none => simp [lineIn, hLabel]
  | some name =>
      have hOther : (statement.lineIn current scope).segment ≠ .code := fun hCode =>
        h ⟨hCode, by simp [Line.isLoose, lineIn, hLabel]⟩
      have hSegment : Scoping.segmentOf current statement.content ≠ .code := hOther
      simp [lineIn, hLabel, hSegment]

/-- A statement in the code stands there after code, too. -/
theorem Statement.lineIn_code {statement : Statement}
    (h : (statement.lineIn current scope).segment = .code) :
    statement.lineIn .code scope = statement.lineIn current scope := by
  have hSame : Scoping.segmentOf .code statement.content =
      Scoping.segmentOf current statement.content := by
    have hCode : Scoping.segmentOf current statement.content = .code := h
    rw [hCode]
    unfold Scoping.segmentOf at hCode ⊢
    split at hCode <;> simp_all
  simp only [lineIn, hSame]

/-- The lines of the code are those of its statements alone. -/
theorem linesAt_code (current : Segment) (scope : Option String) (statements : List Statement) :
    linesAt .code (linesIn current scope statements) =
      linesIn .code scope ((linesAt .code (linesIn current scope statements)).map
        Line.statement) := by
  induction statements generalizing current scope with
  | nil => rfl
  | cons statement rest ih =>
      rw [linesIn_eq_cons]
      by_cases hPlace : (statement.lineIn current scope).segment = .code ∧
          (statement.lineIn current scope).isLoose = false
      · have hCons : ∀ lines, linesAt .code (statement.lineIn current scope :: lines) =
            statement.lineIn current scope :: linesAt .code lines := fun lines =>
          List.filter_cons_of_pos (by simp [hPlace])
        have hStatement : (statement.lineIn current scope).statement = statement := rfl
        rw [hCons, List.map_cons, hStatement, linesIn_eq_cons,
          Statement.lineIn_code hPlace.1, hPlace.1, ← ih]
      · have hSkip : ∀ lines, linesAt .code (statement.lineIn current scope :: lines) =
            linesAt .code lines :=
          fun lines => List.filter_cons_of_neg (by simpa using hPlace)
        rw [hSkip, Statement.scope_lineIn hPlace]
        exact ih _ scope

/-- Statements that say the same under the same labels stand in the same scopes. -/
theorem echoes_linesIn (h : List.Forall₂ (fun statement other => other.label = statement.label ∧
    other.content = statement.content) statements others) (current : Segment)
      (scope : Option String) :
    List.Forall₂ Line.Echoes (linesIn current scope statements) (linesIn current scope others) := by
  induction h generalizing current scope with
  | nil => exact .nil
  | @cons statement other rest later hFirst _ ih =>
      obtain ⟨hLabel, hContent⟩ := hFirst
      have hScope : (other.lineIn current scope).scope =
          (statement.lineIn current scope).scope := by
        simp only [Statement.lineIn, hLabel, hContent]
      have hSegment : (other.lineIn current scope).segment =
          (statement.lineIn current scope).segment := by
        simp only [Statement.lineIn, hContent]
      have hBare : (other.lineIn current scope).bare = (statement.lineIn current scope).bare := by
        simp only [Line.bare, Statement.lineIn, hLabel, hContent]
      rw [linesIn_eq_cons, linesIn_eq_cons, hSegment, hScope]
      refine .cons ⟨hBare, fun _ => hScope, fun name _ => ?_⟩ (ih _ _)
      rw [Line.qualify, Line.qualify, hScope]

end

section

variable {source : NativeSource} {options : Options} {first second : List Statement}
  {segment : Segment}

theorem mentioned_of_isLoose {content : Content} (h : content.isLoose = true) :
    content.mentioned = [] := by
  cases content with
  | directive directive => cases directive <;> first | rfl | cases h
  | _ => rfl

theorem label_of_not_isLocal {line : Line} {statements : List Statement}
    (hLine : line ∈ scopeLines statements)
    (h : ∀ label, line.statement.label = some label → isLocal label = false) :
    line.label = line.statement.label := by
  rw [scopeLines_eq] at hLine
  rw [(line_of_mem hLine).2]
  cases hLabel : line.statement.label with
  | none => rfl
  | some label => exact congrArg some (qualify_of_not_isLocal (h label hLabel) line.scope)

namespace Interleaved

/-- The lines of a segment say the same in both units, in the same order. -/
theorem forall₂_said (h : Interleaved first second) (segment : Segment) :
    List.Forall₂ (fun line other => line.said = other.said) (linesAt segment (scopeLines first))
      (linesAt segment (scopeLines second)) := by
  have hSame : List.Forall₂ (· = ·) ((linesAt segment (scopeLines first)).map Line.said)
      ((linesAt segment (scopeLines second)).map Line.said) := by
    rw [h.within segment, List.forall₂_eq_eq_eq]
  rwa [List.forall₂_map_left_iff, List.forall₂_map_right_iff] at hSame

/-- The code of both units is the same, line by line, with the same functions
around local labels. -/
theorem echoes_code (h : Interleaved first second) :
    List.Forall₂ Line.Echoes (linesAt .code (scopeLines first))
      (linesAt .code (scopeLines second)) := by
  have hSaid := h.forall₂_said .code
  rw [scopeLines_eq, scopeLines_eq] at hSaid ⊢
  rw [linesAt_code, linesAt_code _ _ second]
  refine echoes_linesIn ?_ _ _
  rw [List.forall₂_map_left_iff, List.forall₂_map_right_iff]
  refine hSaid.imp fun line other hBoth => ?_
  rw [Line.said, Line.said, Prod.mk.injEq] at hBoth
  exact ⟨hBoth.1.symm, hBoth.2.symm⟩

/-- Outside of the code, where no name is local, the scopes do not matter. -/
theorem echoes_data (h : Interleaved first second) (hGlobal : NamesGlobally first)
    (hSegment : segment ≠ .code) :
    List.Forall₂ Line.Echoes (linesAt segment (scopeLines first))
      (linesAt segment (scopeLines second)) := by
  have hSaid := h.forall₂_said segment
  refine List.forall₂_iff_get.mpr ⟨hSaid.length_eq, fun i hi hOther => ?_⟩
  have hBoth := hSaid.get hi hOther
  obtain ⟨hLine, hPlace, _⟩ :=
    mem_linesAt.mp (List.get_mem (linesAt segment (scopeLines first)) ⟨i, hi⟩)
  obtain ⟨hCopy, hSame, _⟩ :=
    mem_linesAt.mp (List.get_mem (linesAt segment (scopeLines second)) ⟨i, hOther⟩)
  generalize (linesAt segment (scopeLines first)).get ⟨i, hi⟩ = line at hBoth hLine hPlace ⊢
  generalize (linesAt segment (scopeLines second)).get ⟨i, hOther⟩ = other at hBoth hCopy hSame ⊢
  rw [Line.said, Line.said, Prod.mk.injEq] at hBoth
  obtain ⟨hLabel, hContent⟩ := hBoth
  obtain ⟨hLabels, hNames⟩ := hGlobal line hLine (hPlace ▸ hSegment)
  refine ⟨?_, fun hCode => absurd (hPlace.symm.trans hCode) hSegment, fun name hName => ?_⟩
  · rw [Line.bare, Line.bare, label_of_not_isLocal hLine hLabels,
      label_of_not_isLocal hCopy (fun label hOwn => hLabels label (hLabel.trans hOwn)), hLabel,
      hContent, hPlace, hSame]
  · have hSame := qualify_of_not_isLocal (hNames name hName)
    rw [Line.qualify, Line.qualify, hSame, hSame]

/-- Interleaved units are shuffled when names of data are global, since local
ones depend on the function before them. -/
theorem shuffled (h : Interleaved first second) (hGlobal : NamesGlobally first) :
    Shuffled (scopeLines first) (scopeLines second) where
  within segment := by
    by_cases hSegment : segment = .code
    · subst hSegment
      exact h.echoes_code
    · exact h.echoes_data hGlobal hSegment
  floating := h.floating
  blocks := h.blocks

/-- Names of data are global in both units or in none. -/
theorem namesGlobally (h : Interleaved first second) (hGlobal : NamesGlobally first) :
    NamesGlobally second := by
  intro other hOther hSegment
  cases hLoose : other.isLoose with
  | true =>
      rw [Line.isLoose, Bool.and_eq_true, Option.isNone_iff_eq_none] at hLoose
      obtain ⟨hLabel, hContent⟩ := hLoose
      rw [scopeLines_eq] at hOther
      rw [(line_of_mem hOther).2, Option.map_eq_none_iff] at hLabel
      refine ⟨fun label hOwn => ?_, fun name hName => ?_⟩
      · rw [hLabel] at hOwn
        cases hOwn
      · rw [mentioned_of_isLoose hContent] at hName
        cases hName
  | false =>
      have hMem : other.said ∈ (linesAt other.segment (scopeLines second)).map Line.said :=
        List.mem_map_of_mem (mem_linesAt.mpr ⟨hOther, rfl, hLoose⟩)
      rw [h.within] at hMem
      obtain ⟨line, hLine, hBoth⟩ := List.mem_map.mp hMem
      obtain ⟨hLine, hPlace, _⟩ := mem_linesAt.mp hLine
      rw [Line.said, Line.said, Prod.mk.injEq] at hBoth
      rw [← hBoth.1, ← hBoth.2]
      exact hGlobal line hLine (hPlace ▸ hSegment)

end Interleaved

/-- A unit keeps its script when its segments are put together in another way. -/
theorem assemble_interleaved (h : Interleaved first second)
    (hNames : (dataNames (scopeLines first)).Nodup)
    (hGlobal : NamesGlobally first) (script : Script) :
    assemble source options first = .ok script ↔ assemble source options second = .ok script := by
  have hShuffled := h.shuffled hGlobal
  constructor
  · intro hScript
    obtain ⟨unit⟩ := assemble_ok hScript
    exact unit.assemble_shuffled hShuffled hNames
  · intro hScript
    obtain ⟨unit⟩ := assemble_ok hScript
    have hOtherNames := (hShuffled.perm_definitions.map Definition.name).nodup_iff.mp hNames
    exact unit.assemble_shuffled (h.symm.shuffled (h.namesGlobally hGlobal)) hOtherNames

end

/-- The unit that calls natives with its code in front, and the segments of its
data in another order behind it. -/
def codeFirstUnit : List Statement := callCode ++ [
  .ofDirective (.segment .statics),
  { Statement.ofDirective (.ints [.name "main", .int 7]) with label := some "entry" },
  .ofDirective (.segment .strings),
  { Statement.ofDirective (.text "hello") with label := some "greeting" },
  .ofDirective (.const "COUNT" (.int 1)),
  .ofDirective (.segment .natives),
  { Statement.ofDirective (.native 0x4EDE34FBADD967A6) with label := some "print" },
  { Statement.ofDirective (.native 0x4EDE34FBADD967A5) with label := some "wait" }]

theorem assemble_interleaved_codeFirst :
    Interleaved callUnit codeFirstUnit ∧ (dataNames (scopeLines callUnit)).Nodup ∧
    NamesGlobally callUnit ∧
      ∃ script, assemble NativeDatabase.empty .default callUnit = .ok script ∧
        assemble NativeDatabase.empty .default codeFirstUnit = .ok script := by
  have hInterleaved : Interleaved callUnit codeFirstUnit := by
    refine ⟨fun segment => by cases segment <;> rfl, rfl, fun block => ?_⟩
    constructor
    · rintro ⟨other, hOther, hSegment⟩
      fin_cases hOther <;> cases hSegment
    · rintro ⟨line, hLine, hSegment⟩
      fin_cases hLine <;> cases hSegment
  have hNames : (dataNames (scopeLines callUnit)).Nodup := by decide
  have hGlobal : NamesGlobally callUnit := by
    have hAll : ∀ line ∈ scopeLines callUnit, (line.statement.label.all (!isLocal ·)) = true ∧
        ∀ name ∈ line.statement.content.mentioned, isLocal name = false := by decide +kernel
    intro line hLine _
    obtain ⟨hLabel, hMentioned⟩ := hAll line hLine
    exact ⟨fun label hOwn => by simpa [hOwn] using hLabel, hMentioned⟩
  obtain ⟨script, hScript, _⟩ := assemble_call
  exact ⟨hInterleaved, hNames, hGlobal, script, hScript,
    (assemble_interleaved hInterleaved hNames hGlobal script).mp hScript⟩

end ScriptBackend.Assembly
