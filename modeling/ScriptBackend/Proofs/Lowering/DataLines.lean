import Mathlib.Data.List.Chain
import ScriptBackend.Lowering.DataSegment
import ScriptBackend.Proofs.Assembly.Scopes
import ScriptBackend.Proofs.Lowering.Data

/-!
The data of a program as statements: every variable becomes runs of words of one
kind, and every run one directive.
-/
namespace ScriptBackend.Lowering

open ScriptBackend.Assembly Outcome

/-- A directive for a run of words of one kind. -/
inductive DataRun : List Datum → Directive → Prop where
  | zeros {run : List Datum} (all : ∀ word ∈ run, word.isZero = true) :
      DataRun run (.zero (UInt32.ofNatClamp run.length))
  | floats {run : List Datum} (all : ∀ word ∈ run, ∃ value, word = .float value) :
      DataRun run (.floats (run.map Datum.operand))
  | ints {run : List Datum} (all : ∀ word ∈ run, ∀ value, word ≠ .float value) :
      DataRun run (.ints (run.map Datum.operand))

section Runs

theorem kind_eq_of_isChain {first : Datum} {rest : List Datum}
    (h : (first :: rest).IsChain fun a b => (DataKind.of a == DataKind.of b) = true) :
    ∀ word ∈ first :: rest, DataKind.of word = DataKind.of first := by
  have hChain : (first :: rest).IsChain fun a b => DataKind.of b = DataKind.of a :=
    h.imp fun _ _ hSame => (beq_iff_eq.mp hSame).symm
  have : IsTrans Datum fun a b => DataKind.of b = DataKind.of a :=
    ⟨fun _ _ _ hFirst hSecond => hSecond.trans hFirst⟩
  have hPairs := List.pairwise_cons.mp (List.isChain_iff_pairwise.mp hChain)
  exact List.forall_mem_cons.mpr ⟨rfl, hPairs.1⟩

theorem DataKind.of_eq_zero {word : Datum} (h : DataKind.of word = .zero) : word.isZero = true := by
  unfold DataKind.of at h
  split at h
  · assumption
  · split at h <;> cases h

theorem DataKind.of_eq_float {word : Datum} (h : DataKind.of word = .float) :
    ∃ value, word = .float value := by
  unfold DataKind.of at h
  split at h
  · cases h
  · split at h
    · exact ⟨_, rfl⟩
    · cases h

theorem DataKind.of_eq_int {word : Datum} (h : DataKind.of word = .int) :
    ∀ value, word ≠ .float value := by
  unfold DataKind.of at h
  split at h
  · cases h
  · split at h
    · cases h
    · assumption

/-- Words of one kind are declared by one directive. -/
theorem dataRun_runDirective {run : List Datum} (hSome : run ≠ [])
    (h : run.IsChain fun a b => (DataKind.of a == DataKind.of b) = true) :
    DataRun run (runDirective run) := by
  cases run with
  | nil => exact absurd rfl hSome
  | cons first rest =>
      have hKind := kind_eq_of_isChain h
      cases hFirst : DataKind.of first with
      | zero =>
          rw [hFirst] at hKind
          simpa [runDirective, hFirst] using
            DataRun.zeros fun word hWord => DataKind.of_eq_zero (hKind word hWord)
      | float =>
          rw [hFirst] at hKind
          simpa [runDirective, hFirst] using
            DataRun.floats fun word hWord => DataKind.of_eq_float (hKind word hWord)
      | int =>
          rw [hFirst] at hKind
          simpa [runDirective, hFirst] using
            DataRun.ints fun word hWord => DataKind.of_eq_int (hKind word hWord)

/-- Words are cut into runs, and each run is a directive. -/
theorem exists_runs (words : List Datum) :
    ∃ runs : List (List Datum), runs.flatten = words ∧
      List.Forall₂ DataRun runs (dataDirectives words) := by
  refine ⟨words.splitBy fun a b => DataKind.of a == DataKind.of b, List.flatten_splitBy _ words, ?_⟩
  unfold dataDirectives
  rw [List.forall₂_map_right_iff]
  exact List.forall₂_same.mpr fun run hRun =>
    dataRun_runDirective (List.ne_nil_of_mem_splitBy hRun) (List.isChain_of_mem_splitBy hRun)

end Runs

section Segments

variable {setting : Setting}

/-- Statements that are directives, one of them with a comment perhaps. -/
theorem contents_commentFirst (comment : String) (directives : List Directive) :
    (commentFirst comment (directives.map Statement.ofDirective)).map Statement.content =
      directives.map Content.directive := by
  cases directives with
  | nil => rfl
  | cons first rest => simp [commentFirst, commented, Statement.ofDirective]

theorem labels_commentFirst (comment : String) (directives : List Directive) :
    ∀ statement ∈ commentFirst comment (directives.map Statement.ofDirective),
      statement.label = none := by
  intro statement hStatement
  cases directives with
  | nil => cases hStatement
  | cons first rest =>
      rcases List.mem_cons.mp hStatement with rfl | hRest
      · rfl
      · obtain ⟨directive, _, rfl⟩ := List.mem_map.mp hRest
        rfl

/-- The words of a variable hold no text. -/
theorem variableData_ok {declared : Variable} {words : List Datum}
    (h : variableData setting declared = .ok words) :
    initialWords setting declared.ty declared.initializer = .ok words ∧
      ∀ word ∈ words, ∀ text, word ≠ .text text := by
  obtain ⟨found, hFound, h⟩ := bind_eq_ok.mp h
  split at h
  · cases h
  · next hNone =>
      cases h
      refine ⟨hFound, ?_⟩
      rintro word hWord text rfl
      exact hNone (List.any_eq_true.mpr ⟨_, hWord, rfl⟩)

/-- The statements of a variable are directives for its words. -/
theorem variableCode_ok {id : Nat} {code : Code} (h : variableCode setting id = .ok code) :
    ∃ declared words, setting.declaration id = .ok declared ∧
      variableData setting declared = .ok words ∧
      code.map Statement.content = (dataDirectives words).map .directive ∧
      ∀ statement ∈ code, statement.label = none := by
  obtain ⟨declared, hDeclared, h⟩ := bind_eq_ok.mp h
  obtain ⟨words, hWords, h⟩ := bind_eq_ok.mp h
  cases h
  exact ⟨declared, words, hDeclared, hWords, contents_commentFirst .., labels_commentFirst _ _⟩

/-- Every statement of a variable holds a run of its words. -/
theorem exists_run_of_mem {id : Nat} {code : Code} (h : variableCode setting id = .ok code)
    {statement : Statement} (hStatement : statement ∈ code) :
    statement.label = none ∧ ∃ declared words run directive,
      variableData setting declared = .ok words ∧ run ⊆ words ∧ DataRun run directive ∧
      statement.content = .directive directive := by
  obtain ⟨declared, words, _, hWords, hContents, hLabels⟩ := variableCode_ok h
  have hContent : statement.content ∈ (dataDirectives words).map Content.directive := by
    rw [← hContents]
    exact List.mem_map_of_mem hStatement
  obtain ⟨directive, hDirective, hSame⟩ := List.mem_map.mp hContent
  obtain ⟨runs, hRuns, hAll⟩ := exists_runs words
  obtain ⟨i, hi, rfl⟩ := List.getElem_of_mem hDirective
  have hLength : i < runs.length := hAll.length_eq ▸ hi
  refine ⟨hLabels statement hStatement, declared, words, runs[i], _, hWords, ?_,
    hAll.get hLength hi, hSame.symm⟩
  rw [← hRuns]
  exact fun word hWord => List.mem_flatten.mpr ⟨_, List.getElem_mem hLength, hWord⟩

theorem DataRun.ne_segment {run : List Datum} {directive : Directive} (h : DataRun run directive)
    (segment : Segment) : directive ≠ .segment segment := by
  rintro rfl
  cases h

/-- A data segment is nothing, or the directive that begins it and the
statements of its variables. -/
theorem dataSegment_ok {segment : Segment} {ids : List Nat} {code : Code}
    (h : dataSegment setting segment ids = .ok code) :
    (ids = [] ∧ code = []) ∨ ∃ data, ids.mapM (variableCode setting) = .ok data ∧
      code = .ofDirective (.segment segment) :: data.flatten := by
  unfold dataSegment at h
  split at h
  · next hNone =>
      cases h
      exact .inl ⟨List.isEmpty_iff.mp hNone, rfl⟩
  · obtain ⟨data, hData, h⟩ := bind_eq_ok.mp h
    cases h
    exact .inr ⟨data, hData, rfl⟩

/-- A statement in a data segment that is not the directive which begins it is
one of a variable. -/
theorem mem_dataSegment {segment : Segment} {ids : List Nat} {code : Code}
    (h : dataSegment setting segment ids = .ok code) {statement : Statement}
    (hStatement : statement ∈ code) :
    statement = .ofDirective (.segment segment) ∨
      ∃ id part, variableCode setting id = .ok part ∧ statement ∈ part := by
  rcases dataSegment_ok h with ⟨_, rfl⟩ | ⟨data, hData, rfl⟩
  · cases hStatement
  · rcases List.mem_cons.mp hStatement with rfl | hLater
    · exact .inl rfl
    · obtain ⟨part, hPart, hMem⟩ := List.mem_flatten.mp hLater
      obtain ⟨id, _, hId⟩ := exists_of_mem_mapM hData hPart
      exact .inr ⟨id, part, hId, hMem⟩

/-- A data segment stands in one segment. -/
theorem inSegment_dataSegment {segment : Segment} {ids : List Nat} {code : Code}
    (h : dataSegment setting segment ids = .ok code) : InSegment segment code := by
  rcases dataSegment_ok h with ⟨_, rfl⟩ | ⟨data, hData, rfl⟩
  · exact .inl rfl
  · refine .inr ⟨data.flatten, rfl, fun statement hStatement => ?_⟩
    obtain ⟨part, hPart, hMem⟩ := List.mem_flatten.mp hStatement
    obtain ⟨id, _, hId⟩ := exists_of_mem_mapM hData hPart
    obtain ⟨hLabel, _, _, _, directive, _, _, hRun, hContent⟩ := exists_run_of_mem hId hMem
    refine ⟨fun other hOther => ?_, fun label hSome => ?_⟩
    · rw [hContent] at hOther
      exact hRun.ne_segment other (Content.directive.inj hOther)
    · rw [hLabel] at hSome
      cases hSome

end Segments
end ScriptBackend.Lowering
