import ScriptBackend.Proofs.Assembly.DataWords
import ScriptBackend.Proofs.Lowering.FunctionLines
import ScriptBackend.Proofs.Program.Slots

/-!
Where the words of a compiled program come from. Each section of the data asks
for the words of its variables, one variable behind the other; the identity, the
natives and the code ask for none.
-/
namespace ScriptBackend.Lowering

open ScriptBackend.Assembly Outcome

/-- Where a word of a variable comes from: from nowhere if it is zero, otherwise
from an operand of its kind on a line outside of functions. -/
inductive ComesFrom : Datum → Option WordSource → Prop where
  | zero {word : Datum} (zero : word.isZero = true) : ComesFrom word none
  | float {line : Line} (value : Binary32) :
      ComesFrom (.float value) (some ⟨line, .float, .float value⟩)
  | other {line : Line} {word : Datum} (integral : ∀ value, word ≠ .float value)
      (scope : line.scope = none) : ComesFrom word (some ⟨line, .int, word.operand⟩)

/-- Where the words come from that statements in a segment ask for. -/
def codeSources (segment : Segment) (code : Code) : List (Option WordSource) :=
  code.flatMap fun statement => (lineOf segment none statement).wordSources

def variableSources (setting : Setting) (segment : Segment) (id : Nat) : List (Option WordSource) :=
  match variableCode setting id with
  | .ok code => codeSources segment code
  | .error _ => []

section Variables

variable {setting : Setting} {segment : Segment}

@[simp] theorem codeSources_cons (first : Statement) (rest : Code) :
    codeSources segment (first :: rest) =
      (lineOf segment none first).wordSources ++ codeSources segment rest :=
  rfl

theorem codeSources_flatten (parts : List Code) :
    codeSources segment parts.flatten = (parts.map (codeSources segment)).flatten := by
  induction parts with
  | nil => rfl
  | cons first rest ih =>
      rw [List.flatten_cons, List.map_cons, List.flatten_cons, ← ih]
      exact List.flatMap_append

/-- A run that has room in a section comes from its directive. A longer one is
cut off, and does not fit. -/
theorem DataRun.comesFrom {run : List Datum} {directive : Directive} {line : Line}
    (h : DataRun run directive) (hScope : line.scope = none)
    (hRoom : (directive.wordSources line).length < UInt32.size - 1) :
    List.Forall₂ ComesFrom run (directive.wordSources line) := by
  cases h with
  | zeros all =>
      have hCount : (UInt32.ofNatClamp run.length).toNat = run.length := by
        by_cases hLess : run.length < UInt32.size
        · exact UInt32.toNat_ofNatClamp_of_lt hLess
        · rw [Directive.wordSources, List.length_replicate,
            UInt32.toNat_ofNatClamp_of_le (Nat.not_lt.mp hLess)] at hRoom
          exact absurd hRoom (Nat.lt_irrefl _)
      rw [Directive.wordSources, hCount]
      clear hRoom hCount
      induction run with
      | nil => exact .nil
      | cons first rest ih =>
          rw [List.forall_mem_cons] at all
          exact .cons (.zero all.1) (ih all.2)
  | floats all =>
      rw [Directive.wordSources, List.map_map, List.forall₂_map_right_iff, List.forall₂_same]
      intro word hWord
      obtain ⟨value, rfl⟩ := all word hWord
      exact .float value
  | ints all =>
      rw [Directive.wordSources, List.map_map, List.forall₂_map_right_iff, List.forall₂_same]
      exact fun word hWord => .other (all word hWord) hScope

/-- The words of runs come from the statements of their directives. -/
theorem comesFrom_runs {runs : List (List Datum)} {directives : List Directive} {code : Code}
    (h : List.Forall₂ DataRun runs directives)
    (hContents : code.map Statement.content = directives.map .directive)
    (hRoom : (codeSources segment code).length < UInt32.size - 1) :
    List.Forall₂ ComesFrom runs.flatten (codeSources segment code) := by
  induction h generalizing code with
  | nil =>
      cases List.map_eq_nil_iff.mp hContents
      exact .nil
  | @cons run directive _ _ hFirst _ ih =>
      obtain ⟨first, rest, rfl, hContent, hRest⟩ := List.map_eq_cons_iff.mp hContents
      have hSources : (lineOf segment none first).wordSources =
          directive.wordSources (lineOf segment none first) := by
        simp only [Line.wordSources, lineOf, hContent]
      rw [codeSources_cons, List.length_append] at hRoom
      rw [codeSources_cons, List.flatten_cons]
      refine List.rel_append ?_ (ih hRest (by omega))
      rw [hSources] at hRoom ⊢
      exact hFirst.comesFrom rfl (by omega)

/-- The words of a variable come from its statements. -/
theorem comesFrom_variableSources {id : Nat} {code : Code} (h : variableCode setting id = .ok code)
    (hRoom : (variableSources setting segment id).length < UInt32.size - 1) :
    ∃ declared words, setting.program.vars[id]? = some declared ∧
      variableData setting declared = .ok words ∧
      List.Forall₂ ComesFrom words (variableSources setting segment id) := by
  obtain ⟨declared, words, hDeclared, hWords, hContents, _⟩ := variableCode_ok h
  obtain ⟨runs, rfl, hRuns⟩ := exists_runs words
  have hSources : variableSources setting segment id = codeSources segment code := by
    rw [variableSources, h]
  rw [hSources] at hRoom ⊢
  refine ⟨declared, _, ?_, hWords, comesFrom_runs hRuns hContents hRoom⟩
  unfold Setting.declaration at hDeclared
  split at hDeclared
  · next hFound =>
      cases hDeclared
      exact hFound
  · cases hDeclared

/-- The words of a data segment come from its variables. -/
theorem codeSources_dataSegment {ids : List Nat} {code : Code}
    (h : dataSegment setting segment ids = .ok code) :
    codeSources segment code = (ids.map (variableSources setting segment)).flatten ∧
      ∀ id ∈ ids, ∃ part, variableCode setting id = .ok part := by
  rcases dataSegment_ok h with ⟨rfl, rfl⟩ | ⟨data, hData, rfl⟩
  · exact ⟨rfl, by simp⟩
  · have hParts := forall₂_of_mapM hData
    have hDirective : (lineOf segment none (.ofDirective (.segment segment))).wordSources = [] :=
      rfl
    rw [codeSources_cons, hDirective, List.nil_append, codeSources_flatten]
    clear h hData
    induction hParts with
    | nil => exact ⟨rfl, by simp⟩
    | @cons id part _ _ hFirst _ ih =>
        have hSources : variableSources setting segment id = codeSources segment part := by
          rw [variableSources, hFirst]
        refine ⟨?_, List.forall_mem_cons.mpr ⟨⟨part, hFirst⟩, ih.2⟩⟩
        rw [List.map_cons, List.flatten_cons, List.map_cons, List.flatten_cons, ih.1, hSources]

end Variables

section Code

/-- Lines that stand in no section of the data ask for no words. -/
theorem wordSources_eq_nil {region : Region} {lines : List Line}
    (h : ∀ line ∈ lines, line.segment.region? ≠ some region) : wordSources region lines = [] := by
  refine List.flatMap_eq_nil_iff.mpr fun line hLine => ?_
  rw [if_neg (h line hLine)]

/-- The words of a region are those that its segment declares. -/
theorem wordSources_section (region : Region) (segment : Segment) (code : Code) :
    wordSources region (code.map (lineOf segment none)) =
      if segment.region? = some region then codeSources segment code else [] := by
  unfold wordSources codeSources
  rw [List.flatMap_map]
  split
  · next hRegion => simp [lineOf, hRegion]
  · next hRegion => simp [lineOf, hRegion]

/-- A statement with a name that is not local is read in the scope of that name. -/
theorem lineOf_mem_linesIn {code : Code} (h : ∀ statement ∈ code, ∀ directive,
    statement.content ≠ .directive directive) {statement :
      Statement} (hStatement : statement ∈ code)
    {name : String} (hLabel : statement.label = some name) (hName : isLocal name = false)
    (scope : Option String) : lineOf .code (some name) statement ∈ linesIn .code scope code := by
  induction code generalizing scope with
  | nil => cases hStatement
  | cons first rest ih =>
      rw [List.forall_mem_cons] at h
      rcases List.mem_cons.mp hStatement with rfl | hLater
      · rw [linesIn_function hLabel hName fun other => h.1 _]
        exact List.mem_cons_self ..
      · have hSegment : Scoping.segmentOf .code first.content = .code :=
          segmentOf_of_ne fun other => h.1 _
        rw [linesIn]
        refine List.mem_append_right _ ?_
        simp only [Scoping.add, hSegment]
        exact ih h.2 hLater _

end Code

namespace CompiledUnit

variable {setting : Setting} {unit : CompiledUnit setting}

def segmentOf (unit : CompiledUnit setting) : Region → Segment
  | .statics => .statics
  | .arguments => .arguments
  | _ => unit.globalsSegment

def dataOf (unit : CompiledUnit setting) : Region → Code
  | .statics => unit.statics
  | .arguments => unit.arguments
  | .globals => unit.globals
  | _ => []

/-- The words of a region come from its section. -/
theorem wordSources_dataOf (unit : CompiledUnit setting) (region : Region) :
    wordSources region (scopeLines unit.statements) =
      codeSources (unit.segmentOf region) (unit.dataOf region) := by
  have hHeader : wordSources region (unit.header.map (lineOf .code none)) = [] := by
    refine wordSources_eq_nil fun line hLine => ?_
    obtain ⟨_, _, rfl⟩ := List.mem_map.mp hLine
    exact nofun
  have hRest : wordSources region (unit.natives.map (lineOf .natives none) ++
      lineOf .code none (.ofDirective (.segment .code)) :: linesIn .code none unit.code) = [] := by
    refine wordSources_eq_nil fun line hLine => ?_
    rw [List.mem_append, List.mem_cons] at hLine
    rcases hLine with hNative | rfl | hCode
    · obtain ⟨_, _, rfl⟩ := List.mem_map.mp hNative
      exact nofun
    · exact nofun
    · rw [segment_linesIn unit.ne_directive none line hCode]
      exact nofun
  rw [unit.scopeLines_statements]
  simp only [wordSources_append, wordSources_section, hHeader, hRest]
  cases region <;> simp [Segment.region?, globalsSegment, segmentOf, dataOf, codeSources]

/-- The section of a region is the data segment of its variables. -/
theorem dataSegment_dataOf (unit : CompiledUnit setting)
    (hLists : setting.slots.ListsData setting.program) {region : Region}
    (hRegion : region.isData = true) :
    dataSegment setting (unit.segmentOf region) (Slots.inRegion setting.program region) =
      .ok (unit.dataOf region) := by
  cases region with
  | statics => exact hLists.statics_eq ▸ unit.statics_ok
  | arguments => exact hLists.arguments_eq ▸ unit.arguments_ok
  | globals =>
      cases hBlock : setting.program.globalsBlock with
      | some block =>
          have hSegment : unit.segmentOf .globals = .globals block := by
            simp [segmentOf, globalsSegment, hBlock]
          rw [hSegment]
          exact hLists.globals_eq ▸ unit.globals_ok block hBlock
      | none =>
          rcases hLists.fits with hNone | ⟨block, hSome, _⟩
          · rw [hNone, dataOf, unit.no_globals hBlock]
            rfl
          · rw [hBlock] at hSome
            cases hSome
  | locals => cases hRegion
  | parameters => cases hRegion

/-- The words of a region come from its variables, in the order of their
declaration. -/
theorem wordSources_region (unit : CompiledUnit setting)
    (hLists : setting.slots.ListsData setting.program) {region : Region}
    (hRegion : region.isData = true) :
    wordSources region (scopeLines unit.statements) =
      ((Slots.inRegion setting.program region).map
        (variableSources setting (unit.segmentOf region))).flatten :=
  (unit.wordSources_dataOf region).trans
    (codeSources_dataSegment (unit.dataSegment_dataOf hLists hRegion)).1

/-- The words of a variable come from its part of the section of its region, and
are as many as its type has. -/
theorem comesFrom_variable (unit : CompiledUnit setting)
    (hPlaces : setting.slots.PlacesData setting.program setting.sizes)
    (hSizes : setting.sizes = .ofStructs setting.program.structs) {region : Region}
    (hRegion : region.isData = true)
    (hRoom : (wordSources region (scopeLines unit.statements)).length < UInt32.size - 1) {id : Nat}
    (hId : id ∈ Slots.inRegion setting.program region) {declared : Variable}
    (hDeclared : setting.program.vars[id]? = some declared)
    (hSize : declared.ty.HasSize setting.program.structs) :
    ∃ words, initialWords setting declared.ty declared.initializer = .ok words ∧
      words.length = setting.sizes.of declared.ty ∧ (∀ word ∈ words, ∀ text, word ≠ .text text) ∧
      List.Forall₂ ComesFrom words (variableSources setting (unit.segmentOf region) id) := by
  obtain ⟨code, hCode⟩ :=
    (codeSources_dataSegment (unit.dataSegment_dataOf hPlaces.toListsData hRegion)).2 id hId
  have hLess : (variableSources setting (unit.segmentOf region) id).length < UInt32.size - 1 := by
    refine Nat.lt_of_le_of_lt ?_ hRoom
    rw [unit.wordSources_region hPlaces.toListsData hRegion]
    exact (List.sublist_flatten_of_mem (List.mem_map_of_mem hId)).length_le
  obtain ⟨same, words, hSame, hWords, hComes⟩ := comesFrom_variableSources hCode hLess
  rw [hDeclared, Option.some.injEq] at hSame
  subst hSame
  obtain ⟨hInitial, hNoText⟩ := variableData_ok hWords
  exact ⟨words, hInitial, length_initialWords hSizes hSize hInitial, hNoText, hComes⟩

end CompiledUnit
end ScriptBackend.Lowering
