import ScriptBackend.Proofs.Assembly.DataChannels
import ScriptBackend.Proofs.Assembly.Lookups
import ScriptBackend.Proofs.Assembly.Rewriting
import ScriptBackend.Proofs.Assembly.WordLabels

/-!
Lines of several segments in another order. As long as each segment keeps the
order of its own lines, and so do the directives that may stand anywhere, the
data of a unit has the same words under the same names: a line changes nothing
in a segment in which it does not stand.
-/
namespace ScriptBackend.Assembly

open Outcome

/-! Lines and their segments -/

/-- What takes no place in a segment: nothing at all, or a directive that may
stand in any segment. -/
def Content.isLoose : Content → Bool
  | .empty => true
  | .directive (.segment _) | .directive (.scriptName _) | .directive (.scriptHash _) | .directive
      (.const _ _) => true
  | _ => false

def Line.isLoose (line : Line) : Bool :=
  line.label.isNone && line.statement.content.isLoose

def linesAt (segment : Segment) (lines : List Line) : List Line :=
  lines.filter fun line => line.segment = segment && !line.isLoose

/-- A line without its number, its comment and its scope. -/
def Line.bare (line : Line) : Line :=
  ⟨⟨0, none, line.statement.content, none⟩, line.segment, line.label, none⟩

def Directive.words : Directive → List Operand
  | .ints operands | .floats operands => operands
  | _ => []

def Content.mentioned : Content → List String
  | .directive said => said.words.filterMap Operand.mentioned?
  | _ => []

/-- Lines that say the same in the same segment, and in which the names that
count have the same full names. -/
structure Line.Echoes (line other : Line) : Prop where
  bare : other.bare = line.bare
  scope : line.segment = .code → other.scope = line.scope
  names : ∀ name ∈ line.statement.content.mentioned, other.qualify name = line.qualify name

section

variable {line other : Line}

/-- What a line says, in which segment, and under which label. -/
theorem Line.of_bare_eq (h : other.bare = line.bare) :
    other.segment = line.segment ∧ other.label = line.label ∧
    other.statement.content = line.statement.content := by
  simp only [bare, mk.injEq, Statement.mk.injEq, true_and, and_true] at h
  exact ⟨h.2.1, h.2.2, h.1⟩

theorem Line.Echoes.segment (h : line.Echoes other) : other.segment = line.segment :=
  (of_bare_eq h.bare).1

theorem Line.Echoes.label (h : line.Echoes other) : other.label = line.label :=
  (of_bare_eq h.bare).2.1

theorem Line.Echoes.content (h : line.Echoes other) :
    other.statement.content = line.statement.content :=
  (of_bare_eq h.bare).2.2

end

/-- Lines of several segments, and the same lines with the segments put together
in another way. -/
structure Shuffled (lines others : List Line) : Prop where
  within : ∀ segment, List.Forall₂ Line.Echoes (linesAt segment lines) (linesAt segment others)
  floating : others.filterMap Line.floating? = lines.filterMap Line.floating?
  blocks : ∀ block, (∃ other ∈ others, other.segment = .globals block) ↔
    ∃ line ∈ lines, line.segment = .globals block

section

variable {lines others : List Line} {line other : Line} {segment : Segment} {region : Region}

/-- The lines at a place are those of its segment that are not loose. -/
theorem mem_linesAt : line ∈ linesAt segment lines ↔
    line ∈ lines ∧ line.segment = segment ∧ line.isLoose = false := by
  simp [linesAt]

theorem Line.isPlaced_bare (line : Line) : line.bare.isPlaced = line.isPlaced :=
  rfl

/-- Lines that have nothing to give may go. -/
theorem flatMap_filter {α : Type} {keeps : Line → Bool} {pick : Line → List α}
    (hOnly : ∀ line ∈ lines, pick line = [] ∨ keeps line = true) :
    (lines.filter keeps).flatMap pick = lines.flatMap pick := by
  induction lines with
  | nil => rfl
  | cons line rest ih =>
      rw [List.forall_mem_cons] at hOnly
      rw [List.flatMap_cons, ← ih hOnly.2, List.filter_cons]
      split
      · exact List.flatMap_cons
      · next hOther =>
          rw [hOnly.1.resolve_right hOther]
          rfl

/-- What only lines with a place in one segment have to give comes from the
lines of that segment. -/
theorem flatMap_linesAt {α : Type} {pick : Line → List α}
    (hOnly : ∀ line ∈ lines, pick line = [] ∨ line.segment = segment ∧ line.isLoose = false) :
    (linesAt segment lines).flatMap pick = lines.flatMap pick :=
  flatMap_filter fun line hLine => (hOnly line hLine).imp_right fun hPlace => by simp [hPlace]

/-- Whatever does not look at numbers and scopes of lines may be collected from
the bare lines. -/
theorem flatMap_bare {α : Type} {pick : Line → List α}
    (hBare : ∀ line : Line, pick line.bare = pick line) :
    (lines.map Line.bare).flatMap pick = lines.flatMap pick := by
  rw [List.flatMap_map]
  exact List.flatMap_congr fun line _ => hBare line

/-- Where the segments have the same lines, there is a line that says the same. -/
theorem exists_of_bare (h : ∀ segment, (linesAt segment others).map Line.bare =
    (linesAt segment lines).map Line.bare)
    (hLine : line ∈ lines) (hPlace : line.isLoose = false) :
    ∃ other ∈ others, other.bare = line.bare := by
  have hMem : line.bare ∈ (linesAt line.segment lines).map Line.bare :=
    List.mem_map_of_mem (mem_linesAt.mpr ⟨hLine, rfl, hPlace⟩)
  rw [← h] at hMem
  obtain ⟨other, hOther, hSame⟩ := List.mem_map.mp hMem
  exact ⟨other, (mem_linesAt.mp hOther).1, hSame⟩

theorem map_bare_of_echoes (h : List.Forall₂ Line.Echoes lines others) :
    others.map Line.bare = lines.map Line.bare := by
  induction h with
  | nil => rfl
  | cons hFirst _ ih => rw [List.map_cons, List.map_cons, hFirst.bare, ih]

namespace Shuffled

/-- In each segment the lines say the same. -/
theorem map_bare (h : Shuffled lines others) (segment : Segment) :
    (linesAt segment others).map Line.bare = (linesAt segment lines).map Line.bare :=
  map_bare_of_echoes (h.within segment)

/-- What the lines of one segment add up to does not change when lines of other
segments move between them. -/
theorem flatMap_eq (h : Shuffled lines others) (segment : Segment) {α : Type} {pick : Line → List α}
    (hBare : ∀ line : Line, pick line.bare = pick line) :
    (linesAt segment others).flatMap pick = (linesAt segment lines).flatMap pick := by
  rw [← flatMap_bare hBare, h.map_bare, flatMap_bare hBare]

/-- Each line that is not loose comes from one of the given lines. -/
theorem exists_line (h : Shuffled lines others) (hOther : other ∈ others)
    (hPlace : other.isLoose = false) :
    ∃ line ∈ lines, line.bare = other.bare :=
  exists_of_bare (fun segment => (h.map_bare segment).symm) hOther hPlace

/-- Each line that is not loose is found again among the shuffled ones. -/
theorem exists_other (h : Shuffled lines others) (hLine : line ∈ lines)
    (hPlace : line.isLoose = false) :
    ∃ other ∈ others, other.bare = line.bare :=
  exists_of_bare h.map_bare hLine hPlace

end Shuffled

/-! Channels -/

theorem Line.isPlaced_of_isLoose (h : line.isLoose = true) : line.isPlaced = true := by
  rw [Line.isLoose, Bool.and_eq_true, Option.isNone_iff_eq_none] at h
  obtain ⟨hLabel, hContent⟩ := h
  unfold Line.isPlaced
  cases hSays : line.statement.content with
  | empty => simp [hLabel]
  | instruction mnemonic operands =>
      rw [hSays] at hContent
      cases hContent
  | directive directive =>
      rw [hSays] at hContent
      cases directive <;> first | rfl | cases hContent

/-- Shuffling moves no line to a segment to which it does not belong. -/
theorem Shuffled.isPlaced (h : Shuffled lines others)
    (hPlaced : ∀ line ∈ lines, line.isPlaced = true) :
    ∀ other ∈ others, other.isPlaced = true := by
  intro other hOther
  cases hLoose : other.isLoose with
  | true => exact Line.isPlaced_of_isLoose hLoose
  | false =>
      obtain ⟨line, hLine, hSame⟩ := h.exists_line hOther hLoose
      rw [← other.isPlaced_bare, ← hSame]
      exact hPlaced line hLine

/-- A string is a line of the strings. -/
theorem Line.text?_place (hPlaced : line.isPlaced = true) :
    line.text?.toList = [] ∨ line.segment = .strings ∧ line.isLoose = false := by
  unfold Line.text?
  split
  · next text hContent =>
      rw [Line.isPlaced, hContent] at hPlaced
      exact .inr ⟨of_decide_eq_true hPlaced, by simp [Line.isLoose, hContent, Content.isLoose]⟩
  · exact .inl rfl

/-- An included native is a line of the natives. -/
theorem Line.native?_place (hPlaced : line.isPlaced = true) :
    line.native?.toList = [] ∨ line.segment = .natives ∧ line.isLoose = false := by
  unfold Line.native?
  split
  · next hash hContent =>
      rw [Line.isPlaced, hContent] at hPlaced
      exact .inr ⟨of_decide_eq_true hPlaced, by simp [Line.isLoose, hContent, Content.isLoose]⟩
  · exact .inl rfl

/-- What lines of one segment have to say comes in the same order. -/
theorem Shuffled.filterMap_eq {α : Type} {pick : Line → Option α} (h : Shuffled lines others)
    (hPlaced : ∀ line ∈ lines, line.isPlaced = true)
    (hBare : ∀ line : Line, pick line.bare = pick line)
    (hOnly : ∀ line : Line, line.isPlaced = true →
      (pick line).toList = [] ∨ line.segment = segment ∧ line.isLoose = false) :
    others.filterMap pick = lines.filterMap pick := by
  rw [List.filterMap_eq_flatMap_toList, List.filterMap_eq_flatMap_toList,
    ← flatMap_linesAt fun other hOther => hOnly other (h.isPlaced hPlaced other hOther),
    ← flatMap_linesAt fun line hLine => hOnly line (hPlaced line hLine)]
  exact h.flatMap_eq segment fun line => by rw [hBare]

/-- The strings come in the same order, since all of them belong to one segment. -/
theorem Shuffled.texts (h : Shuffled lines others)
    (hPlaced : ∀ line ∈ lines, line.isPlaced = true) :
    others.filterMap Line.text? = lines.filterMap Line.text? :=
  h.filterMap_eq hPlaced (fun _ => rfl) fun _ => Line.text?_place

/-- The included natives come in the same order, since all of them belong to one
segment. -/
theorem Shuffled.nativeHashes (h : Shuffled lines others)
    (hPlaced : ∀ line ∈ lines, line.isPlaced = true) :
    nativeHashes others = nativeHashes lines :=
  h.filterMap_eq hPlaced (fun _ => rfl) fun _ => Line.native?_place

/-! Names -/

def Line.placedDefinitions (line : Line) : List Definition :=
  line.definitions.filter fun definition => definition.kind ≠ .constant

def Directive.constants : Directive → List Definition
  | .const name _ => [⟨.constant, name⟩]
  | _ => []

theorem Line.filter_constants (line : Line) :
    line.definitions.filter (fun definition => !decide (definition.kind ≠ .constant)) =
      line.floating?.toList.flatMap Directive.constants := by
  have hWords : line.wordDefinitions.filter (fun definition => !decide
      (definition.kind ≠ .constant)) = [] := by
    unfold Line.wordDefinitions
    split <;> cases line.label <;> rfl
  rw [Line.definitions, List.filter_append, hWords, List.nil_append,
    Line.contentDefinitions, Line.floating?]
  cases line.statement.content with
  | directive directive => cases directive <;> first | rfl | (cases line.label <;> rfl)
  | _ => rfl

/-- Loose lines define constants alone. -/
theorem Line.placedDefinitions_of_isLoose (h : line.isLoose = true) :
    line.placedDefinitions = [] := by
  rw [Line.isLoose, Bool.and_eq_true, Option.isNone_iff_eq_none] at h
  obtain ⟨hLabel, hContent⟩ := h
  have hWords : line.wordDefinitions = [] := by simp [Line.wordDefinitions, hLabel]
  rw [Line.placedDefinitions, Line.definitions, hWords, List.nil_append, Line.contentDefinitions]
  cases hSays : line.statement.content with
  | directive directive =>
      rw [hSays] at hContent
      cases directive <;> first | rfl | cases hContent
  | _ => rfl

/-- The lines with a place are the same up to their order. -/
theorem Shuffled.perm_bare (h : Shuffled lines others) :
    ((lines.filter fun line => !line.isLoose).map Line.bare).Perm
      ((others.filter fun line => !line.isLoose).map Line.bare) := by
  classical
  have hSegment : ∀ (lines : List Line) (segment : Segment),
      ((lines.filter fun line => !line.isLoose).map Line.bare).filter (fun line =>
        line.segment = segment) = (linesAt segment lines).map Line.bare := fun lines segment => by
    rw [List.filter_map, List.filter_filter]
    rfl
  refine List.perm_iff_count.mpr fun bare => ?_
  rw [← List.count_filter (p := fun line => line.segment = bare.segment) (by simp), hSegment,
    ← h.map_bare, ← hSegment, List.count_filter (by simp)]

/-- The definitions of lines: those of lines with a place, and the constants. -/
theorem perm_definitions_parts (lines : List Line) :
    (lines.flatMap Line.definitions).Perm
      (((lines.filter fun line => !line.isLoose).map Line.bare).flatMap Line.placedDefinitions ++
        (lines.filterMap Line.floating?).flatMap Directive.constants) := by
  have hPlaced : ((lines.filter fun line => !line.isLoose).map Line.bare).flatMap
      Line.placedDefinitions =
      (lines.flatMap Line.definitions).filter fun definition => definition.kind ≠ .constant := by
    rw [flatMap_bare fun _ => rfl, List.filter_flatMap]
    refine flatMap_filter fun line _ => ?_
    cases hLoose : line.isLoose with
    | true => exact .inl (Line.placedDefinitions_of_isLoose hLoose)
    | false => exact .inr rfl
  have hConstants : (lines.filterMap Line.floating?).flatMap Directive.constants =
      (lines.flatMap Line.definitions).filter fun definition => !decide
        (definition.kind ≠ .constant) := by
    rw [List.filterMap_eq_flatMap_toList, List.flatMap_assoc, List.filter_flatMap]
    exact List.flatMap_congr fun line _ => line.filter_constants.symm
  rw [hPlaced, hConstants]
  exact (List.filter_append_perm _ _).symm

/-- The same names are defined, though in another order. -/
theorem Shuffled.perm_definitions (h : Shuffled lines others) :
    (lines.flatMap Line.definitions).Perm (others.flatMap Line.definitions) := by
  refine (perm_definitions_parts lines).trans
    (List.Perm.trans ?_ (perm_definitions_parts others).symm)
  rw [h.floating]
  exact (h.perm_bare.flatMap_right _).append_right _

/-! Words -/

/-- The segment behind a region, in a unit with a given block of globals. -/
def segmentFor (block : UInt8) : Region → Segment
  | .statics => .statics
  | .arguments => .arguments
  | .globals => .globals block
  | _ => .code

/-- Lines with one block of globals at most. -/
def OneBlock (block : UInt8) (lines : List Line) : Prop :=
  ∀ line ∈ lines, ∀ other, line.segment = .globals other → other = block

theorem segment_of_region? {block : UInt8} (hBlock : OneBlock block lines) (hLine : line ∈ lines)
    (hRegion : line.segment.region? = some region) : line.segment = segmentFor block region := by
  have hOnly := hBlock line hLine
  cases hSegment : line.segment <;> simp only [hSegment, Segment.region?, reduceCtorEq,
    Option.some.injEq] at hRegion
  all_goals subst hRegion
  · rfl
  · rfl
  · rw [hOnly _ hSegment]
    rfl

theorem Line.wordSources_of_isLoose (h : line.isLoose = true) : line.wordSources = [] := by
  rw [Line.isLoose, Bool.and_eq_true] at h
  unfold Line.wordSources
  cases hSays : line.statement.content with
  | directive directive =>
      rw [hSays] at h
      cases directive <;> first | rfl | cases h.2
  | _ => rfl

/-- The words of a region come from the lines of its segment. -/
theorem wordSources_linesAt {block : UInt8} (hBlock : OneBlock block lines) (region : Region) :
    wordSources region (linesAt (segmentFor block region) lines) = wordSources region lines := by
  refine flatMap_linesAt fun line hLine => ?_
  by_cases hRegion : line.segment.region? = some region
  · rw [if_pos hRegion]
    cases hLoose : line.isLoose with
    | true => exact .inl (Line.wordSources_of_isLoose hLoose)
    | false => exact .inr ⟨segment_of_region? hBlock hLine hRegion, rfl⟩
  · exact .inl (if_neg hRegion)

/-- Sources of the same word. -/
structure WordSource.Echoes (source other : WordSource) : Prop where
  kind : other.kind = source.kind
  operand : other.operand = source.operand
  names : ∀ name, source.operand.mentioned? = some name →
    other.line.qualify name = source.line.qualify name

theorem Line.Echoes.wordSources (h : line.Echoes other) :
    List.Forall₂ (Option.Rel WordSource.Echoes) line.wordSources other.wordSources := by
  have hNames := h.names
  have hWords : ∀ (kind : WordKind) (operands : List Operand),
      line.statement.content.mentioned = operands.filterMap Operand.mentioned? →
      List.Forall₂ (Option.Rel WordSource.Echoes) (operands.map fun operand =>
        some ⟨line, kind, operand⟩) (operands.map fun operand => some ⟨other, kind, operand⟩) := by
    intro kind operands hMentioned
    rw [List.forall₂_map_left_iff, List.forall₂_map_right_iff, List.forall₂_same]
    refine fun operand hOperand => .some ⟨rfl, rfl, fun name hName => hNames name ?_⟩
    rw [hMentioned]
    exact List.mem_filterMap.mpr ⟨operand, hOperand, hName⟩
  rw [Line.wordSources, Line.wordSources, h.content]
  cases hSays : line.statement.content with
  | directive directive =>
      rw [hSays] at hWords
      cases directive with
      | ints operands => exact hWords .int operands rfl
      | floats operands => exact hWords .float operands rfl
      | zero count =>
          refine List.forall₂_same.mpr fun source hSource => ?_
          rw [List.eq_of_mem_replicate hSource]
          exact .none
      | _ => exact .nil
  | _ => exact .nil

/-- Lines that echo each other declare words that echo each other. -/
theorem wordSources_of_echoes (h : List.Forall₂ Line.Echoes lines others) (region : Region) :
    List.Forall₂ (Option.Rel WordSource.Echoes) (wordSources region lines)
      (wordSources region others) := by
  refine List.rel_flatMap h fun line other hLine => ?_
  rw [hLine.segment]
  split
  · exact hLine.wordSources
  · exact .nil

/-- The words of a region are declared in the same order by operands that mean
the same. -/
theorem Shuffled.wordSources {block : UInt8} (h : Shuffled lines others)
    (hLines : OneBlock block lines) (hOthers : OneBlock block others) (region : Region) :
    List.Forall₂ (Option.Rel WordSource.Echoes) (Assembly.wordSources region lines)
      (Assembly.wordSources region others) := by
  rw [← wordSources_linesAt hLines, ← wordSources_linesAt hOthers]
  exact wordSources_of_echoes (h.within _) region

theorem Shuffled.oneBlock {block : UInt8} (h : Shuffled lines others)
    (hLines : OneBlock block lines) :
    OneBlock block others := by
  intro other hOther chosen hChosen
  obtain ⟨line, hLine, hSegment⟩ := (h.blocks chosen).mp ⟨other, hOther, hChosen⟩
  exact hLines line hLine chosen hSegment

/-! Labels of words -/

theorem length_wordSources_bare (region : Region) (lines : List Line) :
    (wordSources region (lines.map Line.bare)).length = (wordSources region lines).length := by
  have hLine : ∀ line : Line, line.bare.wordSources.length =
      line.wordSources.length := fun line => by
    rw [Line.wordSources, Line.wordSources, Line.bare]
    cases line.statement.content with
    | directive directive => cases directive <;> simp [Directive.wordSources]
    | _ => rfl
  rw [wordSources, wordSources, List.flatMap_map, List.length_flatMap, List.length_flatMap]
  congr 1
  refine List.map_congr_left fun line _ => ?_
  have hSegment : line.bare.segment = line.segment := rfl
  rw [hSegment]
  split
  · exact hLine line
  · rfl

theorem wordLabels_bare (before lines : List Line) :
    wordLabels (before.map Line.bare) (lines.map Line.bare) = wordLabels before lines := by
  induction lines generalizing before with
  | nil => rfl
  | cons line rest ih =>
      have hLabel : line.bare.wordLabel? (before.map Line.bare) = line.wordLabel? before := by
        rw [Line.wordLabel?, Line.wordLabel?]
        simp only [length_wordSources_bare]
        rfl
      have hBefore : before.map Line.bare ++ [line.bare] =
          (before ++ [line]).map Line.bare := by simp
      rw [List.map_cons, wordLabels, wordLabels, hLabel, hBefore, ih]

theorem wordLabel?_of_label (h : line.label = none) (before : List Line) :
    line.wordLabel? before = none := by
  rw [Line.wordLabel?, h]
  cases line.segment.region? <;> rfl

/-- The labels of a segment stand in front of its own words. -/
theorem filter_wordLabels {block : UInt8} {before : List Line}
    (hRegion : (segmentFor block region).region? = some region)
    (hBlock : OneBlock block (before ++ lines)) :
    (wordLabels before lines).filter (fun label => label.segment = segmentFor block region) =
      wordLabels (linesAt (segmentFor block region) before)
        (linesAt (segmentFor block region) lines) := by
  induction lines generalizing before with
  | nil => rfl
  | cons line rest ih =>
      have hBefore : OneBlock block before :=
        fun other hOther => hBlock other (List.mem_append_left _ hOther)
      have hRest := @ih (before ++ [line]) (by rwa [← List.append_cons])
      rw [wordLabels, List.filter_append, hRest]
      have hSplit : linesAt (segmentFor block region) (before ++ [line]) =
          linesAt (segmentFor block region) before ++ linesAt (segmentFor block region) [line] :=
        List.filter_append ..
      have hCons : linesAt (segmentFor block region) (line :: rest) =
          linesAt (segmentFor block region) [line] ++ linesAt (segmentFor block region) rest :=
        List.filter_append [line] rest
      rw [hSplit, hCons, wordLabels_append]
      congr 1
      by_cases hSegment : line.segment = segmentFor block region
      · cases hLabel : line.label with
        | none =>
            rw [wordLabel?_of_label hLabel]
            cases hLoose : line.isLoose <;> simp [linesAt, hSegment, hLoose, wordLabels,
              wordLabel?_of_label hLabel]
        | some label =>
            have hPlace : line.isLoose = false := by simp [Line.isLoose, hLabel]
            have hOwn : line.segment.region? = some region := by rw [hSegment, hRegion]
            have hKept : linesAt (segmentFor block region) [line] = [line] := by
              simp [linesAt, hSegment, hPlace]
            rw [hKept, wordLabels, wordLabels, List.append_nil, wordLabel?_eq_some hOwn hLabel,
              wordLabel?_eq_some hOwn hLabel, wordSources_linesAt hBefore]
            simp [hSegment]
      · have hGone : linesAt (segmentFor block region) [line] = [] := by simp [linesAt, hSegment]
        rw [hGone, wordLabels]
        cases hFound : line.wordLabel? before with
        | none => rfl
        | some label =>
            obtain ⟨_, _, _, hSame, _⟩ := of_wordLabel?_eq_some hFound
            simp [hSame, hSegment]

/-- The labels of a segment stand at the same words, in the same order. -/
theorem Shuffled.filter_wordLabels {block : UInt8} (h : Shuffled lines others)
    (hLines : OneBlock block lines) (hRegion : (segmentFor block region).region? = some region) :
    (wordLabels [] others).filter (fun label => label.segment = segmentFor block region) =
      (wordLabels [] lines).filter fun label => label.segment = segmentFor block region := by
  have hFirst : OneBlock block ([] ++ lines) := hLines
  have hSecond : OneBlock block ([] ++ others) := h.oneBlock hLines
  rw [Assembly.filter_wordLabels hRegion hFirst, Assembly.filter_wordLabels hRegion hSecond]
  have hSame : ∀ lines : List Line, wordLabels (linesAt (segmentFor block region) []) lines =
      wordLabels [] (lines.map Line.bare) := fun lines => (wordLabels_bare [] lines).symm
  rw [hSame, hSame, h.map_bare]

end

namespace Collection

variable {lines others : List Line} {first second : Collection}

/-- The labels of strings and natives have the same values. -/
theorem entries_shuffled (h : Shuffled lines others) (hFirst : empty.addAll lines = .ok first)
    (hSecond : empty.addAll others = .ok second) (hStrings : second.strings = first.strings)
    (hNatives : second.natives = first.natives) (name : String) :
    second.symbols.data[name]? = first.symbols.data[name]? := by
  have hRecords := records_empty.addAll hFirst
  have hRecords' := records_empty.addAll hSecond
  have hValues := values_empty.addAll holds_empty hFirst
  have hValues' := values_empty.addAll holds_empty hSecond
  rw [List.nil_append] at hRecords hRecords' hValues hValues'
  by_cases hEntry : ⟨.entry, name⟩ ∈ lines.flatMap Line.definitions
  · obtain ⟨line, hLine, hOwn⟩ := List.mem_flatMap.mp hEntry
    obtain ⟨hContent, hLabel⟩ := Line.of_entry_mem_definitions hOwn
    obtain ⟨other, hOther, hSame⟩ := h.exists_other hLine (by simp [Line.isLoose, hLabel])
    obtain ⟨hSegment, hLabels, hSays⟩ := Line.of_bare_eq hSame
    have hOtherContent : ⟨.entry, name⟩ ∈ other.contentDefinitions := by
      rwa [Line.contentDefinitions, hSays, hLabels]
    obtain ⟨value, hValue, hFound⟩ := hValues.entries line hLine name hContent
    obtain ⟨value', hValue', hFound'⟩ := hValues'.entries other hOther name hOtherContent
    rw [hStrings, hNatives] at hValue'
    rw [hFound, hFound', hSegment, hValue.unique hValue' hSays]
  · have hNone : ¬ first.symbols.data.contains name = true :=
      fun hKnown => hEntry ((hRecords.entries name).mp hKnown)
    have hNone' : ¬ second.symbols.data.contains name = true := fun hKnown =>
      hEntry (h.perm_definitions.mem_iff.mpr ((hRecords'.entries name).mp hKnown))
    rw [Std.TreeMap.getElem?_eq_none_of_contains_eq_false (eq_false_of_ne_true hNone),
      Std.TreeMap.getElem?_eq_none_of_contains_eq_false (eq_false_of_ne_true hNone')]

end Collection

/-! Filling in -/

section

variable {symbols others : Symbols} {labels : LabelTable}

/-- A word stays the same when its source is moved and the symbols are stored in
another way. -/
theorem WordDenotes.echo {source other : Option WordSource} {word : Word}
    (hSymbols : symbols.Same others)
    (hSource : Option.Rel WordSource.Echoes source other)
    (h : WordDenotes symbols labels source word) :
    WordDenotes others labels other word := by
  rw [hSymbols.wordDenotes]
  cases hSource with
  | none => exact h
  | @some source other hEchoes =>
      have hAgree : Agree
          (PendingWord.evaluate ⟨source.line, 0, source.kind, source.operand⟩ symbols)
          (PendingWord.evaluate ⟨other.line, 0, other.kind, other.operand⟩ symbols) :=
        evaluate_agree hEchoes.kind hEchoes.operand hEchoes.names
      rcases h with hWord | ⟨label, address, hLabel, hAddress⟩
      · exact .inl (hAgree.eq_ok hWord)
      · exact .inr ⟨label, address, hAgree.eq_ok hLabel, hAddress⟩

end

/-! Units -/

namespace Collection

variable {lines others : List Line} {first second : Collection}

/-- A line is taken into a block of globals only if the block exists. -/
theorem blockLimit_of_add {line : Line} {collection next : Collection}
    (h : collection.add line = .ok next)
    {block : UInt8} (hSegment : line.segment = .globals block) : block.toNat < blockLimit := by
  obtain ⟨entered, hEntered, _⟩ := bind_eq_ok.mp h
  rw [enterSegment, hSegment] at hEntered
  dsimp only at hEntered
  split at hEntered
  · cases hEntered
  · next hFits => exact Nat.not_le.mp hFits

/-- A block is chosen exactly when a line stands in it. -/
theorem block_eq_some (h : empty.addAll lines = .ok first) {block : UInt8} :
    first.image.block = some block ↔ ∃ line ∈ lines, line.segment = .globals block := by
  constructor
  · intro hBlock
    exact (eq_of_addAll_block h hBlock).resolve_left fun hNone => by cases hNone
  · rintro ⟨line, hLine, hSegment⟩
    exact (addAll_block h).2 line hLine block hSegment

/-- A unit that is taken chooses one block of globals for all its lines. -/
theorem oneBlock (h : empty.addAll lines = .ok first) :
    OneBlock (first.image.block.getD 0) lines := by
  intro line hLine block hSegment
  rw [(block_eq_some h).mpr ⟨line, hLine, hSegment⟩]
  rfl

/-- The same header, block, constants, strings and natives. -/
structure SameHeader (first second : Collection) : Prop where
  preamble : second.preamble = first.preamble
  strings : second.strings = first.strings
  natives : second.natives = first.natives
  block : second.image.block = first.image.block

/-- Shuffled lines are collected when the lines are, channel by channel. -/
theorem addAll_shuffled (h : Shuffled lines others) (hNames : (dataNames lines).Nodup)
    (hFirst : empty.addAll lines = .ok first) :
    ∃ second, empty.addAll others = .ok second ∧ SameHeader first second := by
  obtain ⟨hTakes, hPlaced⟩ := addAll_takes hFirst
  have hPreamble := hTakes.preamble
  have hTexts := hTakes.strings
  have hHashes := hTakes.natives
  rw [← h.floating] at hPreamble
  rw [← h.texts hPlaced] at hTexts
  rw [← h.nativeHashes hPlaced] at hHashes
  have hDefinitions : (([] ++ others.flatMap Line.definitions).map Definition.name).Nodup :=
    (h.perm_definitions.map Definition.name).nodup_iff.mp hNames
  have hBlock : ∀ other ∈ others, ∀ block, other.segment = .globals block →
      block = first.image.block.getD 0 ∧ (first.image.block.getD 0).toNat < blockLimit := by
    intro other hOther block hSegment
    obtain ⟨line, hLine, hSame⟩ := (h.blocks block).mp ⟨other, hOther, hSegment⟩
    obtain ⟨_, _, hAdd⟩ := exists_add_of_mem hFirst hLine
    have hOnly := oneBlock hFirst line hLine block hSame
    exact ⟨hOnly, hOnly ▸ blockLimit_of_add hAdd hSame⟩
  obtain ⟨second, hSecond⟩ :=
    addAll_succeeds records_empty hDefinitions (h.isPlaced hPlaced) hBlock (by rintro _ ⟨⟩)
    hPreamble hTexts hHashes
  obtain ⟨hOthers, _⟩ := addAll_takes hSecond
  refine ⟨second, hSecond, ?_, ?_, ?_, ?_⟩
  · exact Option.some.inj (hOthers.preamble.symm.trans hPreamble)
  · exact Option.some.inj (hOthers.strings.symm.trans hTexts)
  · exact Option.some.inj (hOthers.natives.symm.trans hHashes)
  · refine Option.ext fun block => ?_
    rw [block_eq_some hSecond, block_eq_some hFirst]
    exact h.blocks block

/-- The regions have the same sizes. -/
theorem size_shuffled (h : Shuffled lines others) (hFirst : empty.addAll lines = .ok first)
    (hSecond : empty.addAll others = .ok second) (region : Region) :
    (second.image.regionWords region).size = (first.image.regionWords region).size := by
  have hBlock := oneBlock hFirst
  rw [(holds_empty.addAll hFirst).zeros, (holds_empty.addAll hSecond).zeros, Array.size_replicate,
    Array.size_replicate]
  exact (h.wordSources hBlock (h.oneBlock hBlock) region).length_eq.symm

/-- The symbols when the labels in front of words have their values. -/
def finished (collection : Collection) : Symbols :=
  { collection.symbols with
    data := defineLabels collection.image collection.labels.toList collection.symbols.data }

/-- All names stand for the same. -/
theorem symbols_shuffled (h : Shuffled lines others) (hFirst : empty.addAll lines = .ok first)
    (hSecond : empty.addAll others = .ok second) (hHeader : SameHeader first second) :
    first.finished.Same second.finished := by
  have hRecords := records_empty.addAll hFirst
  have hRecords' := records_empty.addAll hSecond
  have hBlock := oneBlock hFirst
  have hLabels := addAll_labels holds_empty hFirst
  have hLabels' := addAll_labels holds_empty hSecond
  refine ⟨fun name =>
    ?_, defineLabels_same hRecords.labels hRecords'.labels (fun name => ?_) (fun label hLabel => ?_)
    (fun segment => ?_) (entries_shuffled h hFirst hSecond hHeader.strings hHeader.natives)⟩
  · exact congrArg (fun constants : Std.TreeMap String Value => constants[name]?)
      (congrArg Preamble.constants hHeader.preamble)
  · rw [hRecords.words, hRecords'.words]
    exact h.perm_definitions.mem_iff.symm
  · rw [hLabels] at hLabel ⊢
    rw [hLabels']
    obtain ⟨_, line, region, hLine, hRegion, _, hSegment, _⟩ := mem_wordLabels.mp hLabel
    rw [hSegment]
    have hPlace := segment_of_region? hBlock (List.mem_of_getElem? hLine) hRegion
    rw [hPlace] at hRegion ⊢
    exact h.filter_wordLabels hBlock hRegion
  · have hSizes := size_shuffled h hFirst hSecond
    cases segment with
    | statics => exact hSizes .statics
    | arguments => exact hSizes .arguments
    | globals block => exact hSizes .globals
    | _ => rfl

end Collection

section

variable {source : NativeSource} {options : Options} {statements : List Statement} {script : Script}
  {others : List Line}

/-- The image of the script is the one collected, with words stored in it. -/
theorem Assembled.exists_collected (unit : Assembled source options statements script) :
    ∃ collected stores, Collection.empty.addAll (scopeLines statements) = .ok collected ∧
      unit.data.symbols = collected.finished ∧ unit.data.strings = collected.strings ∧
      unit.data.natives = collected.natives ∧ unit.image = collected.image.storeAll stores := by
  obtain ⟨collected, hCollected, hRest⟩ := bind_eq_ok.mp unit.collected
  obtain ⟨_, _, hRest⟩ := bind_eq_ok.mp hRest
  obtain ⟨⟨filled, references⟩, hFill, hRest⟩ := bind_eq_ok.mp hRest
  have hData := (Except.ok.inj hRest).symm
  have hResolve := unit.resolved
  rw [hData] at hResolve ⊢
  obtain ⟨stores, hImage, _⟩ := serves_of_passes hFill hResolve
  exact ⟨collected, stores, hCollected, rfl, rfl, rfl, hImage⟩

/-- The data of a unit does not depend on how its segments are put together. -/
theorem Assembled.collectData_shuffled (unit : Assembled source options statements script)
    (h : Shuffled (scopeLines statements) others)
    (hNames : (dataNames (scopeLines statements)).Nodup) :
    ∃ data, collectData others = .ok data ∧ unit.data.symbols.Same data.symbols ∧
      data.strings = unit.data.strings ∧ data.natives = unit.data.natives ∧
      resolveReferences unit.layout.labels data.references data.image = .ok unit.image := by
  obtain ⟨first, stores, hFirst, hSymbols, hStrings, hNatives, hImage⟩ := unit.exists_collected
  obtain ⟨second, hSecond, hHeader⟩ := Collection.addAll_shuffled h hNames hFirst
  have hSame := Collection.symbols_shuffled h hFirst hSecond hHeader
  rw [← hSymbols] at hSame
  have hBlock := Collection.oneBlock hFirst
  have hHolds := Collection.holds_empty.addAll hSecond
  rw [List.nil_append] at hHolds
  -- every source denotes the word that it denoted before
  have hWords : ∀ region, List.Forall₂ (WordDenotes second.finished unit.layout.labels)
      (wordSources region others) (unit.image.regionWords region).toList := fun region => by
    have hSources := h.wordSources hBlock (h.oneBlock hBlock) region
    have hDenotes := unit.holdsData.denote region
    refine List.forall₂_iff_get.mpr ⟨hSources.length_eq.symm.trans hDenotes.length_eq,
      fun i hi hWord => ?_⟩
    have hBound := hSources.length_eq ▸ hi
    exact (hDenotes.get hBound hWord).echo hSame (hSources.get hBound hi)
  obtain ⟨filled, references, final, hFilled, hResolved, hFinal, hName, hHash, hChosen⟩ :=
    hHolds.fills hWords
  have hSizes : ∀ region, (second.image.regionWords region).size =
      (unit.image.regionWords region).size := by
    intro region
    rw [Collection.size_shuffled h hFirst hSecond, hImage, size_storeAll]
  have hCapacity : Collection.checkCapacity second.image = .ok () := by
    have hStatics := hSizes .statics
    have hArguments := hSizes .arguments
    have hGlobals := hSizes .globals
    simp only [DataImage.regionWords] at hStatics hArguments hGlobals
    refine Collection.checkCapacity_of_fits ?_ ?_
    · rw [hStatics, hArguments]
      exact unit.holdsData.staticsFit
    · rw [hGlobals]
      exact unit.holdsData.globalsFit
  obtain ⟨hOldName, hOldHash⟩ := header_storeAll first.image stores
  have hEqual : final = unit.image := by
    refine DataImage.eq_of_regionWords ?_ ?_ ?_ fun region => Array.toList_inj.mp (hFinal region)
    · rw [hName, hImage, hOldName]
      exact congrArg Preamble.name hHeader.preamble
    · rw [hHash, hImage, hOldHash]
      exact congrArg Preamble.hash hHeader.preamble
    · rw [hChosen, hImage, block_storeAll, hHeader.block]
  refine ⟨⟨filled, references.toList, second.finished, second.strings, second.natives⟩, ?_,
    hSame, ?_, ?_, ?_⟩
  · exact bind_eq_ok.mpr ⟨second, hSecond,
      bind_eq_ok.mpr ⟨(), hCapacity, bind_eq_ok.mpr ⟨_, hFilled, rfl⟩⟩⟩
  · rw [hStrings, hHeader.strings]
  · rw [hNatives, hHeader.natives]
  · rw [hResolved, hEqual]

end

end ScriptBackend.Assembly
