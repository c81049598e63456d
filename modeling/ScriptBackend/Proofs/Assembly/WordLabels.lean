import Mathlib.Order.Bounds.Basic
import ScriptBackend.Proofs.Assembly.Definitions

/-!
The labels in front of words. A label stands at the number of words before it in
its region, whichever lines of other segments come between, and what belongs to
it ends where the next label further on begins, or at the end of the region.
-/
namespace ScriptBackend.Assembly

open Outcome

def wordOffset (region : Region) (lines : List Line) (i : Nat) : Nat :=
  (wordSources region (lines.take i)).length

/-- Whether a label stands at an offset in a region. -/
def IsLabelOffset (region : Region) (lines : List Line) (offset : Nat) : Prop :=
  ∃ i line, lines[i]? = some line ∧ line.label.isSome ∧ line.segment.region? = some region ∧
    wordOffset region lines i = offset

/-- The words from an offset on reach to the next label further on, or to the
end of the region. -/
def Reach (region : Region) (lines : List Line) (offset words : Nat) : Prop :=
  IsLeast {finish | finish = (wordSources region lines).length ∨
    offset < finish ∧ IsLabelOffset region lines finish} (offset + words)

def Line.wordLabel? (before : List Line) (line : Line) : Option WordLabel :=
  line.segment.region?.bind fun region =>
    line.label.map fun label => ⟨line.segment, label, (Assembly.wordSources region before).length⟩

/-- The labels of lines in front of words, when others come before them. -/
def wordLabels : List Line → List Line → List WordLabel
  | _, [] => []
  | before, line :: rest => (line.wordLabel? before).toList ++ wordLabels (before ++ [line]) rest

section

variable {before lines rest : List Line} {line : Line} {region : Region} {label : WordLabel}
  {i : Nat} {name : String}

/-- Labels of later lines stand behind the words of the lines before them. -/
theorem wordLabels_append (first second : List Line) :
    wordLabels before (first ++ second) =
      wordLabels before first ++ wordLabels (before ++ first) second := by
  induction first generalizing before with
  | nil => simp [wordLabels]
  | cons line rest ih => simp [wordLabels, ih]

theorem wordLabel?_eq_some (hRegion : line.segment.region? = some region)
    (hLabel : line.label = some name) :
    line.wordLabel? before = some ⟨line.segment, name, (wordSources region before).length⟩ := by
  rw [Line.wordLabel?, hRegion, hLabel]
  rfl

/-- The label of a line of words stands at the first word of the line. -/
theorem of_wordLabel?_eq_some (h : line.wordLabel? before = some label) :
    ∃ region, line.segment.region? = some region ∧ line.label = some label.name ∧
      label.segment = line.segment ∧ label.offset = (wordSources region before).length := by
  obtain ⟨region, hRegion, hLabel⟩ := Option.bind_eq_some_iff.mp h
  obtain ⟨name, hName, rfl⟩ := Option.map_eq_some_iff.mp hLabel
  exact ⟨region, hRegion, hName, rfl, rfl⟩

/-- The labels in front of and behind the line at a position. -/
theorem wordLabels_split (hLine : lines[i]? = some line)
    (hRegion : line.segment.region? = some region) (hLabel : line.label = some name) :
    wordLabels [] lines = wordLabels [] (lines.take i) ++
      ⟨line.segment, name, wordOffset region lines i⟩ ::
        wordLabels (lines.take (i + 1)) (lines.drop (i + 1)) := by
  obtain ⟨hi, rfl⟩ := List.getElem?_eq_some_iff.mp hLine
  have hLines : lines = lines.take i ++ lines[i] :: lines.drop (i + 1) := by
    rw [List.getElem_cons_drop, List.take_append_drop]
  conv_lhs => rw [hLines]
  rw [wordLabels_append, List.nil_append, wordLabels, wordLabel?_eq_some hRegion hLabel,
    List.take_append_getElem]
  rfl

theorem mem_wordLabels :
    label ∈ wordLabels before lines ↔ ∃ i line region, lines[i]? = some line ∧
    line.segment.region? = some region ∧
      line.label = some label.name ∧ label.segment = line.segment ∧
      label.offset = (wordSources region (before ++ lines.take i)).length := by
  induction lines generalizing before with
  | nil => simp [wordLabels]
  | cons line rest ih =>
      rw [wordLabels, List.mem_append, Option.mem_toList, ih]
      constructor
      · rintro (hFirst | ⟨i, other, region, hOther, hRest⟩)
        · obtain ⟨region, hOwn⟩ := of_wordLabel?_eq_some hFirst
          exact ⟨0, line, region, rfl, by simpa using hOwn⟩
        · exact ⟨i + 1, other, region, hOther, by simpa using hRest⟩
      · rintro ⟨i, other, region, hOther, hRegion, hName, hSegment, hOffset⟩
        cases i with
        | zero =>
            simp only [List.getElem?_cons_zero, Option.some.injEq] at hOther
            subst hOther
            rw [List.take_zero, List.append_nil] at hOffset
            refine .inl ?_
            rw [wordLabel?_eq_some hRegion hName, ← hSegment, ← hOffset]
        | succ i =>
            exact .inr ⟨i, other, region, hOther, hRegion, hName, hSegment, by simpa using hOffset⟩

theorem length_wordSources_le (region : Region) (first second : List Line) :
    (wordSources region first).length ≤ (wordSources region (first ++ second)).length := by
  simp

/-- In one region later labels stand further on. -/
theorem pairwise_wordLabels (before lines : List Line) :
    (wordLabels before lines).Pairwise fun first second =>
      first.segment.region? = second.segment.region? → first.offset ≤ second.offset := by
  induction lines generalizing before with
  | nil => exact .nil
  | cons line rest ih =>
      refine List.pairwise_append.mpr ⟨?_, ih _, fun first hFirst second hSecond hSame => ?_⟩
      · cases line.wordLabel? before <;> simp
      · obtain ⟨region, hRegion, _, hSegment, hOffset⟩ :=
          of_wordLabel?_eq_some (Option.mem_toList.mp hFirst)
        obtain ⟨i, other, otherRegion, _, hOther, _, hOtherSegment, hOtherOffset⟩ :=
          mem_wordLabels.mp hSecond
        rw [hSegment, hOtherSegment, hRegion, hOther, Option.some.injEq] at hSame
        subst hSame
        rw [hOffset, hOtherOffset, List.append_assoc]
        exact length_wordSources_le ..

end

namespace Collection

variable {lines rest : List Line} {line : Line} {collection next : Collection}

theorem Adds.labels_eq {first : Collection} (h : Adds line first next) :
    next.labels = first.labels := by
  cases h with
  | nothing keeps silent => exact keeps.labels
  | constant name operand value content value_eq fresh next_eq => rw [next_eq]
  | entry label value middle definitions_eq keeps fresh entry next_eq => rw [next_eq, keeps.labels]

/-- A line that is taken notes its own label behind those before it. -/
theorem add_labels (hHolds : Holds lines collection) (h : collection.add line = .ok next) :
    next.labels.toList = collection.labels.toList ++ (line.wordLabel? lines).toList := by
  obtain ⟨entered, hEntered, h⟩ := bind_eq_ok.mp h
  obtain ⟨noted, hNoted, h⟩ := bind_eq_ok.mp h
  have hSizes := (enterSegment_ok hEntered).1.holds hHolds
  rw [(addContent_adds h).labels_eq, ← (enterSegment_names hEntered).labels]
  rcases noteLabel_adds hNoted with ⟨rfl, hNone⟩ | ⟨label, hLabel, hOwn, _, _, rfl⟩
  · have hNoLabel : line.wordLabel? lines = none := by
      cases hFound : line.wordLabel? lines with
      | none => rfl
      | some label =>
          obtain ⟨region, hRegion, hName, _⟩ := of_wordLabel?_eq_some hFound
          have hWords : line.segment.holdsWords = true := by
            cases hSegment : line.segment <;> simp [hSegment, Segment.region?] at hRegion ⊢ <;> rfl
          simp [Line.wordDefinitions, hWords, hName] at hNone
    rw [hNoLabel, Option.toList_none, List.append_nil]
  · have hWords : line.segment.holdsWords = true := by
      unfold Line.wordDefinitions at hOwn
      split at hOwn
      · assumption
      · cases hOwn
    obtain ⟨region, hRegion⟩ := region?_of_holdsWords hWords
    rw [wordLabel?_eq_some hRegion hLabel, Array.toList_push, size_of_region? hRegion, hSizes.zeros,
      Array.size_replicate, Option.toList_some]

/-- The labels that are collected are those of the lines, each at the words in
front of it. -/
theorem addAll_labels (hHolds : Holds lines collection) (h : collection.addAll rest = .ok next) :
    next.labels.toList = collection.labels.toList ++ wordLabels lines rest := by
  induction rest generalizing lines collection with
  | nil =>
      cases h
      simp [wordLabels]
  | cons line rest ih =>
      rw [addAll] at h
      split at h
      · cases h
      · next middle hMiddle =>
          rw [ih (hHolds.add hMiddle) h, add_labels hHolds hMiddle, wordLabels, List.append_assoc]

/-- A label keeps its value and its number of words when those behind it get
theirs. -/
theorem getElem?_defineLabels_split {image : DataImage} {before later : List WordLabel}
    {label : WordLabel}
    {data : Std.TreeMap String DataSymbol}
    (hNames : ((before ++ label :: later).map WordLabel.name).Nodup) :
    (defineLabels image (before ++ label :: later) data)[label.name]? =
      some ⟨label.segment, labelValue image label, labelEnd image label later - label.offset⟩ := by
  induction before generalizing data with
  | nil =>
      rw [List.nil_append, List.map_cons, List.nodup_cons] at hNames
      rw [List.nil_append, defineLabels, (getElem?_defineLabels hNames.2).1 label.name hNames.1]
      simp
  | cons first rest ih =>
      rw [List.cons_append, List.map_cons, List.nodup_cons] at hNames
      exact ih hNames.2

/-- Only the labels of the same segment count for the end of a label. -/
theorem labelEnd_filter (image : DataImage) (label : WordLabel) (later : List WordLabel) :
    labelEnd image label (later.filter fun next => next.segment = label.segment) =
      labelEnd image label later := by
  rw [labelEnd, labelEnd, List.find?_filter]
  congr 2
  funext next
  simp

/-- Labels of words have the same values when those of each segment come in the
same order. -/
theorem defineLabels_same {image image' : DataImage} {labels others : List WordLabel}
    {data data' : Std.TreeMap String DataSymbol} (hLabels : (labels.map WordLabel.name).Nodup)
    (hOthers : (others.map WordLabel.name).Nodup)
    (hNames : ∀ name, name ∈ others.map WordLabel.name ↔ name ∈ labels.map WordLabel.name)
    (hSegments : ∀ label ∈ labels, others.filter (fun other => other.segment = label.segment) =
      labels.filter fun other => other.segment = label.segment)
    (hSizes : ∀ segment, image'.size segment = image.size segment)
    (hData : ∀ name : String, data'[name]? = data[name]?)
    (name : String) : (defineLabels image' others data')[name]? =
      (defineLabels image labels data)[name]? := by
  by_cases hName : name ∈ labels.map WordLabel.name
  · obtain ⟨label, hLabel, rfl⟩ := List.mem_map.mp hName
    obtain ⟨before, later, rfl⟩ := List.append_of_mem hLabel
    have hSame := hSegments label hLabel
    rw [List.filter_append, List.filter_cons_of_pos (by simp)] at hSame
    obtain ⟨before', rest, rfl, _, hRest⟩ := List.filter_eq_append_iff.mp hSame
    obtain ⟨between, later', rfl, _, _, hLater⟩ := List.filter_eq_cons_iff.mp hRest
    rw [← List.append_assoc] at hOthers ⊢
    have hValue : labelValue image' label = labelValue image label := by
      have hStatics := hSizes .statics
      rw [DataImage.size, DataImage.size] at hStatics
      rw [labelValue, labelValue]
      split <;> first | rfl | rw [show image'.statics.size = image.statics.size from hStatics]
    have hEnd : labelEnd image' label later' = labelEnd image label later := by
      rw [← labelEnd_filter, hLater, labelEnd_filter, labelEnd, labelEnd, hSizes]
    rw [getElem?_defineLabels_split hLabels, getElem?_defineLabels_split hOthers, hValue, hEnd]
  · rw [(getElem?_defineLabels hLabels).1 name hName,
      (getElem?_defineLabels hOthers).1 name fun hMem => hName ((hNames name).mp hMem), hData]

end Collection

section

variable {lines : List Line} {line : Line} {region : Region} {label : WordLabel}
  {i : Nat} {name : String}

theorem wordOffset_mono (region : Region) (lines : List Line) {i j : Nat} (h : i ≤ j) :
    wordOffset region lines i ≤ wordOffset region lines j := by
  obtain ⟨k, rfl⟩ := Nat.exists_eq_add_of_le h
  rw [wordOffset, wordOffset, List.take_add]
  exact length_wordSources_le ..

theorem wordOffset_le (region : Region) (lines : List Line) (i : Nat) :
    wordOffset region lines i ≤ (wordSources region lines).length := by
  have hAll := length_wordSources_le region (lines.take i) (lines.drop i)
  rwa [List.take_append_drop] at hAll

/-- The labels behind a line. -/
theorem mem_wordLabels_drop :
    label ∈ wordLabels (lines.take (i + 1)) (lines.drop (i + 1)) ↔ ∃ j line region, i < j ∧
    lines[j]? = some line ∧
      line.segment.region? = some region ∧ line.label = some label.name ∧
      label.segment = line.segment ∧ label.offset = wordOffset region lines j := by
  rw [mem_wordLabels]
  constructor
  · rintro ⟨k, line, region, hLine, hRest⟩
    rw [List.getElem?_drop] at hLine
    rw [← List.take_add] at hRest
    exact ⟨i + 1 + k, line, region, by omega, hLine, hRest⟩
  · rintro ⟨j, line, region, hBehind, hLine, hRest⟩
    obtain ⟨k, rfl⟩ := Nat.exists_eq_add_of_le hBehind
    refine ⟨k, line, region, by rwa [List.getElem?_drop], ?_⟩
    rw [← List.take_add]
    exact hRest

/-- The first label further on in a segment ends the words of the one before it,
if no other segment holds words of the same region. -/
theorem isLeast_labelEnd {image : DataImage} (name : String)
    (hRegion : line.segment.region? = some region)
    (hAlone : ∀ other ∈ lines, other.segment.region? = some region → other.segment = line.segment)
    (hSize : image.size line.segment = (wordSources region lines).length) :
    IsLeast {finish | finish = (wordSources region lines).length ∨
        wordOffset region lines i < finish ∧ IsLabelOffset region lines finish}
      (Collection.labelEnd image ⟨line.segment, name, wordOffset region lines i⟩
        (wordLabels (lines.take (i + 1)) (lines.drop (i + 1)))) := by
  have hLabels : ∀ finish, wordOffset region lines i < finish → IsLabelOffset region lines finish →
      ∃ later ∈ wordLabels (lines.take (i + 1)) (lines.drop (i + 1)), later.segment = line.segment ∧
        later.offset = finish := by
    rintro finish hFurther ⟨j, other, hOther, hLabelled, hSame, rfl⟩
    have hBehind : i < j := by
      by_contra hBefore
      exact absurd (wordOffset_mono region lines (Nat.not_lt.mp hBefore)) (Nat.not_le.mpr hFurther)
    obtain ⟨own, hOwn⟩ := Option.isSome_iff_exists.mp hLabelled
    refine ⟨⟨other.segment, own, wordOffset region lines j⟩, mem_wordLabels_drop.mpr
      ⟨j, other, region, hBehind, hOther, hSame, hOwn, rfl, rfl⟩, ?_, rfl⟩
    exact hAlone other (List.mem_of_getElem? hOther) hSame
  unfold Collection.labelEnd
  split
  · next next hNext =>
      obtain ⟨hChosen, front, back, hSplit, hFront⟩ := List.find?_eq_some_iff_append.mp hNext
      rw [Bool.and_eq_true, decide_eq_true_eq, decide_eq_true_eq] at hChosen
      have hMem := List.mem_of_find?_eq_some hNext
      obtain ⟨j, other, otherRegion, _, hOther, hOtherRegion, hName, hSegment, hOffset⟩ :=
        mem_wordLabels_drop.mp hMem
      have hSame : otherRegion = region := by
        rw [← hSegment, hChosen.1, hRegion, Option.some.injEq] at hOtherRegion
        exact hOtherRegion.symm
      subst hSame
      refine ⟨.inr ⟨hChosen.2, j, other, hOther, by rw [hName]; rfl, hOtherRegion, hOffset.symm⟩,
        ?_⟩
      rintro finish (rfl | ⟨hFurther, hLabel⟩)
      · rw [hOffset]
        exact wordOffset_le ..
      · -- The label found is the first one further on, and those behind it stand no nearer.
        obtain ⟨later, hLater, hLaterSegment, rfl⟩ := hLabels finish hFurther hLabel
        have hOrder := pairwise_wordLabels (lines.take (i + 1)) (lines.drop (i + 1))
        rw [hSplit] at hLater hOrder
        rcases List.mem_append.mp hLater with hBefore | hAfter
        · have hRejected := hFront later hBefore
          simp [hLaterSegment, hFurther] at hRejected
        · rcases List.mem_cons.mp hAfter with rfl | hBehind
          · exact Nat.le_refl _
          · have hPair :=
              (List.pairwise_cons.mp (List.pairwise_append.mp hOrder).2.1).1 later hBehind
            exact hPair (by rw [hLaterSegment, hChosen.1])
  · next hNone =>
      refine ⟨.inl hSize, ?_⟩
      rintro finish (rfl | ⟨hFurther, hLabel⟩)
      · exact Nat.le_of_eq hSize
      · obtain ⟨later, hLater, hSegment, rfl⟩ := hLabels finish hFurther hLabel
        have hRejected := List.find?_eq_none.mp hNone later hLater
        simp [hSegment, hFurther] at hRejected

/-- A label reaches to the next one of its region, or to the end. -/
theorem reach_labelEnd {image : DataImage} (name : String)
    (hRegion : line.segment.region? = some region)
    (hAlone : ∀ other ∈ lines, other.segment.region? = some region → other.segment = line.segment)
    (hSize : image.size line.segment = (wordSources region lines).length) :
    Reach region lines (wordOffset region lines i)
      (Collection.labelEnd image ⟨line.segment, name, wordOffset region lines i⟩
        (wordLabels (lines.take (i + 1)) (lines.drop (i + 1))) - wordOffset region lines i) := by
  have hEnd := isLeast_labelEnd (i := i) name hRegion hAlone hSize
  have hNotBefore : wordOffset region lines i ≤
      Collection.labelEnd image ⟨line.segment, name, wordOffset region lines i⟩
        (wordLabels (lines.take (i + 1)) (lines.drop (i + 1))) := by
    rcases hEnd.1 with hTotal | hFurther
    · rw [hTotal]
      exact wordOffset_le ..
    · exact Nat.le_of_lt hFurther.1
  rw [Reach, Nat.add_sub_cancel' hNotBefore]
  exact hEnd

end

section Units

variable {source : NativeSource} {options : Options} {statements : List Statement} {script : Script}

/-- The words of a region come from one segment, since a unit has one block of
globals. -/
theorem Assembled.segment_eq (unit : Assembled source options statements script)
    {first second : Line}
    (hFirst : first ∈ scopeLines statements)
    (hSecond : second ∈ scopeLines statements) {region : Region}
    (hRegion : first.segment.region? = some region) (hSame : second.segment.region? = some region) :
    first.segment = second.segment := by
  have hBlock : ∀ block other, first.segment = .globals block → second.segment = .globals other →
      block = other := by
    intro block other hFirstBlock hSecondBlock
    have hOnly := unit.holdsData.block first hFirst block hFirstBlock
    rw [unit.holdsData.block second hSecond other hSecondBlock, Option.some.injEq] at hOnly
    exact hOnly.symm
  rw [← hSame] at hRegion
  cases hOne : first.segment <;> cases hTwo : second.segment <;>
    simp [hOne, hTwo, Segment.region?] at hRegion hSame ⊢
  exact hBlock _ _ hOne hTwo

/-- A label of words in an assembled unit has its value and the number of its
words. -/
theorem Assembled.wordSymbol (unit : Assembled source options statements script)
    {i : Nat} {line : Line}
    {name : String} {region : Region} (hLine : (scopeLines statements)[i]? = some line)
    (hLabel : line.label = some name) (hRegion : line.segment.region? = some region) :
    ∃ words, Reach region (scopeLines statements)
      (wordOffset region (scopeLines statements) i) words ∧
      unit.data.symbols.data[name]? = some ⟨line.segment, Collection.labelValue unit.image
        ⟨line.segment, name, wordOffset region (scopeLines statements) i⟩, words⟩ := by
  have hMem := List.mem_of_getElem? hLine
  have hAlone : ∀ other ∈ scopeLines statements, other.segment.region? = some region →
      other.segment = line.segment :=
        fun _ hOther hSame => unit.segment_eq hOther hMem hSame hRegion
  have hStatics := unit.holdsData.sizes .statics
  obtain ⟨collected, hCollected, hSymbols, _⟩ := collectData_collected unit.collected
  have hRecords := Collection.records_empty.addAll hCollected
  have hHolds := Collection.holds_empty.addAll hCollected
  have hLabels := Collection.addAll_labels Collection.holds_empty hCollected
  rw [List.nil_append] at hRecords hHolds
  have hSizes : ∀ region, (collected.image.regionWords region).size =
      (wordSources region (scopeLines statements)).length := fun region => by
    rw [hHolds.zeros, Array.size_replicate]
  have hSize : collected.image.size line.segment =
      (wordSources region (scopeLines statements)).length := by
    rw [Collection.size_of_region? hRegion, hSizes]
  have hImage : unit.image.statics.size = collected.image.statics.size :=
    hStatics.trans (hSizes .statics).symm
  have hSplit : collected.labels.toList = _ := hLabels.trans (wordLabels_split hLine hRegion hLabel)
  have hNames := hRecords.labels
  rw [hSplit] at hNames
  refine ⟨_, reach_labelEnd name hRegion hAlone hSize, ?_⟩
  rw [hSymbols, hSplit, labelValue_congr hImage]
  exact Collection.getElem?_defineLabels_split hNames

end Units

end ScriptBackend.Assembly
