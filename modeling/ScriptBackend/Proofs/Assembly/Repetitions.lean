import Mathlib.Data.List.Duplicate
import ScriptBackend.Proofs.Assembly.Artifact
import ScriptBackend.Proofs.Assembly.Definitions

/-!
What is defined twice. A unit is only rejected for a label or a native that is
there already when its names do have this label twice, or its included natives
this hash.
-/
namespace ScriptBackend.Assembly

open Outcome

/-! Names -/

def Line.constant? (line : Line) : Option String :=
  match line.statement.content with
  | .directive (.const name _) => some name
  | _ => none

def Line.definedNames (line : Line) : List String :=
  line.label.toList ++ line.constant?.toList

def definedNames (lines : List Line) : List String :=
  lines.flatMap Line.definedNames

section

variable {line : Line} {lines : List Line} {name label : String} {operand : Operand}

@[simp] theorem definedNames_nil : definedNames [] = [] :=
  rfl

@[simp] theorem definedNames_cons (line : Line) (rest : List Line) :
    definedNames (line :: rest) = line.definedNames ++ definedNames rest :=
  List.flatMap_cons

@[simp] theorem definedNames_append (first second : List Line) :
    definedNames (first ++ second) = definedNames first ++ definedNames second :=
  List.flatMap_append

theorem Line.mem_definedNames_of_label (h : line.label = some label) :
    label ∈ line.definedNames := by
  simp [definedNames, h]

theorem Line.mem_definedNames_of_const
    (h : line.statement.content = .directive (.const name operand)) :
    name ∈ line.definedNames := by
  simp [definedNames, constant?, h]

/-- A definition has its name from the line. -/
theorem Line.mem_definedNames_of_definition {definition : Definition}
    (h : definition ∈ line.definitions) :
    definition.name ∈ line.definedNames := by
  rw [definitions, List.mem_append] at h
  rcases h with hWords | hContent
  · rw [wordDefinitions] at hWords
    split at hWords
    · obtain ⟨label, hLabel, rfl⟩ := List.mem_map.mp hWords
      exact mem_definedNames_of_label (Option.mem_toList.mp hLabel)
    · cases hWords
  · rw [contentDefinitions] at hContent
    split at hContent
    · next directive hDirective =>
        cases directive with
        | const name operand =>
            rw [List.mem_singleton.mp hContent]
            exact mem_definedNames_of_const hDirective
        | text text =>
            obtain ⟨label, hLabel, rfl⟩ := List.mem_map.mp hContent
            exact mem_definedNames_of_label (Option.mem_toList.mp hLabel)
        | native hash =>
            obtain ⟨label, hLabel, rfl⟩ := List.mem_map.mp hContent
            exact mem_definedNames_of_label (Option.mem_toList.mp hLabel)
        | _ => cases hContent
    · cases hContent

theorem mem_definedNames {definition : Definition}
    (h : definition ∈ lines.flatMap Line.definitions) :
    definition.name ∈ definedNames lines := by
  obtain ⟨line, hLine, hDefinition⟩ := List.mem_flatMap.mp h
  exact List.mem_flatMap.mpr ⟨line, hLine, Line.mem_definedNames_of_definition hDefinition⟩

/-- Every symbol was defined. -/
theorem Collection.Records.mem_of_contains {collection : Collection}
    (h : Records (lines.flatMap Line.definitions) collection)
    (hKnown : collection.symbols.contains name = true) : name ∈ definedNames lines := by
  rw [Symbols.contains, Bool.or_eq_true] at hKnown
  rcases hKnown with hConstant | hData
  · exact mem_definedNames ((h.constants name).mp hConstant)
  · exact mem_definedNames ((h.entries name).mp hData)

end

/-! Causes -/

/-- What is said to be defined twice is: a label among names, a native among
hashes. -/
def Cause.Repeats (names : List String) (hashes : List UInt64) : Cause → Prop
  | .duplicateLabel label => List.Duplicate label names
  | .duplicateNative hash => List.Duplicate hash hashes
  | _ => True

/-- What a computation rejects as defined twice is. -/
abbrev OnlyRepeats {α : Type} (names : List String) (hashes : List UInt64)
    (outcome : Except Fault α) : Prop :=
  Never (fun cause => ¬ cause.Repeats names hashes) outcome

section

variable {α : Type} {names more : List String} {hashes others : List UInt64}
  {outcome : Except Fault α}

theorem OnlyRepeats.of_never (h : Never Foreign outcome) : OnlyRepeats names hashes outcome :=
  h.mono fun cause hNot => by
    cases cause with
    | duplicateLabel label => trivial
    | duplicateNative hash => trivial
    | _ => exact (hNot trivial).elim

/-- What is there twice is so among more as well. -/
theorem OnlyRepeats.append (h : OnlyRepeats names hashes outcome) :
    OnlyRepeats (names ++ more) (hashes ++ others) outcome :=
  h.mono fun cause hNot hRepeats => hNot <| by
    cases cause with
    | duplicateLabel label => exact hRepeats.mono_sublist (List.sublist_append_left ..)
    | duplicateNative hash => exact hRepeats.mono_sublist (List.sublist_append_left ..)
    | _ => trivial

theorem onlyRepeats_label {line : Line} {label : String} (h : List.Duplicate label names) :
    OnlyRepeats names hashes (.error (line.fault (.duplicateLabel label)) : Except Fault α) := by
  simpa [Line.fault, Cause.Repeats] using h

/-- What stands in both parts is there twice. -/
theorem duplicate_append {β : Type} [DecidableEq β] {item : β} {first second : List β}
    (hFirst : item ∈ first) (hSecond : item ∈ second) : List.Duplicate item (first ++ second) := by
  rw [List.duplicate_iff_two_le_count, List.count_append]
  have := List.count_pos_iff.mpr hFirst
  have := List.count_pos_iff.mpr hSecond
  omega

end

/-! Instructions -/

namespace Expansion

variable (expansion : Expansion)

theorem pushInt_never (value : Int) : Never Foreign (expansion.pushInt value) := by
  unfold pushInt
  repeat' split
  all_goals simp [fault, Line.fault, Foreign]

theorem single_never (operands : List Operand) : Never Foreign (expansion.single operands) := by
  unfold single
  split <;> simp [fault, Line.fault, Foreign]

theorem integer_never (operand : Operand) : Never Foreign (expansion.integer operand) := by
  have hOperand := Environment.intOperand_never expansion.line operand expansion.symbols
  unfold integer
  split
  · next h =>
      rw [h] at hOperand
      simpa using hOperand
  · exact Never.ok _
  · simp [fault, Line.fault, Foreign]

theorem pushOperand_never (operand : Operand) : Never Foreign (expansion.pushOperand operand) := by
  unfold pushOperand
  split
  · exact expansion.pushInt_never _
  · exact Never.ok _
  · exact (expansion.integer_never _).bind expansion.pushInt_never
  · split
    · exact expansion.pushInt_never _
    · exact Never.ok _
    · exact Never.ok _
  · simp [fault, Line.fault, Foreign]

theorem pushOperands_never (operands : List Operand) :
    Never Foreign (expansion.pushOperands operands) := by
  induction operands with
  | nil => exact Never.ok _
  | cons operand rest ih =>
      exact (expansion.pushOperand_never operand).bind fun _ => ih.bind fun _ => Never.ok _

theorem apply_never (rule : Rule) (operands : List Operand) :
    Never Foreign (expansion.apply rule operands) := by
  have hUnsigned : ∀ narrow wide narrowLimit wideLimit what,
      Never Foreign (expansion.unsigned operands narrow wide narrowLimit wideLimit what) := by
    intro narrow wide narrowLimit wideLimit what
    refine (expansion.single_never operands).bind fun operand =>
      (expansion.integer_never operand).bind fun value => ?_
    repeat' split
    all_goals simp [fault, Line.fault, Foreign, pure, Except.pure]
  cases rule with
  | pushConstants =>
      rw [apply]
      split
      · simp [fault, Line.fault, Foreign]
      · exact expansion.pushOperands_never operands
  | pushText =>
      refine (expansion.single_never operands).bind fun operand => ?_
      split
      · split
        · exact (expansion.pushInt_never _).bind fun _ => Never.ok _
        · simp [fault, Line.fault, Foreign]
      · simp [fault, Line.fault, Foreign]
  | index narrow wide => exact hUnsigned _ _ _ _ _
  | globalId narrow wide => exact hUnsigned _ _ _ _ _
  | immediate narrow wide general =>
      refine (expansion.single_never operands).bind fun operand => ?_
      refine (expansion.integer_never operand).bind fun value => ?_
      split
      · exact Never.ok _
      · split
        · exact Never.ok _
        · exact (expansion.pushInt_never _).bind fun _ => Never.ok _

end Expansion

/-- Expanding an instruction knows nothing of other lines, so it reports no name
and no hash as repeated. -/
theorem expand_never (symbols : Symbols) (strings : StringPages) (line : Line) (mnemonic : String)
    (operands : List Operand) : Never Foreign (expand symbols strings line mnemonic operands) := by
  unfold expand
  split
  · exact Never.ok _
  · split
    · exact Expansion.apply_never _ _ _
    · simp [Line.fault, Foreign]

theorem Primitive.size_never (primitive : Primitive) (line : Line) (options : Options) :
    Never Foreign (primitive.size line options) := by
  have hCount : Never Foreign (primitive.checkCount line) := by
    unfold checkCount
    dsimp only
    repeat' split
    all_goals simp [countFault, Line.fault, Foreign]
  refine hCount.bind fun _ => ?_
  split
  · exact Never.ok _
  · split
    · exact (Environment.frameName_never line primitive options).bind fun _ => Never.ok _
    · dsimp only
      split
      · simp [Line.fault, Foreign]
      · exact Never.ok _

theorem placeAll_never (line : Line) (options : Options) (codeEnd : Nat)
    (primitives : List Primitive) :
    Never Foreign (placeAll line options codeEnd primitives) := by
  induction primitives generalizing codeEnd with
  | nil => exact Never.ok _
  | cons primitive rest ih =>
      exact (primitive.size_never line options).bind fun _ => (ih _).bind fun _ => Never.ok _

/-- Only the labels in front of an instruction can be repeated, not the
instruction itself. -/
theorem LayoutState.place_never (state : LayoutState) (symbols : Symbols) (strings : StringPages)
    (options : Options) (line : Line) :
    Never Foreign (state.place symbols strings options line) := by
  unfold LayoutState.place
  split
  · exact Never.ok _
  · refine (expand_never _ _ _ _ _).bind fun primitives =>
      (placeAll_never _ _ _ _).bind fun placed => ?_
    split <;> exact Never.ok _

/-! Data -/

theorem PendingWord.evaluate_never (pending : PendingWord) (symbols : Symbols) :
    Never Foreign (pending.evaluate symbols) := by
  have hOperand := Environment.intOperand_never pending.line pending.operand symbols
  unfold evaluate
  dsimp only
  split
  · exact Never.ok _
  · split
    · next h =>
        rw [h] at hOperand
        simpa using hOperand
    · unfold ofInt
      split
      · exact Never.ok _
      · split <;> simp [Line.fault, Foreign]
    · split <;> simp [Line.fault, Foreign]

/-- When the words are filled in, every name of the data has been taken without
a fault. -/
theorem fillWords_never (symbols : Symbols) (pending : List PendingWord) (image : DataImage)
    (references : Array CodeReference) :
    Never Foreign (fillWords symbols pending image references) := by
  induction pending generalizing image references with
  | nil => exact Never.ok _
  | cons first rest ih =>
      have hFirst := first.evaluate_never symbols
      rw [fillWords]
      split
      · next h =>
          rw [h] at hFirst
          simpa using hFirst
      · exact ih _ _
      · exact ih _ _

theorem resolveReferences_never (labels : LabelTable) (references : List CodeReference)
    (image : DataImage) :
    Never Foreign (resolveReferences labels references image) := by
  induction references generalizing image with
  | nil => exact Never.ok _
  | cons reference rest ih =>
      rw [resolveReferences]
      split
      · simp [Foreign]
      · exact ih _

namespace Collection

theorem checkCapacity_never (image : DataImage) : Never Foreign (checkCapacity image) := by
  unfold checkCapacity
  dsimp only
  repeat' split
  all_goals simp [Foreign]

section

variable {names : List String} {hashes : List UInt64} {line : Line} {collection next : Collection}

theorem enterSegment_never (collection : Collection) (line : Line) :
    Never Foreign (collection.enterSegment line) := by
  unfold enterSegment
  repeat' split
  all_goals simp [Line.fault, Foreign]

theorem constantValue_never (collection : Collection) (line : Line) (operand : Operand) :
    Never Foreign (collection.constantValue line operand) := by
  unfold constantValue
  repeat' split
  all_goals simp [Line.fault, Foreign]

theorem addWords_never (collection : Collection) (line : Line) (kind : WordKind)
    (operands : List Operand) :
    Never Foreign (collection.addWords line kind operands) := by
  unfold addWords
  split <;> simp [Line.fault, Foreign]

theorem addZeros_never (collection : Collection) (line : Line) (count : Nat) :
    Never Foreign (collection.addZeros line count) := by
  unfold addZeros
  split <;> simp [Line.fault, Foreign]

theorem nativeHashes_cons (line : Line) (rest : List Line) :
    nativeHashes (line :: rest) = line.native?.toList ++ nativeHashes rest := by
  cases hNative : line.native? <;> simp [nativeHashes, hNative]

theorem enterSegment_natives (h : collection.enterSegment line = .ok next) :
    next.natives = collection.natives := by
  unfold enterSegment at h
  repeat' split at h
  all_goals cases h
  all_goals rfl

theorem noteLabel_natives (h : collection.noteLabel line = .ok next) :
    next.natives = collection.natives := by
  rcases noteLabel_adds h with ⟨rfl, _⟩ | ⟨_, _, _, _, _, rfl⟩ <;> rfl

theorem noteLabel_symbols (h : collection.noteLabel line = .ok next) :
    next.symbols = collection.symbols := by
  rcases noteLabel_adds h with ⟨rfl, _⟩ | ⟨_, _, _, _, _, rfl⟩ <;> rfl

theorem defineSymbol_natives {value : Nat} (h : collection.defineSymbol line value = .ok next) :
    next.natives = collection.natives := by
  unfold defineSymbol at h
  repeat' split at h
  all_goals cases h
  all_goals rfl

/-- Only the inclusion of a native changes the table, and it stands among the
natives. -/
theorem addContent_native (h : collection.addContent line = .ok next) :
    line.native? = none ∧ next.natives = collection.natives ∨
      line.segment = .natives ∧ ∃ hash index, line.native? = some hash ∧
        collection.natives.add hash = (.ok index, next.natives) := by
  unfold addContent at h
  split at h
  · next hContent =>
      split at h
      · cases h
        exact .inl ⟨by simp [Line.native?, hContent], rfl⟩
      · cases h
  · next hContent =>
      split at h
      · cases h
      · cases h
        exact .inl ⟨by simp [Line.native?, hContent], rfl⟩
  · next directive hContent =>
      cases directive with
      | native hash =>
          have hNative : line.native? = some hash := by rw [Line.native?, hContent]
          rw [addDirective, addNative] at h
          split at h
          · next hSegment =>
              split at h
              · next index natives hIncluded =>
                  rw [defineSymbol_natives h]
                  exact .inr ⟨hSegment, hash, index, hNative, hIncluded⟩
              · cases h
          · cases h
      | text text =>
          rw [addDirective, addText] at h
          split at h
          · split at h
            · exact .inl ⟨by simp [Line.native?, hContent], by rw [defineSymbol_natives h]⟩
            · cases h
          · cases h
      | const name operand =>
          obtain ⟨value, _, h⟩ := bind_eq_ok.mp h
          split at h
          · cases h
          · cases h
            exact .inl ⟨by simp [Line.native?, hContent], rfl⟩
      | _ =>
          simp only [addDirective, addWords, addZeros] at h
          repeat' split at h
          all_goals cases h
          all_goals exact .inl ⟨by simp [Line.native?, hContent], rfl⟩

/-- A line includes a native or leaves the natives as they are. -/
theorem add_native (h : collection.add line = .ok next) :
    line.native? = none ∧ next.natives = collection.natives ∨
      line.segment = .natives ∧ ∃ hash index, line.native? = some hash ∧
        collection.natives.add hash = (.ok index, next.natives) := by
  obtain ⟨entered, hEntered, h⟩ := bind_eq_ok.mp h
  obtain ⟨noted, hNoted, h⟩ := bind_eq_ok.mp h
  rw [← enterSegment_natives hEntered, ← noteLabel_natives hNoted]
  exact addContent_native h

/-- The hash of a native that is included stands behind those before it. -/
theorem add_natives (h : collection.add line = .ok next) :
    next.natives.hashes = collection.natives.hashes ++ line.native?.toList := by
  rcases add_native h with ⟨hNone, hSame⟩ | ⟨_, hash, index, hNative, hIncluded⟩
  · rw [hNone, hSame, Option.toList_none, List.append_nil]
  · rw [hNative, NativeTable.hashes_add hIncluded, Option.toList_some]

/-- A label of words is only rejected if it was defined before. -/
theorem Records.noteLabel_onlyRepeats {lines : List Line}
    (h : Records (lines.flatMap Line.definitions) collection) :
    OnlyRepeats (definedNames lines ++ line.definedNames) hashes (collection.noteLabel line) := by
  unfold Collection.noteLabel
  split
  · exact Never.ok _
  · next label hLabel =>
      split
      · exact Never.ok _
      · split
        · next hTaken =>
            refine onlyRepeats_label (duplicate_append ?_ (Line.mem_definedNames_of_label hLabel))
            rw [Bool.or_eq_true] at hTaken
            rcases hTaken with hKnown | hLabelled
            · exact h.mem_of_contains hKnown
            · exact mem_definedNames ((h.words label).mp ((h.labelled label).mp hLabelled))
        · exact Never.ok _

section

variable (hKnown : ∀ name, collection.symbols.contains name = true → name ∈ names)
include hKnown

/-- The label of a string or a native is only rejected if it was defined before. -/
theorem defineSymbol_onlyRepeats (value : Nat) :
    OnlyRepeats (names ++ line.definedNames) hashes (collection.defineSymbol line value) := by
  unfold defineSymbol
  split
  · exact Never.ok _
  · next label hLabel =>
      split
      · next hTaken =>
          exact onlyRepeats_label (duplicate_append (hKnown label hTaken)
            (Line.mem_definedNames_of_label hLabel))
      · exact Never.ok _

/-- A constant is only rejected if it was defined before. -/
theorem defineConstant_onlyRepeats {name : String} {operand : Operand}
    (hContent : line.statement.content = .directive (.const name operand)) :
    OnlyRepeats (names ++ line.definedNames) hashes
      (collection.defineConstant line name operand) := by
  refine (OnlyRepeats.of_never (constantValue_never collection line operand)).bind fun value => ?_
  split
  · next hTaken =>
      refine onlyRepeats_label (duplicate_append (hKnown name ?_)
        (Line.mem_definedNames_of_const hContent))
      rw [Symbols.contains, hTaken, Bool.true_or]
  · exact Never.ok _

/-- A native is only rejected if its hash was included before, or its label
defined. -/
theorem addNative_onlyRepeats {hash : UInt64}
    (hContent : line.statement.content = .directive (.native hash)) :
    OnlyRepeats (names ++ line.definedNames) (collection.natives.hashes ++ line.native?.toList)
      (collection.addNative line hash) := by
  have hNative : line.native? = some hash := by rw [Line.native?, hContent]
  unfold addNative
  split
  · split
    · next index natives hIncluded =>
        refine defineSymbol_onlyRepeats ?_ index
        exact hKnown
    · next fault _ hFault =>
        rcases NativeTable.add_error hFault with ⟨rfl, hMem⟩ | rfl
        · simpa [Line.fault, Cause.ofNativeTable, Cause.Repeats, hNative] using
            duplicate_append hMem (List.mem_singleton.mpr rfl)
        · simp [Line.fault, Cause.ofNativeTable, Cause.Repeats]
  · simp [Line.fault, Cause.Repeats]

/-- What a line says is only rejected as a repetition if it repeats what was
said before. -/
theorem addContent_onlyRepeats :
    OnlyRepeats (names ++ line.definedNames) (collection.natives.hashes ++ line.native?.toList)
      (collection.addContent line) := by
  unfold addContent
  split
  · refine .of_never ?_
    split <;> simp [Line.fault, Foreign]
  · refine .of_never ?_
    split <;> simp [Line.fault, Foreign]
  · next directive hContent =>
      cases directive with
      | segment segment => exact Never.ok _
      | scriptName name => exact Never.ok _
      | scriptHash hash => exact Never.ok _
      | ints operands => exact .of_never (addWords_never collection line .int operands)
      | floats operands => exact .of_never (addWords_never collection line .float operands)
      | zero count => exact .of_never (addZeros_never collection line _)
      | const name operand => exact defineConstant_onlyRepeats hKnown hContent
      | native hash => exact addNative_onlyRepeats hKnown hContent
      | text text =>
          rw [addDirective, addText]
          split
          · split
            · next offset strings _ =>
                refine defineSymbol_onlyRepeats ?_ offset
                exact hKnown
            · simp [Line.fault, Cause.Repeats]
          · simp [Line.fault, Cause.Repeats]

end

/-- A line is only rejected as a repetition if it repeats what was said before. -/
theorem Records.add_onlyRepeats {lines : List Line}
    (h : Records (lines.flatMap Line.definitions) collection) :
    OnlyRepeats (definedNames lines ++ line.definedNames)
      (collection.natives.hashes ++ line.native?.toList) (collection.add line) := by
  refine (OnlyRepeats.of_never (enterSegment_never collection line)).bind_ok
    fun entered hEntered => ?_
  have hRecords := h.of_keeps (enterSegment_names hEntered)
  refine Never.bind_ok hRecords.noteLabel_onlyRepeats fun noted hNoted => ?_
  rw [← enterSegment_natives hEntered, ← noteLabel_natives hNoted]
  refine addContent_onlyRepeats fun name hName => hRecords.mem_of_contains ?_
  rwa [← noteLabel_symbols hNoted]

/-- Lines are only rejected as repetitions if one of them repeats what was said
before. -/
theorem Records.addAll_onlyRepeats {lines rest : List Line}
    (h : Records (lines.flatMap Line.definitions) collection) :
    OnlyRepeats (definedNames lines ++ definedNames rest)
      (collection.natives.hashes ++ nativeHashes rest) (collection.addAll rest) := by
  induction rest generalizing lines collection with
  | nil => exact Never.ok _
  | cons line rest ih =>
      have hFirst : OnlyRepeats _ _ (collection.add line) := h.add_onlyRepeats
      rw [nativeHashes_cons, definedNames_cons, ← List.append_assoc, ← List.append_assoc,
        Collection.addAll]
      split
      · next fault hFault =>
          rw [hFault] at hFirst
          simpa using hFirst.append
      · next middle hMiddle =>
          have hMiddleRecords := h.add hMiddle
          rw [← List.flatMap_singleton Line.definitions line,
            ← List.flatMap_append] at hMiddleRecords
          rw [← add_natives hMiddle]
          simpa using ih hMiddleRecords

end

/-- The included natives stand in the table in order. -/
theorem addAll_natives {lines : List Line} {collection next : Collection}
    (h : collection.addAll lines = .ok next) :
    next.natives.hashes = collection.natives.hashes ++ nativeHashes lines := by
  induction lines generalizing collection with
  | nil =>
      cases h
      simp [nativeHashes]
  | cons line rest ih =>
      rw [Collection.addAll] at h
      split at h
      · cases h
      · next middle hMiddle =>
          rw [ih h, add_natives hMiddle, nativeHashes_cons, List.append_assoc]

/-- Every included native has an index. -/
theorem addAll_natives_length {lines : List Line} {collection next : Collection}
    (h : collection.addAll lines = .ok next)
    (hSize : collection.natives.hashes.length ≤ NativeTable.limit) :
    next.natives.hashes.length ≤ NativeTable.limit := by
  induction lines generalizing collection with
  | nil =>
      cases h
      exact hSize
  | cons line rest ih =>
      rw [Collection.addAll] at h
      split at h
      · cases h
      · next middle hMiddle =>
          refine ih h ?_
          rcases add_native hMiddle with ⟨_, hSame⟩ | ⟨_, hash, index, _, hIncluded⟩
          · rwa [hSame]
          · exact NativeTable.length_add_le hIncluded

end Collection

/-! Passes -/

/-- A line that gives a symbol its value: it has it as a label outside of the
code, or as a constant. -/
def Line.DefinesSymbol (line : Line) (name : String) : Prop :=
  line.segment ≠ .code ∧ line.label = some name ∨ line.constant? = some name

section

variable {lines : List Line} {line : Line} {data : DataUnit}

/-- A definition that is taken gives a symbol its value. -/
theorem Collection.definesSymbol_of_add {collection next : Collection}
    (h : collection.add line = .ok next)
    {definition : Definition} (hDefinition : definition ∈ line.definitions) :
    line.DefinesSymbol definition.name := by
  obtain ⟨_, _, h⟩ := bind_eq_ok.mp h
  obtain ⟨noted, _, h⟩ := bind_eq_ok.mp h
  rw [Line.definitions, List.mem_append] at hDefinition
  rcases hDefinition with hWords | hContent
  · rw [Line.wordDefinitions] at hWords
    split at hWords
    · next hHolds =>
        obtain ⟨label, hLabel, rfl⟩ := List.mem_map.mp hWords
        refine .inl ⟨?_, Option.mem_toList.mp hLabel⟩
        rintro hCode
        rw [hCode] at hHolds
        cases hHolds
    · cases hWords
  · rw [Line.contentDefinitions] at hContent
    split at hContent
    · next directive hDirective =>
        rw [addContent, hDirective] at h
        cases directive with
        | const name operand =>
            rw [List.mem_singleton.mp hContent]
            exact .inr (by rw [Line.constant?, hDirective])
        | text text =>
            obtain ⟨label, hLabel, rfl⟩ := List.mem_map.mp hContent
            refine .inl ⟨?_, Option.mem_toList.mp hLabel⟩
            rintro hCode
            simp [addDirective, addText, hCode] at h
        | native hash =>
            obtain ⟨label, hLabel, rfl⟩ := List.mem_map.mp hContent
            refine .inl ⟨?_, Option.mem_toList.mp hLabel⟩
            rintro hCode
            simp [addDirective, addNative, hCode] at h
        | _ => cases hContent
    · cases hContent

/-- What is defined once all lines are taken is defined by one of them. -/
theorem Collection.definesSymbol_of_addAll {collection next : Collection}
    (h : collection.addAll lines = .ok next)
    {definition : Definition} (hDefinition : definition ∈ lines.flatMap Line.definitions) :
    ∃ line ∈ lines, line.DefinesSymbol definition.name := by
  induction lines generalizing collection with
  | nil => cases hDefinition
  | cons first rest ih =>
      rw [Collection.addAll] at h
      split at h
      · cases h
      · next middle hMiddle =>
          rw [List.flatMap_cons, List.mem_append] at hDefinition
          rcases hDefinition with hFirst | hLater
          · exact ⟨first, by simp, definesSymbol_of_add hMiddle hFirst⟩
          · obtain ⟨line, hLine, hDefines⟩ := ih h hLater
            exact ⟨line, by simp [hLine], hDefines⟩

/-- The data of a unit is only rejected as a repetition if it has a name or a
native twice. -/
theorem collectData_onlyRepeats (lines : List Line) :
    OnlyRepeats (definedNames lines) (nativeHashes lines) (collectData lines) := by
  have hStart : Collection.Records (([] : List Line).flatMap Line.definitions) .empty :=
    Collection.records_empty
  have hAll : OnlyRepeats (definedNames lines) (nativeHashes lines)
      (Collection.empty.addAll lines) :=
    hStart.addAll_onlyRepeats
  refine hAll.bind fun collected => ?_
  refine (OnlyRepeats.of_never (Collection.checkCapacity_never _)).bind fun _ => ?_
  exact (OnlyRepeats.of_never (fillWords_never _ _ _ _)).bind fun _ => Never.ok _

/-- What data a unit has comes from its lines: every symbol is defined by one of
them, and the table has the natives that they include, in order. -/
theorem collectData_ok (h : collectData lines = .ok data) :
    (∀ name, data.symbols.contains name = true → ∃ line ∈ lines, line.DefinesSymbol name) ∧
      data.natives.hashes = nativeHashes lines := by
  obtain ⟨collected, hCollected, h⟩ := bind_eq_ok.mp h
  obtain ⟨_, _, h⟩ := bind_eq_ok.mp h
  obtain ⟨⟨filled, references⟩, _, h⟩ := bind_eq_ok.mp h
  cases h
  have hRecords := Collection.records_empty.addAll hCollected
  rw [List.nil_append] at hRecords
  refine ⟨fun name hName => ?_, Collection.addAll_natives hCollected⟩
  rw [Symbols.contains, Bool.or_eq_true, Collection.contains_defineLabels] at hName
  rcases hName with hConstant | hEntry | hWords
  · exact Collection.definesSymbol_of_addAll hCollected ((hRecords.constants name).mp hConstant)
  · exact Collection.definesSymbol_of_addAll hCollected ((hRecords.entries name).mp hEntry)
  · exact Collection.definesSymbol_of_addAll hCollected ((hRecords.words name).mp hWords)

end

section

variable {lines rest all : List Line} {line other : Line} {label : String}

theorem mem_definedNames_of_codeLabels (h : label ∈ codeLabels lines) :
    label ∈ definedNames lines := by
  obtain ⟨line, hLine, hOwn⟩ := List.mem_filterMap.mp h
  rw [Line.codeLabel?] at hOwn
  split at hOwn
  · exact List.mem_flatMap.mpr ⟨line, hLine, Line.mem_definedNames_of_label hOwn⟩
  · cases hOwn

theorem Line.DefinesSymbol.mem_definedNames (h : line.DefinesSymbol label) :
    label ∈ line.definedNames := by
  rcases h with ⟨_, hLabel⟩ | hConstant
  · exact mem_definedNames_of_label hLabel
  · simp [definedNames, hConstant]

/-- A name on a line and on one before is there twice. -/
theorem duplicate_of_before (hAll : all = lines ++ line :: rest) (hOwn : label ∈ line.definedNames)
    (hMem : label ∈ definedNames lines) : List.Duplicate label (definedNames all) := by
  rw [hAll, definedNames_append, definedNames_cons]
  exact duplicate_append hMem (List.mem_append_left _ hOwn)

/-- A code label that is a symbol as well is there twice. -/
theorem duplicate_of_definesSymbol (hAll : all = lines ++ line :: rest)
    (hCode : line.segment = .code)
    (hLabel : line.label = some label) (hOther : other ∈ all)
    (hDefines : other.DefinesSymbol label) :
    List.Duplicate label (definedNames all) := by
  have hOwn := Line.mem_definedNames_of_label hLabel
  have hName := hDefines.mem_definedNames
  have hEntries := hOther
  rw [hAll, List.mem_append, List.mem_cons] at hEntries
  rcases hEntries with hEarlier | rfl | hLater
  · exact duplicate_of_before hAll hOwn (List.mem_flatMap.mpr ⟨other, hEarlier, hName⟩)
  · -- The line itself is in the code, so that it defines a constant of the name of its own label.
    have hConstant : other.constant? = some label :=
      hDefines.resolve_left fun hData => hData.1 hCode
    have hTwice : List.Duplicate label other.definedNames := by
      rw [Line.definedNames, hLabel, hConstant]
      exact duplicate_append (by simp) (by simp)
    rw [hAll, definedNames_append, definedNames_cons]
    exact hTwice.mono_sublist ((List.sublist_append_left _ _).trans (List.sublist_append_right _ _))
  · have hAfter : label ∈ definedNames rest := List.mem_flatMap.mpr ⟨other, hLater, hName⟩
    rw [hAll, definedNames_append, definedNames_cons]
    exact (duplicate_append hOwn hAfter).mono_sublist (List.sublist_append_right _ _)

end

namespace LayoutState

variable {symbols : Symbols} {options : Options} {lines rest all : List Line} {line : Line}
  {strings : StringPages} {state : LayoutState} {hashes : List UInt64}

/-- A code label is only rejected if it is a symbol or the label of a line
before. -/
theorem Knows.note_onlyRepeats (h : state.Knows lines) (hAll : all = lines ++ line :: rest)
    (hSymbols : ∀ name, symbols.contains name = true → ∃ line ∈ all, line.DefinesSymbol name) :
    OnlyRepeats (definedNames all) hashes (state.note symbols line) := by
  unfold LayoutState.note
  split
  · next hCode =>
      unfold noteLabel
      split
      · exact Never.ok _
      · next label hLabel =>
          split
          · next hTaken =>
              refine onlyRepeats_label ?_
              rw [Bool.or_eq_true, Bool.or_eq_true, or_assoc] at hTaken
              rcases hTaken with hKnown | hSeen
              · obtain ⟨other, hOther, hDefines⟩ := hSymbols label hKnown
                exact duplicate_of_definesSymbol hAll hCode hLabel hOther hDefines
              · exact duplicate_of_before hAll (Line.mem_definedNames_of_label hLabel)
                  (mem_definedNames_of_codeLabels (h label hSeen))
          · exact Never.ok _
  · exact Never.ok _

/-- Lines are only rejected as repetitions if the code has a label that is there
already. -/
theorem Knows.addAll_onlyRepeats (h : state.Knows lines) (hAll : all = lines ++ rest)
    (hSymbols : ∀ name, symbols.contains name = true → ∃ line ∈ all, line.DefinesSymbol name) :
    OnlyRepeats (definedNames all) hashes
      (LayoutState.addAll symbols options rest state strings).1 := by
  induction rest generalizing lines state strings with
  | nil => exact Never.ok _
  | cons line rest ih =>
      have hNote : OnlyRepeats _ hashes (state.note symbols line) :=
        h.note_onlyRepeats hAll hSymbols
      have hPlace : ∀ noted : LayoutState, OnlyRepeats (definedNames all) hashes
          (noted.place symbols (line.store strings) options line) :=
        fun noted => .of_never (noted.place_never _ _ _ _)
      rw [addAll_line]
      split
      · next fault hFault => rwa [hFault] at hNote
      · next noted hNoted =>
          split
          · next fault hFault =>
              have hPlaced := hPlace noted
              rwa [hFault] at hPlaced
          · next next hNext => exact ih ((h.of_note hNoted).of_place hNext) (by simp [hAll])

end LayoutState

/-- The layout reports a label as repeated only if two lines define that name,
the data included. -/
theorem layoutCode_onlyRepeats {symbols : Symbols} {options : Options} {lines : List Line}
    {strings : StringPages} {hashes : List UInt64}
    (hSymbols : ∀ name, symbols.contains name = true → ∃ line ∈ lines, line.DefinesSymbol name) :
    OnlyRepeats (definedNames lines) hashes (layoutCode symbols options lines strings).1 := by
  have hStart : LayoutState.start.Knows [] := by
    intro label hLabel
    rcases hLabel with hNone | hNone <;> simp [LayoutState.start] at hNone
  have hAll : OnlyRepeats (definedNames lines) hashes
      (LayoutState.addAll symbols options lines .start strings).1 :=
        hStart.addAll_onlyRepeats rfl hSymbols
  unfold layoutCode
  split
  · next hFault =>
      rw [hFault] at hAll
      simpa using hAll
  · exact Never.ok _

/-- Once the layout has succeeded, emission finds the same primitives and
repeats nothing. -/
theorem emitCode_never {source : NativeSource} {options : Options} {symbols : Symbols}
    {lines : List Line} {strings stored : StringPages} {layout : Layout} (natives : NativeTable)
    (h : layoutCode symbols options lines strings = (.ok layout, stored)) :
    Never Foreign
      (emitCode ⟨symbols, layout.labels, source, options⟩ stored layout lines natives) := by
  obtain ⟨rows, hRows, hAddresses, _, _⟩ := layoutCode_ok h
  have hEmit : emitCode ⟨symbols, layout.labels, source, options⟩ stored layout lines natives = _ :=
    emitCode_eq_foldlM hRows hAddresses
  rw [hEmit]
  exact foldlM_emit_never _ _

/-- A unit is only rejected as repeating a label or a native if its lines have
this name twice, or include this hash twice. -/
theorem assemble_onlyRepeats (source : NativeSource) (options : Options)
    (statements : List Statement) :
    OnlyRepeats (definedNames (scopeLines statements)) (nativeHashes (scopeLines statements))
      (assemble source options statements) := by
  refine (collectData_onlyRepeats (scopeLines statements)).bind_ok fun data hCollected => ?_
  have hLayout : OnlyRepeats (definedNames (scopeLines statements))
      (nativeHashes (scopeLines statements))
      (layoutCode data.symbols options (scopeLines statements) data.strings).1 :=
    layoutCode_onlyRepeats (collectData_ok hCollected).1
  cases hLaidOut : layoutCode data.symbols options (scopeLines statements) data.strings with
  | mk outcome strings =>
      rw [hLaidOut] at hLayout
      refine hLayout.bind_ok fun layout hOutcome => ?_
      dsimp only at hOutcome ⊢
      subst hOutcome
      split
      · simp [bind, Except.bind, Cause.Repeats]
      · refine (OnlyRepeats.of_never (resolveReferences_never _ _ _)).bind fun image => ?_
        exact (OnlyRepeats.of_never (emitCode_never data.natives hLaidOut)).bind
          fun code => Never.ok _

end ScriptBackend.Assembly
