import ScriptBackend.Proofs.Assembly.DataChannels
import ScriptBackend.Proofs.Assembly.WordLabels

/-!
What a unit declares its data to be. Names are given their meaning by the lines
that define them, wherever these stand; the words of an assembled unit are those
that its lines declare, although the assembler finds them in four steps:
constants at once, labels when all words are counted, most words then, and code
addresses at the end.
-/
namespace ScriptBackend.Assembly

open Outcome

/-- The value of a constant: a number, or the value of another constant. -/
inductive ConstantValue (lines : List Line) : String → Value → Prop where
  | int {line : Line} {name : String} {value : Int64} (mem : line ∈ lines)
      (content : line.statement.content = .directive (.const name (.int value))) :
      ConstantValue lines name (.int value.toInt)
  | float {line : Line} {name : String} {value : Binary32} (mem : line ∈ lines)
      (content : line.statement.content = .directive (.const name (.float value))) :
      ConstantValue lines name (.float value)
  | name {line : Line} {name other : String} {value : Value} (mem : line ∈ lines)
      (content : line.statement.content = .directive (.const name (.name other)))
      (known : ConstantValue lines other value) : ConstantValue lines name value

/-- What the data of a unit refers to: the lines that declare it, the strings,
the natives by index, and the code. -/
structure Declarations where
  lines : List Line
  strings : StringPages
  nativeHash? : Nat → Option UInt64
  rows : List (List Located)
  codeLength : Nat

namespace Declarations

variable (declarations : Declarations)

/-- What a label outside of the code stands for, and the number of words that
belong to it. A static has its index and an argument one behind all statics, a
global its id, a string its offset and a native its index. -/
inductive Label (name : String) : Nat → Nat → Prop where
  | static {i : Nat} {line : Line} {words : Nat} (line_eq : declarations.lines[i]? = some line)
      (label : line.label = some name) (segment : line.segment = .statics)
      (reach : Reach .statics declarations.lines (wordOffset .statics declarations.lines i) words) :
      Label name (wordOffset .statics declarations.lines i) words
  | argument {i : Nat} {line : Line} {words : Nat} (line_eq : declarations.lines[i]? = some line)
      (label : line.label = some name) (segment : line.segment = .arguments)
      (reach : Reach .arguments declarations.lines
        (wordOffset .arguments declarations.lines i) words) :
      Label name ((wordSources .statics declarations.lines).length +
        wordOffset .arguments declarations.lines i) words
  | global {i : Nat} {line : Line} {block : UInt8} {words : Nat}
      (line_eq : declarations.lines[i]? = some line)
      (label : line.label = some name) (segment : line.segment = .globals block)
      (reach : Reach .globals declarations.lines (wordOffset .globals declarations.lines i) words) :
      Label name (globalId block (wordOffset .globals declarations.lines i)) words
  | text {line : Line} {text : String} {offset : Nat} (mem : line ∈ declarations.lines)
      (label : line.label = some name) (content : line.statement.content = .directive (.text text))
      (stored : declarations.strings.offset? text = some offset) : Label name offset 0
  | native {line : Line} {hash : UInt64} {index : Nat} (mem : line ∈ declarations.lines)
      (label : line.label = some name)
        (content : line.statement.content = .directive (.native hash))
      (stored : declarations.nativeHash? index = some hash) : Label name index 0

/-- The address of a label of the code: that of the next primitive, or the end
of the code. -/
inductive Address (name : String) : Nat → Prop where
  | code {i : Nat} {line : Line} (line_eq : declarations.lines[i]? = some line)
      (segment : line.segment = .code) (label : line.label = some name) :
      Address name (firstAddress (declarations.rows.drop i).flatten declarations.codeLength)

/-- The integer that an operand on a line denotes: a literal, a constant, a
label or a number of words. -/
inductive Integer (line : Line) : Operand → Int → Prop where
  | literal (value : Int64) : Integer line (.int value) value.toInt
  | constant {name : String} {value : Int}
      (known : ConstantValue declarations.lines (line.qualify name) (.int value)) :
      Integer line (.name name) value
  | label {name : String} {value words : Nat}
      (known : declarations.Label (line.qualify name) value words) :
      Integer line (.name name) value
  | sizeOf {name : String} {value words : Nat}
      (known : declarations.Label (line.qualify name) value words) :
      Integer line (.sizeOf name) words

/-- The word of an operand. Integers that fit 32 bits are cut to them, and
converted where a float is asked for; only a word for an integer may hold an
address of the code. -/
inductive Declares : WordSource → Word → Prop where
  | int {line : Line} {operand : Operand} {value : Int}
      (known : declarations.Integer line operand value)
      (least : leastInt32 ≤ value) (greatest : value ≤ greatestUInt32) :
      Declares ⟨line, .int, operand⟩ (Word.ofInt value)
  | address {line : Line} {name : String} {address : Nat}
      (known : declarations.Address (line.qualify name) address) :
      Declares ⟨line, .int, .name name⟩ (Word.ofInt address)
  | converted {line : Line} {operand : Operand} {value : Int}
      (known : declarations.Integer line operand value) :
      Declares ⟨line, .float, operand⟩ (Word.ofFloat (Binary32.ofInt value))
  | float {line : Line} {value : Binary32} :
      Declares ⟨line, .float, .float value⟩ (Word.ofFloat value)
  | floatConstant {line : Line} {name : String} {value : Binary32}
      (known : ConstantValue declarations.lines (line.qualify name) (.float value)) :
      Declares ⟨line, .float, .name name⟩ (Word.ofFloat value)

/-- The word of a place. A place that is only counted holds zero. -/
def DeclaresWord : Option WordSource → Word → Prop
  | none, word => word = Word.zero
  | some source, word => declarations.Declares source word

end Declarations

/-! Constants and strings -/

namespace Collection

variable {lines rest : List Line} {line : Line} {collection next : Collection}

/-- A constant that a line defines has the value that the lines declare, if
those before it have theirs. -/
theorem constantValue_of_add (hLine : line ∈ lines)
    (hKnown : ∀ (name : String) value, collection.symbols.constants[name]? = some value →
      ConstantValue lines name value)
    (h : collection.add line = .ok next) {name : String} {value : Value}
    (hValue : next.symbols.constants[name]? = some value) : ConstantValue lines name value := by
  obtain ⟨entered, hEntered, h⟩ := bind_eq_ok.mp h
  obtain ⟨noted, hNoted, h⟩ := bind_eq_ok.mp h
  have hSymbols : noted.symbols = collection.symbols := by
    rw [← (enterSegment_names hEntered).symbols]
    rcases noteLabel_adds hNoted with ⟨rfl, _⟩ | ⟨_, _, _, _, _, rfl⟩ <;> rfl
  cases addContent_adds h with
  | nothing keeps silent =>
      rw [keeps.symbols, hSymbols] at hValue
      exact hKnown name value hValue
  | entry label stored middle definitions_eq keeps fresh entry next_eq =>
      rw [next_eq] at hValue
      dsimp only at hValue
      rw [keeps.symbols, hSymbols] at hValue
      exact hKnown name value hValue
  | constant own operand given content value_eq fresh next_eq =>
      rw [next_eq] at hValue
      dsimp only at hValue
      rw [Std.TreeMap.getElem?_insert] at hValue
      split at hValue
      · next hSame =>
          obtain rfl := Std.compare_eq_iff_eq.mp hSame
          cases hValue
          have hMeaning := constant?_of_constantValue value_eq
          cases operand with
          | int literal =>
              cases hMeaning
              exact .int hLine content
          | float literal =>
              cases hMeaning
              exact .float hLine content
          | name other => exact .name hLine content (hKnown other _ (hSymbols ▸ hMeaning))
          | _ => cases hMeaning
      · rw [hSymbols] at hValue
        exact hKnown name value hValue

/-- What a constant stands for follows the names in its lines, since a constant
is known before it is used. -/
theorem constantValue_of_addAll (hLines : ∀ line ∈ rest, line ∈ lines)
    (hKnown : ∀ (name : String) value, collection.symbols.constants[name]? = some value →
      ConstantValue lines name value)
    (h : collection.addAll rest = .ok next) {name : String} {value : Value}
    (hValue : next.symbols.constants[name]? = some value) : ConstantValue lines name value := by
  induction rest generalizing collection with
  | nil =>
      cases h
      exact hKnown name value hValue
  | cons line rest ih =>
      rw [List.forall_mem_cons] at hLines
      rw [addAll] at h
      split at h
      · cases h
      · next middle hMiddle =>
          exact ih hLines.2 (fun _ _ hFound =>
            constantValue_of_add hLines.1 hKnown hMiddle hFound) h

end Collection

/-- The labels that have an address are labels of the lines. -/
theorem LayoutState.knows_of_addAll {symbols : Symbols} {options : Options} {lines : List Line}
    {state final : LayoutState} {strings stored : StringPages} (before : List Line)
    (h : addAll symbols options lines state strings = (.ok final, stored))
    (hKnows : state.Knows before) :
    final.Knows (before ++ lines) := by
  induction lines generalizing before state strings with
  | nil =>
      cases h
      rwa [List.append_nil]
  | cons line rest ih =>
      obtain ⟨_, _, hNote, hPlace, hRest⟩ := addAll_cons_ok h
      rw [List.append_cons]
      exact ih _ hRest ((hKnows.of_note hNote).of_place hPlace)

/-- What a layout has found besides the places of the lines. -/
theorem layoutCode_found {symbols : Symbols} {options : Options} {lines : List Line}
    {strings stored : StringPages}
    {layout : Layout} (h : layoutCode symbols options lines strings = (.ok layout, stored)) :
    strings.Keeps stored ∧
      ∀ label address, layout.labels.find? label = some address → label ∈ codeLabels lines := by
  unfold layoutCode at h
  split at h
  · cases h
  · next state pages hRun =>
      cases h
      refine ⟨(LayoutState.addAll_ok LayoutState.sound_start hRun).1,
        fun label address hFound => ?_⟩
      have hKnows := LayoutState.knows_of_addAll [] hRun fun label hLabel => by
        simp [LayoutState.start] at hLabel
      have hBound : (state.bind state.codeEnd).Seen label := .inl (by
        rw [Table.contains_eq_isSome_find?, hFound]
        rfl)
      exact hKnows label (LayoutState.seen_of_bind hBound)

/-! Names -/

/-- Tables in which every name has the meaning that the lines declare. -/
structure Declarations.Tables (declarations : Declarations) (symbols : Symbols)
    (labels : LabelTable) : Prop where
  constants : ∀ (name : String) value,
    symbols.constants[name]? = some value ↔ ConstantValue declarations.lines name value
  data : ∀ (name : String) value words,
    (∃ segment, symbols.data[name]? = some ⟨segment, value, words⟩) ↔
    declarations.Label name value words
  addresses : ∀ name address, labels.find? name = some address ↔ declarations.Address name address
  dataApart : ∀ (name : String) symbol, symbols.data[name]? = some symbol →
    symbols.constants[name]? = none
  codeApart : ∀ name address, labels.find? name = some address → symbols.contains name = false

namespace Assembled

variable {source : NativeSource} {options : Options} {statements : List Statement} {script : Script}

/-- What the lines of an assembled unit declare, when its code is in given rows. -/
def declarations (unit : Assembled source options statements script) (rows : List (List Located)) :
    Declarations :=
  ⟨scopeLines statements, unit.strings, script.nativeHash?, rows, script.codeLength⟩

/-- The constants of an assembled unit have the values that its lines declare. -/
theorem constant_iff (unit : Assembled source options statements script)
    (name : String) (value : Value) :
    unit.data.symbols.constants[name]? = some value ↔
    ConstantValue (scopeLines statements) name value := by
  constructor
  · intro hValue
    obtain ⟨collected, hCollected, hSymbols, _⟩ := collectData_collected unit.collected
    rw [hSymbols] at hValue
    exact Collection.constantValue_of_addAll (fun _ hLine => hLine)
      (by simp [Collection.empty, Symbols.empty]) hCollected hValue
  · intro hValue
    have hDefined := unit.defines.constants
    induction hValue with
    | int mem content =>
        obtain ⟨value, hFound, hMeaning⟩ := hDefined _ mem _ _ content
        cases hMeaning
        exact hFound
    | float mem content =>
        obtain ⟨value, hFound, hMeaning⟩ := hDefined _ mem _ _ content
        cases hMeaning
        exact hFound
    | name mem content known ih =>
        obtain ⟨value, hFound, hMeaning⟩ := hDefined _ mem _ _ content
        rw [Collection.constant?, ih, Option.some.injEq] at hMeaning
        rw [hFound, hMeaning]

/-- The included natives are where they were when the code has been encoded. -/
theorem natives_prefix (unit : Assembled source options statements script) :
    unit.data.natives.hashes <+: unit.code.natives.hashes := by
  obtain ⟨rows, hRows, hAddresses, _, _⟩ := layoutCode_ok unit.laidOut
  obtain ⟨instructions, hEncodes, _⟩ := unit.encodes hRows hAddresses
  exact hEncodes.natives_prefix hRows.contiguous

/-- The strings of the data are stored where they were when the code has been
laid out. -/
theorem strings_keeps (unit : Assembled source options statements script) :
    unit.data.strings.Keeps unit.strings :=
  (layoutCode_found unit.laidOut).1

/-- The strings of the data come first, then those that the code pushes. -/
theorem strings_run (unit : Assembled source options statements script) :
    unit.strings = StringPages.empty.internAll ((scopeLines statements).filterMap Line.text? ++
      (scopeLines statements).filterMap Line.pushedText?) := by
  obtain ⟨collected, hCollected, _, hStrings, _⟩ := collectData_collected unit.collected
  have hRun := layoutCode_stores unit.laidOut
  rw [hStrings, (internAll_of_storeText? (Collection.addAll_takes hCollected).1.strings).1] at hRun
  rw [StringPages.internAll_append]
  exact hRun

/-- Strings that are stored one after the other leave the pages tidy. -/
theorem strings_tidy (unit : Assembled source options statements script) : unit.strings.Tidy :=
  unit.strings_run ▸ StringPages.tidy_empty.internAll _

variable {rows : List (List Located)} {name : String}

/-- A label of words stands for what the lines declare. -/
theorem label_of_words (unit : Assembled source options statements script)
    (h : ⟨.words, name⟩ ∈ (scopeLines statements).flatMap Line.definitions) {symbol : DataSymbol}
    (hSymbol : unit.data.symbols.data[name]? = some symbol) :
    (unit.declarations rows).Label name symbol.value symbol.words := by
  obtain ⟨line, hLine, hDefinition⟩ := List.mem_flatMap.mp h
  obtain ⟨i, hi⟩ := List.getElem?_of_mem hLine
  obtain ⟨hOwn, hWords⟩ := Line.of_words_mem_definitions hDefinition
  obtain ⟨region, hRegion⟩ := Collection.region?_of_holdsWords hWords
  have hLabel : line.label = some name := by
    rw [Line.wordDefinitions, if_pos hWords] at hOwn
    simpa using hOwn
  obtain ⟨words, hReach, hFound⟩ := unit.wordSymbol hi hLabel hRegion
  rw [hSymbol, Option.some.injEq] at hFound
  subst hFound
  cases hSegment : line.segment with
  | statics =>
      rw [hSegment] at hRegion
      cases hRegion
      exact .static hi hLabel hSegment hReach
  | arguments =>
      rw [hSegment] at hRegion
      cases hRegion
      have hStatics : unit.image.statics.size =
          (wordSources .statics (scopeLines statements)).length :=
        unit.holdsData.sizes .statics
      dsimp only [Collection.labelValue]
      rw [hStatics]
      exact .argument hi hLabel hSegment hReach
  | globals block =>
      rw [hSegment] at hRegion
      cases hRegion
      exact .global hi hLabel hSegment hReach
  | _ =>
      rw [hSegment] at hRegion
      cases hRegion

/-- The label of a string or a native stands for the place where that is kept. -/
theorem symbol_of_entry (unit : Assembled source options statements script)
    (hNames : (dataNames (scopeLines statements)).Nodup) {line : Line}
    (hLine : line ∈ scopeLines statements) (hOwn : ⟨.entry, name⟩ ∈ line.contentDefinitions) :
    ∃ value, line.Entry unit.data.strings unit.data.natives value ∧
      unit.data.symbols.data[name]? = some ⟨line.segment, value, 0⟩ := by
  refine unit.defines.entries line hLine name hOwn fun hWords => ?_
  cases eq_of_dataNames hNames (Line.mem_definitions_of_content hLine hOwn) hWords rfl

/-- A native keeps the place in the table that it was included in. -/
theorem nativeHash?_of_included (unit : Assembled source options statements script)
    {hash : UInt64} {index : Nat}
    (h : unit.data.natives.index? hash = some index) : script.nativeHash? index = some hash := by
  have hStored := getElem?_of_prefix unit.natives_prefix (NativeTable.index?_eq_some_iff.mp h)
  exact (unit.nativeHash?_eq index).trans hStored

/-- The label of a string or a native stands for what the lines declare. -/
theorem label_of_entry (unit : Assembled source options statements script)
    (hNames : (dataNames (scopeLines statements)).Nodup)
    (h : ⟨.entry, name⟩ ∈ (scopeLines statements).flatMap Line.definitions) {symbol : DataSymbol}
    (hSymbol : unit.data.symbols.data[name]? = some symbol) :
    (unit.declarations rows).Label name symbol.value symbol.words := by
  obtain ⟨line, hLine, hDefinition⟩ := List.mem_flatMap.mp h
  obtain ⟨hOwn, hLabel⟩ := Line.of_entry_mem_definitions hDefinition
  obtain ⟨value, hEntry, hFound⟩ := unit.symbol_of_entry hNames hLine hOwn
  rw [hSymbol, Option.some.injEq] at hFound
  subst hFound
  cases hEntry with
  | text text content stored =>
      exact .text hLine hLabel content (unit.strings_keeps text value stored)
  | native hash content included =>
      exact .native hLine hLabel content (unit.nativeHash?_of_included included)

/-- A label in front of words has as many of them as the lines declare. -/
theorem symbol_of_words (unit : Assembled source options statements script) {i : Nat}
    {line : Line} {region : Region}
    {words : Nat} (hLine : (scopeLines statements)[i]? = some line)
    (hLabel : line.label = some name) (hRegion : line.segment.region? = some region)
    (hReach : Reach region (scopeLines statements)
      (wordOffset region (scopeLines statements) i) words) :
    unit.data.symbols.data[name]? = some ⟨line.segment, Collection.labelValue unit.image
      ⟨line.segment, name, wordOffset region (scopeLines statements) i⟩, words⟩ := by
  obtain ⟨found, hFoundReach, hFound⟩ := unit.wordSymbol hLine hLabel hRegion
  rw [hFound, Nat.add_left_cancel (hFoundReach.unique hReach)]

/-- What the lines declare a label to be is what it stands for. -/
theorem symbol_of_label (unit : Assembled source options statements script)
    (hNames : (dataNames (scopeLines statements)).Nodup) {value words : Nat}
    (h : (unit.declarations rows).Label name value words) :
    ∃ segment, unit.data.symbols.data[name]? = some ⟨segment, value, words⟩ := by
  cases h with
  | static line_eq label segment reach =>
      have hSymbol := unit.symbol_of_words line_eq label (by rw [segment]; rfl) reach
      rw [segment] at hSymbol
      exact ⟨_, hSymbol⟩
  | argument line_eq label segment reach =>
      have hSymbol := unit.symbol_of_words line_eq label (by rw [segment]; rfl) reach
      have hStatics : unit.image.statics.size =
          (wordSources .statics (scopeLines statements)).length :=
        unit.holdsData.sizes .statics
      rw [segment] at hSymbol
      dsimp only [Collection.labelValue] at hSymbol
      rw [hStatics] at hSymbol
      exact ⟨_, hSymbol⟩
  | global line_eq label segment reach =>
      have hSymbol := unit.symbol_of_words line_eq label (by rw [segment]; rfl) reach
      rw [segment] at hSymbol
      exact ⟨_, hSymbol⟩
  | @text line text offset mem label content stored =>
      have hOwn : ⟨.entry, name⟩ ∈ line.contentDefinitions := by
        simp [Line.contentDefinitions, content, Directive.definitions, label]
      obtain ⟨found, hEntry, hFound⟩ := unit.symbol_of_entry hNames mem hOwn
      refine ⟨line.segment, ?_⟩
      cases hEntry with
      | native hash other included =>
          rw [content] at other
          cases other
      | text same other kept =>
          rw [content] at other
          cases other
          have hKept := unit.strings_keeps text found kept
          rw [hFound, Option.some.inj (hKept.symm.trans stored)]
  | @native line hash index mem label content stored =>
      have hOwn : ⟨.entry, name⟩ ∈ line.contentDefinitions := by
        simp [Line.contentDefinitions, content, Directive.definitions, label]
      obtain ⟨found, hEntry, hFound⟩ := unit.symbol_of_entry hNames mem hOwn
      refine ⟨line.segment, ?_⟩
      cases hEntry with
      | text text other kept =>
          rw [content] at other
          cases other
      | native same other included =>
          rw [content] at other
          cases other
          -- both are the place of the hash in the finished table
          have hIncluded := unit.nativeHash?_of_included included
          have hStored : script.nativeHash? value = some hash := stored
          rw [unit.nativeHash?_eq, ← NativeTable.index?_eq_some_iff] at hIncluded hStored
          rw [hFound, Option.some.inj (hIncluded.symm.trans hStored)]

/-- Every name of an assembled unit has the meaning that its lines declare, if
no two names of the data are alike. -/
theorem tables (unit : Assembled source options statements script)
    (hNames : (dataNames (scopeLines statements)).Nodup)
    (hLabels : ∀ (i : Nat) line label, (scopeLines statements)[i]? = some line →
      line.segment = .code → line.label = some label →
      unit.layout.labels.find? label =
        some (firstAddress (rows.drop i).flatten script.codeLength)) :
    (unit.declarations rows).Tables unit.data.symbols unit.layout.labels where
  constants := unit.constant_iff
  data name value words := by
    refine ⟨fun ⟨segment, hSymbol⟩ => ?_, unit.symbol_of_label hNames⟩
    rcases unit.definition_of_symbol hSymbol with hEntry | hWords
    · exact unit.label_of_entry hNames hEntry hSymbol
    · exact unit.label_of_words hWords hSymbol
  addresses name address := by
    constructor
    · intro hFound
      obtain ⟨line, hLine, hOwn⟩ :=
        List.mem_filterMap.mp ((layoutCode_found unit.laidOut).2 name address hFound)
      obtain ⟨i, hi⟩ := List.getElem?_of_mem hLine
      rw [Line.codeLabel?] at hOwn
      split at hOwn
      · next hCode =>
          have hPlace := hLabels i line name hi hCode hOwn
          rw [hFound, Option.some.injEq] at hPlace
          exact hPlace ▸ .code hi hCode hOwn
      · cases hOwn
    · rintro ⟨hLine, hCode, hLabel⟩
      exact hLabels _ _ _ hLine hCode hLabel
  dataApart name symbol hSymbol := by
    refine Option.eq_none_iff_forall_ne_some.mpr fun value hValue => ?_
    rcases unit.definition_of_symbol hSymbol with hOther | hOther <;>
      cases eq_of_dataNames hNames (unit.definition_of_constant hValue) hOther rfl
  codeApart name address hFound := by
    obtain ⟨_, _, _, _, hBound⟩ := layoutCode_ok unit.laidOut
    exact (hBound name address hFound).2

end Assembled

/-! Words -/

section Evaluation

variable {symbols : Symbols} {line : Line} {operand : Operand}

theorem floatOperand?_eq_some {value : Binary32}
    (h : floatOperand? symbols line operand = some value) :
    operand = .float value ∨ ∃ name, operand = .name name ∧
    symbols.value? (line.qualify name) = some (.float value) := by
  cases operand with
  | float literal =>
      cases h
      exact .inl rfl
  | name name =>
      simp only [floatOperand?] at h
      split at h
      · next found hFound =>
          cases h
          exact .inr ⟨name, rfl, hFound⟩
      · cases h
  | _ => cases h

/-- A word for an integer is an integer in its range, or waits for the address
of a label. -/
theorem PendingWord.evaluate_int {offset : Nat} {found : WordValue}
    (h : evaluate ⟨line, offset, .int, operand⟩ symbols = .ok found) :
    (∃ value, symbols.intOperand line operand = .ok (some value) ∧ leastInt32 ≤ value ∧
      value ≤ greatestUInt32 ∧ found = .word (Word.ofInt value)) ∨
    ∃ name, operand = .name name ∧ found = .address (line.qualify name) := by
  simp only [evaluate, reduceCtorEq, if_false] at h
  split at h
  · cases h
  · next value hValue =>
      rw [ofInt] at h
      dsimp only at h
      split at h
      · cases h
      · next hRange =>
          cases h
          simp only [Bool.or_eq_true, decide_eq_true_eq, not_or, Int.not_lt] at hRange
          exact .inl ⟨value, hValue, hRange.1, hRange.2, rfl⟩
  · split at h
    · cases h
      exact .inr ⟨_, rfl, rfl⟩
    · cases h
    · cases h

/-- A word for a float is a float, or an integer that is converted. -/
theorem PendingWord.evaluate_float {offset : Nat} {found : WordValue}
    (h : evaluate ⟨line, offset, .float, operand⟩ symbols = .ok found) :
    (∃ value, floatOperand? symbols line operand = some value ∧
      found = .word (Word.ofFloat value)) ∨
    ∃ value, symbols.intOperand line operand = .ok (some value) ∧
      found = .word (Word.ofFloat (Binary32.ofInt value)) := by
  simp only [evaluate, if_true] at h
  split at h
  · next value hValue =>
      cases h
      exact .inl ⟨value, hValue, rfl⟩
  · split at h
    · cases h
    · next value hValue =>
        cases h
        exact .inr ⟨value, hValue, rfl⟩
    · split at h
      · contradiction
      · cases h
      · cases h

end Evaluation

namespace Declarations.Tables

variable {declarations : Declarations} {symbols : Symbols} {labels : LabelTable} {line : Line}
  {operand : Operand} {name : String}

/-- The integers among the values of names. -/
theorem value?_int (h : declarations.Tables symbols labels) {value : Int} :
    symbols.value? name = some (.int value) ↔ ConstantValue declarations.lines name (.int value) ∨
      ∃ (found words : Nat), declarations.Label name found words ∧ (found : Int) = value := by
  rw [Symbols.value?, ← h.constants]
  cases hConstant : symbols.constants[name]? with
  | some constant =>
      refine ⟨.inl, fun hValue => hValue.resolve_right ?_⟩
      rintro ⟨found, words, hLabel, _⟩
      obtain ⟨segment, hSymbol⟩ := (h.data name found words).mpr hLabel
      rw [h.dataApart name _ hSymbol] at hConstant
      cases hConstant
  | none =>
      refine ⟨fun hValue => .inr ?_, fun hValue => ?_⟩
      · obtain ⟨⟨segment, found, words⟩, hSymbol, hSame⟩ := Option.map_eq_some_iff.mp hValue
        exact ⟨found, words, (h.data name found words).mp ⟨segment, hSymbol⟩, Value.int.inj hSame⟩
      · obtain ⟨found, words, hLabel, rfl⟩ := hValue.resolve_left (by simp)
        obtain ⟨segment, hSymbol⟩ := (h.data name found words).mpr hLabel
        exact Option.map_eq_some_iff.mpr ⟨_, hSymbol, rfl⟩

/-- The floats among the values of names are constants. -/
theorem value?_float (h : declarations.Tables symbols labels) {value : Binary32} :
    symbols.value? name = some (.float value) ↔
    ConstantValue declarations.lines name (.float value) := by
  rw [Symbols.value?, ← h.constants]
  cases hConstant : symbols.constants[name]? with
  | some constant => exact Iff.rfl
  | none =>
      refine ⟨fun hValue => ?_, by simp⟩
      obtain ⟨_, _, hSame⟩ := Option.map_eq_some_iff.mp hValue
      cases hSame

/-- The integer that an operand denotes is the one that the lines declare. -/
theorem intOperand_iff (h : declarations.Tables symbols labels) {value : Int} :
    symbols.intOperand line operand = .ok (some value) ↔
    declarations.Integer line operand value := by
  constructor
  · intro hValue
    cases operand with
    | int literal =>
        cases hValue
        exact .literal literal
    | name name =>
        simp only [Symbols.intOperand] at hValue
        split at hValue
        · next found hFound =>
            cases hValue
            rcases h.value?_int.mp hFound with hConstant | ⟨found, words, hLabel, rfl⟩
            · exact .constant hConstant
            · exact .label hLabel
        · cases hValue
        · cases hValue
    | sizeOf name =>
        simp only [Symbols.intOperand] at hValue
        split at hValue
        · next symbol hSymbol =>
            cases hValue
            exact .sizeOf ((h.data _ symbol.value symbol.words).mp ⟨symbol.segment, hSymbol⟩)
        · cases hValue
    | _ => cases hValue
  · intro hValue
    cases hValue with
    | literal literal => rfl
    | constant known => simp only [Symbols.intOperand, h.value?_int.mpr (.inl known)]
    | label known => simp only [Symbols.intOperand, h.value?_int.mpr (.inr ⟨_, _, known, rfl⟩)]
    | sizeOf known =>
        obtain ⟨segment, hSymbol⟩ := (h.data _ _ _).mpr known
        simp only [Symbols.intOperand, hSymbol]

/-- What is an integer is no float. -/
theorem floatOperand?_of_integer (h : declarations.Tables symbols labels) {value : Int}
    (hValue : declarations.Integer line operand value) :
    floatOperand? symbols line operand = none := by
  cases hValue with
  | literal literal => rfl
  | constant known => simp only [floatOperand?, h.value?_int.mpr (.inl known)]
  | label known => simp only [floatOperand?, h.value?_int.mpr (.inr ⟨_, _, known, rfl⟩)]
  | sizeOf known => rfl

/-- What the assembler finds for a word is what the lines declare. -/
theorem declares_of_denotes (h : declarations.Tables symbols labels)
    {source : WordSource} {word : Word}
    (hWord : source.Denotes symbols labels word) : declarations.Declares source word := by
  obtain ⟨line, kind, operand⟩ := source
  cases kind with
  | int =>
      rcases hWord with hWord | ⟨label, address, hLabel, hAddress, rfl⟩
      · rcases PendingWord.evaluate_int hWord with ⟨value, hValue, least, greatest, hSame⟩
          | ⟨_, _, hSame⟩ <;>
          cases hSame
        exact .int (h.intOperand_iff.mp hValue) least greatest
      · rcases PendingWord.evaluate_int hLabel
          with ⟨_, _, _, _, hSame⟩ | ⟨name, rfl, hSame⟩ <;> cases hSame
        exact .address ((h.addresses _ _).mp hAddress)
  | float =>
      rcases hWord with hWord | ⟨label, _, hLabel, _⟩
      · rcases PendingWord.evaluate_float hWord with ⟨value, hValue, hSame⟩
          | ⟨value, hValue, hSame⟩ <;> cases hSame
        · rcases floatOperand?_eq_some hValue with rfl | ⟨name, rfl, hFound⟩
          · exact .float
          · exact .floatConstant (h.value?_float.mp hFound)
        · exact .converted (h.intOperand_iff.mp hValue)
      · rcases PendingWord.evaluate_float hLabel with ⟨_, _, hSame⟩ | ⟨_, _, hSame⟩ <;> cases hSame

/-- What the lines declare for a word is what the assembler finds. -/
theorem denotes_of_declares (h : declarations.Tables symbols labels)
    {source : WordSource} {word : Word}
    (hWord : declarations.Declares source word) : source.Denotes symbols labels word := by
  cases hWord with
  | int known least greatest =>
      refine .inl ?_
      simp only [PendingWord.evaluate, reduceCtorEq, if_false, h.intOperand_iff.mpr known,
        PendingWord.ofInt]
      refine if_neg ?_
      rw [Bool.or_eq_true, decide_eq_true_eq, decide_eq_true_eq, not_or, Int.not_lt, Int.not_lt]
      exact ⟨least, greatest⟩
  | @address line name address known =>
      have hFound := (h.addresses _ _).mpr known
      have hUnknown := h.codeApart _ _ hFound
      refine .inr ⟨line.qualify name, address, ?_, hFound, rfl⟩
      simp only [PendingWord.evaluate, reduceCtorEq, if_false, Symbols.intOperand,
        Symbols.value?_of_contains hUnknown]
  | converted known =>
      refine .inl ?_
      simp only [PendingWord.evaluate, if_true, h.floatOperand?_of_integer known,
        h.intOperand_iff.mpr known, PendingWord.ofInt]
  | float => exact .inl rfl
  | floatConstant known =>
      refine .inl ?_
      simp only [PendingWord.evaluate, if_true, floatOperand?, h.value?_float.mpr known]

/-- The assembler gives a word the value that the lines declare. -/
theorem denotes_iff (h : declarations.Tables symbols labels) {source : WordSource} {word : Word} :
    source.Denotes symbols labels word ↔ declarations.Declares source word :=
  ⟨h.declares_of_denotes, h.denotes_of_declares⟩

end Declarations.Tables

section Units

variable {source : NativeSource} {options : Options} {statements : List Statement} {script : Script}

/-- The words of a region in the image are those that the lines declare. -/
theorem Assembled.words_declared (unit : Assembled source options statements script)
    {rows : List (List Located)}
    (hTables : (unit.declarations rows).Tables unit.data.symbols unit.layout.labels)
    (region : Region) :
    List.Forall₂ (unit.declarations rows).DeclaresWord (wordSources region (scopeLines statements))
      (unit.image.regionWords region).toList := by
  refine (unit.holdsData.denote region).imp fun origin word hDenotes => ?_
  cases origin with
  | none => exact hDenotes
  | some found => exact hTables.denotes_iff.mp hDenotes

/-- The strings of the script are the pages of the unit, in one piece. -/
theorem Assembled.strings_eq (unit : Assembled source options statements script) :
    script.strings = unit.strings.bytes.toList := by
  have hPages : script.stringPages = unit.strings.toPages := congrArg Script.stringPages unit.linked
  rw [Script.strings, hPages]
  exact Page.flatten_split _

/-- Up to `2 ^ 32` bytes of strings, offsets in words of 32 bits are the same. -/
theorem Assembled.strings_cut (unit : Assembled source options statements script)
    (h : script.strings.length ≤ UInt32.size) :
    unit.strings = StringPages.empty.internAllCut ((scopeLines statements).filterMap Line.text? ++
      (scopeLines statements).filterMap Line.pushedText?) := by
  rw [unit.strings_eq, StringPages.length_bytes, unit.strings_run] at h
  rw [StringPages.internAllCut_eq h, unit.strings_run]

end Units

/-- The data of a script is what its source declares. When no two names of the
data are alike, the statics are the words of all statics in order and then those
of all arguments, and the globals are the words of all globals, each of them
zero or the one word that its operand declares. What operands refer to may come
later, and is where the declarations say: words in the script itself, strings in
its pages, natives in its table, and labels of the code at the next primitive
behind them. -/
theorem data_declared {source : NativeSource} {options : Options}
    {statements : List Statement} {script : Script}
    (h : assemble source options statements = .ok script)
    (hNames : (dataNames (scopeLines statements)).Nodup) :
    ∃ (unit : Assembled source options statements script) (rows : List (List Located))
      (instructions : List Instruction),
      Arranged unit.data.symbols unit.strings options 0 (scopeLines statements) rows
        script.codeLength ∧
      Disassembly.ofCode script.code = ⟨instructions, none⟩ ∧
      Renders unit.environment 0 rows.flatten instructions ∧
      List.Forall₂ (unit.declarations rows).DeclaresWord
        (wordSources .statics (scopeLines statements) ++
          wordSources .arguments (scopeLines statements))
        script.statics.toList ∧
      script.argumentCount = (wordSources .arguments (scopeLines statements)).length ∧
      List.Forall₂ (unit.declarations rows).DeclaresWord
        (wordSources .globals (scopeLines statements)) script.globalsPages.flatten ∧
      (∀ line ∈ scopeLines statements, ∀ block, line.segment = .globals block →
        script.globalsBlock = some block) ∧
      (∀ source word other, (unit.declarations rows).Declares source word →
        (unit.declarations rows).Declares source other → word = other) ∧
      ∀ text offset, unit.strings.offset? text = some offset →
        StringPages.literal text <+: script.strings.drop offset := by
  obtain ⟨unit⟩ := assemble_ok h
  obtain ⟨rows, hRows, hAddresses, hLabels, _⟩ := layoutCode_ok unit.laidOut
  obtain ⟨instructions, hDecoded, hRenders⟩ := unit.ofCode_eq hRows hAddresses
  rw [← unit.codeLength_eq] at hRows hLabels
  have hTables := unit.tables hNames hLabels
  have hStatics : script.statics = unit.image.statics ++ unit.image.arguments :=
    congrArg Script.statics unit.linked
  have hArguments : script.argumentCount = unit.image.arguments.size :=
    congrArg Script.argumentCount unit.linked
  have hGlobals : script.globalsPages = Page.split unit.image.globals.toList :=
    congrArg Script.globalsPages unit.linked
  have hBlock : script.globalsBlock = unit.image.block := congrArg Script.globalsBlock unit.linked
  refine ⟨unit, rows, instructions, hRows, hDecoded, hRenders, ?_, ?_, ?_, ?_, ?_, ?_⟩
  · rw [hStatics, Array.toList_append]
    exact List.rel_append (unit.words_declared hTables .statics)
      (unit.words_declared hTables .arguments)
  · exact hArguments.trans (unit.holdsData.sizes .arguments)
  · rw [hGlobals, Page.flatten_split]
    exact unit.words_declared hTables .globals
  · rw [hBlock]
    exact unit.holdsData.block
  · intro source word other hWord hOther
    exact (hTables.denotes_of_declares hWord).unique (hTables.denotes_of_declares hOther)
  · intro text offset hStored
    rw [unit.strings_eq]
    exact unit.strings_tidy.stored text offset hStored

/-- A unit whose first words are the size and the index of words behind them. -/
def sizedUnit : List Statement := [
  .ofDirective (.segment .statics),
  .ofDirective (.ints [.sizeOf "values", .name "values"]),
  { Statement.ofDirective (.zero 2) with label := some "values" }]

theorem assemble_sized :
    ∃ script, assemble NativeDatabase.empty .default sizedUnit = .ok script :=
  exists_of_isOk (by decide +kernel)

theorem data_declared_sized :
    (dataNames (scopeLines sizedUnit)).Nodup ∧
      ∃ script, assemble NativeDatabase.empty .default sizedUnit = .ok script ∧
        script.statics.toList.head? = some (Word.ofInt 2) := by
  have hNames : (dataNames (scopeLines sizedUnit)).Nodup := by decide
  obtain ⟨script, hScript⟩ := assemble_sized
  refine ⟨hNames, script, hScript, ?_⟩
  obtain ⟨unit, rows, _, _, _, _, hWords, _, _, _, hUnique, _⟩ := data_declared hScript hNames
  obtain ⟨first, rest, hFirst, _, hStatics⟩ := List.forall₂_cons_left_iff.mp hWords
  -- the words behind the label reach to the end, since no label stands further on
  have hReach : Reach .statics (scopeLines sizedUnit) 2 2 := by
    refine ⟨.inl rfl, ?_⟩
    rintro finish (rfl | ⟨hFurther, i, line, hLine, hLabel, _, rfl⟩)
    · exact Nat.le_refl _
    · match i, hLine with
      | 0, hLine =>
          cases hLine
          cases hLabel
      | 1, hLine =>
          cases hLine
          cases hLabel
      | 2, _ => exact absurd hFurther (by decide)
  have hSize : (unit.declarations rows).Integer
      ⟨.ofDirective (.ints [.sizeOf "values", .name "values"]), .statics, none, none⟩
        (.sizeOf "values") (2 : Nat) :=
    .sizeOf (.static (i := 2) rfl rfl rfl hReach)
  rw [hStatics, List.head?_cons, hUnique _ _ _ hFirst (.int hSize (by decide) (by decide))]
  rfl

end ScriptBackend.Assembly
