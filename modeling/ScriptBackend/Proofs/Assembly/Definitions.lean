import ScriptBackend.Proofs.Assembly.DataWords
import ScriptBackend.Proofs.Assembly.Linking

/-!
What the names of a unit stand for. Every definition of an assembled unit has a
value of its own, and two definitions of one name are let through in two cases
only: a label of words is not seen by the labels of strings and natives behind
it, and no label of data is seen by the constants behind it.
-/
namespace ScriptBackend.Assembly

open Outcome

/-- What a name of the data can be: a label of words, a label of a string or a
native, or a constant. -/
inductive NameKind where
  | words
  | entry
  | constant
deriving DecidableEq

/-- A name that the data of a unit defines. -/
structure Definition where
  kind : NameKind
  name : String
deriving DecidableEq

/-- The label of a line that stands in front of words. -/
def Line.wordDefinitions (line : Line) : List Definition :=
  if line.segment.holdsWords then line.label.toList.map fun label => ⟨.words, label⟩ else []

def Directive.definitions (label : Option String) : Directive → List Definition
  | .text _ | .native _ => label.toList.map fun name => ⟨.entry, name⟩
  | .const name _ => [⟨.constant, name⟩]
  | _ => []

def Line.contentDefinitions (line : Line) : List Definition :=
  match line.statement.content with
  | .directive directive => directive.definitions line.label
  | _ => []

def Line.definitions (line : Line) : List Definition :=
  line.wordDefinitions ++ line.contentDefinitions

/-- The names that the data of some lines define, one for each definition. -/
def dataNames (lines : List Line) : List String :=
  (lines.flatMap Line.definitions).map Definition.name

/-- Whether a definition is let through behind another one of the same name. -/
def NameKind.isOverlookedBy (kind later : NameKind) : Prop :=
  kind = .words ∧ later = .entry ∨ kind ≠ .constant ∧ later = .constant

/-- Definitions of which the second one may stand behind the first one. -/
def Definition.Admits (definition later : Definition) : Prop :=
  definition.name = later.name → definition.kind.isOverlookedBy later.kind

/-- Definitions that no later one of the same name overlooks. -/
def NothingOverlooked (lines : List Line) : Prop :=
  (lines.flatMap Line.definitions).Pairwise fun definition later =>
    definition.name = later.name → ¬definition.kind.isOverlookedBy later.kind

/-- What the label of a string or a native stands for: the offset of the one,
the index of the other. -/
inductive Line.Entry (line : Line) (strings : StringPages) (natives : NativeTable)
    (value : Nat) : Prop where
  | text (text : String) (content : line.statement.content = .directive (.text text))
      (stored : strings.offset? text = some value)
  | native (hash : UInt64) (content : line.statement.content = .directive (.native hash))
      (included : natives.index? hash = some value)

/-- A string or a native has one value. -/
theorem Line.Entry.unique {line other : Line} {strings : StringPages} {natives : NativeTable}
    {value found : Nat}
    (h : line.Entry strings natives value) (hOther : other.Entry strings natives found)
    (hContent : other.statement.content = line.statement.content) : found = value := by
  cases h with
  | text text content stored =>
      cases hOther with
      | text same hSame hFound =>
          cases content.symm.trans (hContent.symm.trans hSame)
          exact Option.some.inj (hFound.symm.trans stored)
      | native hash hSame => cases content.symm.trans (hContent.symm.trans hSame)
  | native hash content included =>
      cases hOther with
      | text text hSame => cases content.symm.trans (hContent.symm.trans hSame)
      | native same hSame hFound =>
          cases content.symm.trans (hContent.symm.trans hSame)
          exact Option.some.inj (hFound.symm.trans included)

namespace Collection

variable {line : Line} {collection first second next : Collection}

/-- Nothing is defined between two collections, and no string or native moves. -/
structure KeepsNames (first second : Collection) : Prop where
  symbols : second.symbols = first.symbols
  labels : second.labels = first.labels
  labelled : second.labelled = first.labelled
  strings : first.strings.Keeps second.strings
  natives : ∀ hash index, first.natives.index? hash = some index →
    second.natives.index? hash = some index

theorem KeepsNames.refl (collection : Collection) : KeepsNames collection collection :=
  ⟨rfl, rfl, rfl, .refl _, fun _ _ h => h⟩

/-- What a line adds to the names by what it says. -/
inductive Adds (line : Line) (first next : Collection) : Prop where
  | nothing (keeps : KeepsNames first next) (silent : line.contentDefinitions = [])
  | constant (name : String) (operand : Operand) (value : Value)
      (content : line.statement.content = .directive (.const name operand))
      (value_eq : first.constantValue line operand = .ok value)
      (fresh : first.symbols.constants.contains name = false)
      (next_eq : next = { first with
        symbols := { first.symbols with constants := first.symbols.constants.insert name value } })
  | entry (label : String) (value : Nat) (middle : Collection)
      (definitions : line.contentDefinitions = [⟨.entry, label⟩])
      (keeps : KeepsNames first middle) (fresh : first.symbols.contains label = false)
      (entry : line.Entry middle.strings middle.natives value)
      (next_eq : next = { middle with
        symbols :=
          { middle.symbols with data := middle.symbols.data.insert label ⟨line.segment, value, 0⟩ }
          })

theorem enterSegment_names (h : collection.enterSegment line = .ok next) :
    KeepsNames collection next := by
  unfold enterSegment at h
  repeat' split at h
  all_goals cases h
  all_goals exact ⟨rfl, rfl, rfl, .refl _, fun _ _ h => h⟩

/-- A string that is stored has an offset, and the others keep theirs. -/
theorem intern_ok {strings later : StringPages} {text : String} {offset : Nat}
    (h : strings.intern text = (some offset, later)) :
    strings.Keeps later ∧ later.offset? text = some offset := by
  have hKeeps := StringPages.keeps_intern strings text
  have hOffset := StringPages.offset?_intern (congrArg Prod.fst h)
  rw [h] at hKeeps hOffset
  exact ⟨hKeeps, hOffset⟩

/-- A string or a native is defined by its label, under a name that was free. -/
theorem defineSymbol_adds {middle : Collection} {value : Nat}
    (h : middle.defineSymbol line value = .ok next) (hKeeps : KeepsNames first middle)
    (hDefinitions : line.contentDefinitions = line.label.toList.map fun label => ⟨.entry, label⟩)
    (hEntry : line.Entry middle.strings middle.natives value) : Adds line first next := by
  rw [defineSymbol] at h
  cases hLabel : line.label with
  | none =>
      rw [hLabel] at h hDefinitions
      cases h
      exact .nothing hKeeps hDefinitions
  | some label =>
      rw [hLabel] at h hDefinitions
      dsimp only at h
      split at h
      · cases h
      · next hFresh =>
          cases h
          rw [Bool.not_eq_true, hKeeps.symbols] at hFresh
          exact .entry label value middle hDefinitions hKeeps hFresh hEntry rfl

theorem addWords_names {kind : WordKind} {operands : List Operand}
    (h : collection.addWords line kind operands = .ok next) : KeepsNames collection next := by
  rw [addWords] at h
  split at h
  · cases h
    exact ⟨rfl, rfl, rfl, .refl _, fun _ _ h => h⟩
  · cases h

theorem addZeros_names {count : Nat} (h : collection.addZeros line count = .ok next) :
    KeepsNames collection next := by
  rw [addZeros] at h
  split at h
  · cases h
    exact ⟨rfl, rfl, rfl, .refl _, fun _ _ h => h⟩
  · cases h

/-- A directive adds the names that its line defines, and no others. -/
theorem addDirective_adds {directive : Directive}
    (hContent : line.statement.content = .directive directive)
    (h : collection.addDirective line directive = .ok next) : Adds line collection next := by
  have hDefinitions : line.contentDefinitions = directive.definitions line.label := by
    rw [Line.contentDefinitions, hContent]
  cases directive with
  | segment segment =>
      cases h
      exact .nothing (.refl _) hDefinitions
  | scriptName name =>
      cases h
      exact .nothing ⟨rfl, rfl, rfl, .refl _, fun _ _ h => h⟩ hDefinitions
  | scriptHash hash =>
      cases h
      exact .nothing ⟨rfl, rfl, rfl, .refl _, fun _ _ h => h⟩ hDefinitions
  | ints operands => exact .nothing (addWords_names h) hDefinitions
  | floats operands => exact .nothing (addWords_names h) hDefinitions
  | zero count => exact .nothing (addZeros_names h) hDefinitions
  | const name operand =>
      obtain ⟨value, hValue, h⟩ := bind_eq_ok.mp h
      split at h
      · cases h
      · next hFresh =>
          cases h
          exact .constant name operand value hContent hValue (Bool.eq_false_iff.mpr hFresh) rfl
  | text text =>
      rw [addDirective, addText] at h
      split at h
      · split at h
        · next offset strings hStored =>
            obtain ⟨hKeeps, hOffset⟩ := intern_ok hStored
            exact defineSymbol_adds h ⟨rfl, rfl, rfl, hKeeps, fun _ _ h => h⟩ hDefinitions
              (.text text hContent hOffset)
        · cases h
      · cases h
  | native hash =>
      rw [addDirective, addNative] at h
      split at h
      · split at h
        · next index natives hIncluded =>
            obtain ⟨hKeeps, hIndex⟩ := NativeTable.add_ok hIncluded
            exact defineSymbol_adds h ⟨rfl, rfl, rfl, .refl _, hKeeps⟩ hDefinitions
              (.native hash hContent hIndex)
        · cases h
      · cases h

theorem addContent_adds (h : collection.addContent line = .ok next) :
    Adds line collection next := by
  unfold addContent at h
  split at h
  · next mnemonic operands hContent =>
      split at h
      · cases h
        exact .nothing (.refl _) (by simp [Line.contentDefinitions, hContent])
      · cases h
  · next hContent =>
      split at h
      · cases h
      · cases h
        exact .nothing (.refl _) (by simp [Line.contentDefinitions, hContent])
  · next directive hContent => exact addDirective_adds hContent h

/-- What noting a label adds: a label of words that is new among all names known
so far. -/
theorem noteLabel_adds (h : collection.noteLabel line = .ok next) :
    next = collection ∧ line.wordDefinitions = [] ∨
      ∃ label, line.label = some label ∧ line.wordDefinitions = [⟨.words, label⟩] ∧
        collection.symbols.contains label = false ∧ collection.labelled.contains label = false ∧
        next = { collection with
          labels := collection.labels.push ⟨line.segment, label, collection.image.size line.segment⟩
          labelled := collection.labelled.insert label } := by
  rw [noteLabel] at h
  cases hLabel : line.label with
  | none =>
      rw [hLabel] at h
      cases h
      exact .inl ⟨rfl, by simp [Line.wordDefinitions, hLabel]⟩
  | some label =>
      rw [hLabel] at h
      dsimp only at h
      split at h
      · next hPlain =>
          cases h
          refine .inl ⟨rfl, if_neg ?_⟩
          simpa using hPlain
      · next hWords =>
          split at h
          · cases h
          · next hNew =>
              cases h
              rw [Bool.not_eq_true, Bool.or_eq_false_iff] at hNew
              refine .inr ⟨label, rfl, ?_, hNew.1, hNew.2, rfl⟩
              rw [Line.wordDefinitions, hLabel, if_pos (by simpa using hWords)]
              rfl

/-! Names -/

/-- A collection that knows what has been defined, in this order. -/
structure Records (definitions : List Definition) (collection : Collection) : Prop where
  apart : definitions.Pairwise Definition.Admits
  words : ∀ name, name ∈ collection.labels.toList.map WordLabel.name ↔ ⟨.words, name⟩ ∈ definitions
  entries : ∀ name, collection.symbols.data.contains name = true ↔ ⟨.entry, name⟩ ∈ definitions
  constants : ∀ name, collection.symbols.constants.contains name = true ↔
    ⟨.constant, name⟩ ∈ definitions
  labels : (collection.labels.toList.map WordLabel.name).Nodup
  labelled : ∀ name, collection.labelled.contains name = true ↔
    name ∈ collection.labels.toList.map WordLabel.name

section

variable {definitions : List Definition}

theorem records_empty : Records [] empty where
  apart := .nil
  words := by simp [empty]
  entries := by simp [empty, Symbols.empty]
  constants := by simp [empty, Symbols.empty]
  labels := by simp [empty]
  labelled := by simp [empty]

theorem Records.of_keeps (h : Records definitions first) (hKeeps : KeepsNames first next) :
    Records definitions next where
  apart := h.apart
  words := by rw [hKeeps.labels]; exact h.words
  entries := by rw [hKeeps.symbols]; exact h.entries
  constants := by rw [hKeeps.symbols]; exact h.constants
  labels := by rw [hKeeps.labels]; exact h.labels
  labelled := by rw [hKeeps.labels, hKeeps.labelled]; exact h.labelled

/-- One more definition may come behind others when each of them admits it. -/
theorem pairwise_concat {definition : Definition} (h : definitions.Pairwise Definition.Admits)
    (hLast : ∀ earlier ∈ definitions, earlier.Admits definition) :
    (definitions ++ [definition]).Pairwise Definition.Admits :=
  List.pairwise_append.mpr ⟨h, List.pairwise_singleton _ _, fun earlier hEarlier last hMem => by
    rw [List.mem_singleton.mp hMem]
    exact hLast earlier hEarlier⟩

/-- A label of words is new among all names known so far. -/
theorem Records.noteLabel (h : Records definitions collection)
    (hNext : collection.noteLabel line = .ok next) :
    Records (definitions ++ line.wordDefinitions) next := by
  rcases noteLabel_adds hNext with ⟨rfl, hNone⟩ | ⟨label, _, hOwn, hSymbols, hLabelled, rfl⟩
  · rwa [hNone, List.append_nil]
  · rw [hOwn]
    rw [Symbols.contains, Bool.or_eq_false_iff] at hSymbols
    have hLabels : label ∉ collection.labels.toList.map WordLabel.name := fun hMem => by
      rw [(h.labelled label).mpr hMem] at hLabelled
      cases hLabelled
    have hNew : ∀ earlier ∈ definitions, earlier.name ≠ label := by
      rintro ⟨kind, name⟩ hEarlier rfl
      cases kind with
      | words => exact hLabels ((h.words name).mpr hEarlier)
      | entry =>
          rw [(h.entries name).mpr hEarlier] at hSymbols
          cases hSymbols.2
      | constant =>
          rw [(h.constants name).mpr hEarlier] at hSymbols
          cases hSymbols.1
    refine ⟨pairwise_concat h.apart fun earlier hEarlier hSame =>
      absurd hSame (hNew earlier hEarlier), ?_, ?_, ?_, ?_, ?_⟩
    · intro name
      rw [Array.toList_push, List.map_append, List.mem_append, h.words, List.mem_append,
        List.map_singleton, List.mem_singleton, List.mem_singleton, Definition.mk.injEq]
      simp
    · simpa using h.entries
    · simpa using h.constants
    · rw [Array.toList_push, List.map_append, List.nodup_append]
      refine ⟨h.labels, by simp, fun name hName other hOther => ?_⟩
      rw [List.mem_singleton.mp hOther]
      rintro rfl
      exact hLabels hName
    · intro name
      rw [Array.toList_push, List.map_append, List.mem_append, List.map_singleton,
        List.mem_singleton, Std.TreeSet.contains_insert, Bool.or_eq_true, h.labelled, beq_iff_eq,
        Std.compare_eq_iff_eq]
      rw [or_comm, eq_comm]

/-- What a line says is checked against the names before it, though not against
all of them. -/
theorem Records.addContent (h : Records definitions collection)
    (hNext : collection.addContent line = .ok next) :
    Records (definitions ++ line.contentDefinitions) next := by
  cases addContent_adds hNext with
  | nothing keeps silent =>
      rw [silent, List.append_nil]
      exact h.of_keeps keeps
  | constant name operand value content value_eq fresh next_eq =>
      have hOwn : line.contentDefinitions = [⟨.constant, name⟩] := by
        rw [Line.contentDefinitions, content]
        rfl
      subst next_eq
      rw [hOwn]
      have hAdmits : ∀ earlier ∈ definitions, earlier.Admits ⟨.constant, name⟩ := by
        rintro ⟨kind, other⟩ hEarlier rfl
        refine .inr ⟨?_, rfl⟩
        rintro rfl
        rw [(h.constants other).mpr hEarlier] at fresh
        cases fresh
      refine ⟨pairwise_concat h.apart hAdmits, by simpa using h.words, by simpa using h.entries,
        fun other => ?_, h.labels, h.labelled⟩
      rw [Std.TreeMap.contains_insert, Bool.or_eq_true, h.constants, beq_iff_eq,
        Std.compare_eq_iff_eq, List.mem_append, List.mem_singleton, Definition.mk.injEq]
      simp [or_comm, eq_comm]
  | entry label value middle definitions_eq keeps fresh entry next_eq =>
      have hMiddle := h.of_keeps keeps
      subst next_eq
      rw [definitions_eq]
      rw [← keeps.symbols, Symbols.contains, Bool.or_eq_false_iff] at fresh
      have hAdmits : ∀ earlier ∈ definitions, earlier.Admits ⟨.entry, label⟩ := by
        rintro ⟨kind, other⟩ hEarlier rfl
        cases kind with
        | words => exact .inl ⟨rfl, rfl⟩
        | entry =>
            rw [(hMiddle.entries other).mpr hEarlier] at fresh
            cases fresh.2
        | constant =>
            rw [(hMiddle.constants other).mpr hEarlier] at fresh
            cases fresh.1
      refine ⟨pairwise_concat h.apart hAdmits, by simpa using hMiddle.words, fun other => ?_,
        by simpa using hMiddle.constants, hMiddle.labels, hMiddle.labelled⟩
      rw [Std.TreeMap.contains_insert, Bool.or_eq_true, hMiddle.entries, beq_iff_eq,
        Std.compare_eq_iff_eq, List.mem_append, List.mem_singleton, Definition.mk.injEq]
      simp [or_comm, eq_comm]

/-- What is recorded after a line is what was recorded before and what the line
defines. -/
theorem Records.add (h : Records definitions collection) (hNext : collection.add line = .ok next) :
    Records (definitions ++ line.definitions) next := by
  obtain ⟨entered, hEntered, hNext⟩ := bind_eq_ok.mp hNext
  obtain ⟨noted, hNoted, hNext⟩ := bind_eq_ok.mp hNext
  rw [Line.definitions, ← List.append_assoc]
  exact ((h.of_keeps (enterSegment_names hEntered)).noteLabel hNoted).addContent hNext

/-- What is recorded at the end is what the lines define, in their order. -/
theorem Records.addAll {lines : List Line} (h : Records definitions collection)
    (hNext : collection.addAll lines = .ok next) :
    Records (definitions ++ lines.flatMap Line.definitions) next := by
  induction lines generalizing definitions collection with
  | nil =>
      cases hNext
      rwa [List.flatMap_nil, List.append_nil]
  | cons line rest ih =>
      rw [Collection.addAll] at hNext
      split at hNext
      · cases hNext
      · next middle hMiddle =>
          rw [List.flatMap_cons, ← List.append_assoc]
          exact ih (h.add hMiddle) hNext

end

/-! Values -/

def constant? (constants : Std.TreeMap String Value) : Operand → Option Value
  | .int value => some (.int value.toInt)
  | .float value => some (.float value)
  | .name other => constants[other]?
  | _ => none

/-- A later collection: what has a value keeps it. -/
structure Grows (first next : Collection) : Prop where
  constants : ∀ (name : String) (value : Value), first.symbols.constants[name]? = some value →
    next.symbols.constants[name]? = some value
  data : ∀ (name : String) (symbol : DataSymbol), first.symbols.data[name]? = some symbol →
    next.symbols.data[name]? = some symbol
  strings : first.strings.Keeps next.strings
  natives : ∀ hash index, first.natives.index? hash = some index →
    next.natives.index? hash = some index
  labels : ∀ label ∈ first.labels, label ∈ next.labels

/-- What grows twice has grown. -/
theorem Grows.trans {last : Collection} (h : Grows first next) (hLast : Grows next last) :
    Grows first last where
  constants name value hValue := hLast.constants name value (h.constants name value hValue)
  data name symbol hSymbol := hLast.data name symbol (h.data name symbol hSymbol)
  strings := h.strings.trans hLast.strings
  natives hash index hIndex := hLast.natives hash index (h.natives hash index hIndex)
  labels label hLabel := hLast.labels label (h.labels label hLabel)

theorem KeepsNames.grows (h : KeepsNames first next) : Grows first next where
  constants name value hValue := by rwa [h.symbols]
  data name symbol hSymbol := by rwa [h.symbols]
  strings := h.strings
  natives := h.natives
  labels label hLabel := by rwa [h.labels]

/-- A new name does not touch the others. -/
theorem getElem?_insert_of_fresh {α : Type} {table : Std.TreeMap String α}
    {name other : String} {value found : α}
    (hFresh : table.contains name = false) (hFound : table[other]? = some found) :
    (table.insert name value)[other]? = some found := by
  have hOther : name ≠ other := by
    rintro rfl
    rw [Std.TreeMap.contains_eq_isSome_getElem?, hFound] at hFresh
    cases hFresh
  rw [Std.TreeMap.getElem?_insert, if_neg (by simpa using hOther), hFound]

/-- Noting a label keeps all that is defined and noted before. -/
theorem noteLabel_grows (h : collection.noteLabel line = .ok next) : Grows collection next := by
  rcases noteLabel_adds h with ⟨rfl, _⟩ | ⟨label, _, _, _, _, rfl⟩
  · exact (KeepsNames.refl _).grows
  · exact ⟨fun _ _ h => h, fun _ _ h => h, .refl _, fun _ _ h => h, fun other hOther =>
      Array.mem_push_of_mem _ hOther⟩

theorem Adds.grows (h : Adds line first next) : Grows first next := by
  cases h with
  | nothing keeps silent => exact keeps.grows
  | constant name operand value content value_eq fresh next_eq =>
      subst next_eq
      exact ⟨fun other found hFound => getElem?_insert_of_fresh fresh hFound,
        fun _ _ h => h, .refl _, fun _ _ h => h, fun _ h => h⟩
  | entry label value middle definitions_eq keeps fresh entry next_eq =>
      subst next_eq
      rw [← keeps.symbols, Symbols.contains, Bool.or_eq_false_iff] at fresh
      exact keeps.grows.trans ⟨fun _ _ h => h, fun other found hFound =>
        getElem?_insert_of_fresh fresh.2 hFound, .refl _, fun _ _ h => h, fun _ h => h⟩

/-- A collection in which every definition of some lines has its value. -/
structure Values (lines : List Line) (collection : Collection) : Prop where
  constants : ∀ line ∈ lines, ∀ name operand,
    line.statement.content = .directive (.const name operand) →
    ∃ value, collection.symbols.constants[name]? = some value ∧
      constant? collection.symbols.constants operand = some value
  entries : ∀ line ∈ lines, ∀ label, ⟨.entry, label⟩ ∈ line.contentDefinitions →
    ∃ value, line.Entry collection.strings collection.natives value ∧
      collection.symbols.data[label]? = some ⟨line.segment, value, 0⟩
  words : ∀ (i : Nat) line label, lines[i]? = some line → ⟨.words, label⟩ ∈ line.wordDefinitions →
    ∀ region, line.segment.region? = some region →
      ⟨line.segment, label, (wordSources region (lines.take i)).length⟩ ∈ collection.labels

section

variable {lines : List Line}

theorem values_empty : Values [] empty where
  constants := by simp
  entries := by simp
  words := by simp

/-- The value of an operand does not change when more constants are defined. -/
theorem constant?_mono (h : Grows first next) {operand : Operand} {value : Value}
    (hValue : constant? first.symbols.constants operand = some value) :
    constant? next.symbols.constants operand = some value := by
  cases operand with
  | name other => exact h.constants other value hValue
  | _ => exact hValue

/-- Values stay as they are when more is defined. -/
theorem Values.mono (h : Values lines first) (hGrows : Grows first next) : Values lines next where
  constants line hLine name operand hContent := by
    obtain ⟨value, hValue, hMeaning⟩ := h.constants line hLine name operand hContent
    exact ⟨value, hGrows.constants name value hValue, constant?_mono hGrows hMeaning⟩
  entries line hLine label hLabel := by
    obtain ⟨value, hEntry, hValue⟩ := h.entries line hLine label hLabel
    refine ⟨value, ?_, hGrows.data label _ hValue⟩
    cases hEntry with
    | text text content stored => exact .text text content (hGrows.strings text value stored)
    | native hash content included =>
        exact .native hash content (hGrows.natives hash value included)
  words i line label hLine hLabel region hRegion :=
    hGrows.labels _ (h.words i line label hLine hLabel region hRegion)

theorem constant?_of_constantValue {operand : Operand} {value : Value}
    (h : collection.constantValue line operand = .ok value) :
    constant? collection.symbols.constants operand = some value := by
  cases operand with
  | name other =>
      rw [constantValue] at h
      split at h
      · next found hFound =>
          cases h
          exact hFound
      · cases h
  | int value =>
      cases h
      rfl
  | float value =>
      cases h
      rfl
  | _ => cases h

/-- A line gives its definitions their values, and the others keep theirs. -/
theorem Values.add (h : Values lines collection) (hHolds : Holds lines collection)
    (hNext : collection.add line = .ok next) : Values (lines ++ [line]) next := by
  obtain ⟨entered, hEntered, hNext⟩ := bind_eq_ok.mp hNext
  obtain ⟨noted, hNoted, hNext⟩ := bind_eq_ok.mp hNext
  have hAdds := addContent_adds hNext
  have hOld :=
    h.mono ((enterSegment_names hEntered).grows.trans ((noteLabel_grows hNoted).trans hAdds.grows))
  have hSizes := (enterSegment_ok hEntered).1.holds hHolds
  refine ⟨fun other hOther name operand hContent => ?_, fun other hOther label hLabel => ?_,
    fun i other label hOther hLabel region hRegion => ?_⟩
  · rcases List.mem_append.mp hOther with hOther | hOther
    · exact hOld.constants other hOther name operand hContent
    · rw [List.mem_singleton.mp hOther] at hContent
      cases hAdds with
      | nothing keeps silent =>
          simp [Line.contentDefinitions, hContent, Directive.definitions] at silent
      | constant own operand' value content value_eq fresh next_eq =>
          cases content.symm.trans hContent
          have hMeaning :=
            constant?_mono (addContent_adds hNext).grows (constant?_of_constantValue value_eq)
          exact ⟨value, by simp [next_eq], hMeaning⟩
      | entry label value middle definitions_eq keeps fresh entry next_eq =>
          simp [Line.contentDefinitions, hContent, Directive.definitions] at definitions_eq
  · rcases List.mem_append.mp hOther with hOther | hOther
    · exact hOld.entries other hOther label hLabel
    · rw [List.mem_singleton.mp hOther] at hLabel ⊢
      cases hAdds with
      | nothing keeps silent => simp [silent] at hLabel
      | constant name operand value content value_eq fresh next_eq =>
          simp [Line.contentDefinitions, content, Directive.definitions] at hLabel
      | entry own value middle definitions_eq keeps fresh entry next_eq =>
          rw [definitions_eq, List.mem_singleton, Definition.mk.injEq] at hLabel
          obtain ⟨_, rfl⟩ := hLabel
          subst next_eq
          exact ⟨value, entry, by simp⟩
  · by_cases hBefore : i < lines.length
    · rw [List.getElem?_append_left hBefore] at hOther
      rw [List.take_append_of_le_length (Nat.le_of_lt hBefore)]
      exact hOld.words i other label hOther hLabel region hRegion
    · obtain ⟨hi, hLine⟩ := List.getElem?_eq_some_iff.mp hOther
      have hLast : i = lines.length := by
        rw [List.length_append, List.length_singleton] at hi
        omega
      subst hLast
      have hSame : other = line := by simpa using hOther.symm
      subst hSame
      rw [List.take_left]
      refine hAdds.grows.labels _ ?_
      rcases noteLabel_adds hNoted with ⟨_, hNone⟩ | ⟨own, _, hOwn, _, _, rfl⟩
      · simp [hNone] at hLabel
      · rw [hOwn, List.mem_singleton, Definition.mk.injEq] at hLabel
        have hOffset : entered.image.size other.segment = (wordSources region lines).length := by
          rw [size_of_region? hRegion, hSizes.zeros, Array.size_replicate]
        rw [hLabel.2, ← hOffset]
        exact Array.mem_push_self

/-- Constants have the values that their lines say, whatever lines come behind. -/
theorem Values.addAll {rest : List Line} (h : Values lines collection)
    (hHolds : Holds lines collection)
    (hNext : collection.addAll rest = .ok next) : Values (lines ++ rest) next := by
  induction rest generalizing lines collection with
  | nil =>
      cases hNext
      rwa [List.append_nil]
  | cons line rest ih =>
      rw [Collection.addAll] at hNext
      split at hNext
      · cases hNext
      · next middle hMiddle =>
          rw [List.append_cons]
          exact ih (h.add hHolds hMiddle) (hHolds.add hMiddle) hNext

end

/-- Labels of words get their values last, and replace what else has their names. -/
theorem getElem?_defineLabels {image : DataImage} {labels : List WordLabel}
    {data : Std.TreeMap String DataSymbol} (hLabels : (labels.map WordLabel.name).Nodup) :
    (∀ name, name ∉ labels.map WordLabel.name →
      (defineLabels image labels data)[name]? = data[name]?) ∧
      ∀ label ∈ labels, ∃ words, (defineLabels image labels data)[label.name]? =
        some ⟨label.segment, labelValue image label, words⟩ := by
  induction labels generalizing data with
  | nil => exact ⟨fun name _ => rfl, by simp⟩
  | cons label rest ih =>
      rw [List.map_cons, List.nodup_cons] at hLabels
      obtain ⟨hOthers, hRest⟩ := @ih (data.insert label.name
        ⟨label.segment, labelValue image label, labelEnd image label rest - label.offset⟩) hLabels.2
      constructor
      · intro name hName
        rw [List.map_cons, List.mem_cons, not_or] at hName
        rw [defineLabels, hOthers name hName.2, Std.TreeMap.getElem?_insert, if_neg]
        simpa using Ne.symm hName.1
      · rw [List.forall_mem_cons]
        refine ⟨⟨labelEnd image label rest - label.offset, ?_⟩, hRest⟩
        rw [defineLabels, hOthers label.name hLabels.1]
        simp

/-- The labels of words are defined besides what was defined before. -/
theorem contains_defineLabels (image : DataImage) (labels : List WordLabel)
    (data : Std.TreeMap String DataSymbol) (name : String) :
    (defineLabels image labels data).contains name = true ↔
      data.contains name = true ∨ name ∈ labels.map WordLabel.name := by
  induction labels generalizing data with
  | nil => simp [defineLabels]
  | cons label rest ih =>
      rw [defineLabels, ih, Std.TreeMap.contains_insert, Bool.or_eq_true, beq_iff_eq,
        Std.compare_eq_iff_eq, List.map_cons, List.mem_cons, eq_comm, or_right_comm, or_comm]

end Collection

/-! Units -/

/-- The names of the data of some lines: definitions of one name only where the
later one overlooks the earlier one, and every definition with its own value,
unless a label of words has the name of a string or a native. -/
structure DataUnit.Defines (lines : List Line) (data : DataUnit) (image : DataImage) : Prop where
  apart : (lines.flatMap Line.definitions).Pairwise Definition.Admits
  known : ∀ definition ∈ lines.flatMap Line.definitions,
    data.symbols.contains definition.name = true
  constants : ∀ line ∈ lines, ∀ name operand,
    line.statement.content = .directive (.const name operand) →
    ∃ value, data.symbols.constants[name]? = some value ∧
      Collection.constant? data.symbols.constants operand = some value
  words : ∀ (i : Nat) line label, lines[i]? = some line → ⟨.words, label⟩ ∈ line.wordDefinitions →
    ∀ region, line.segment.region? = some region →
      ∃ words, data.symbols.data[label]? = some ⟨line.segment,
        Collection.labelValue image ⟨line.segment, label,
          (wordSources region (lines.take i)).length⟩, words⟩
  entries : ∀ line ∈ lines, ∀ label, ⟨.entry, label⟩ ∈ line.contentDefinitions →
    ⟨.words, label⟩ ∉ lines.flatMap Line.definitions →
    ∃ value, line.Entry data.strings data.natives value ∧
      data.symbols.data[label]? = some ⟨line.segment, value, 0⟩

section Units

variable {source : NativeSource} {options : Options} {statements : List Statement} {script : Script}

/-- What a label stands for depends on the number of statics only, since
arguments come behind them. -/
theorem labelValue_congr {image other : DataImage} (h : other.statics.size = image.statics.size)
    (label : WordLabel) : Collection.labelValue other label =
      Collection.labelValue image label := by
  rw [Collection.labelValue, Collection.labelValue, h]

/-- What the names of an assembled unit stand for. -/
theorem Assembled.defines (unit : Assembled source options statements script) :
    unit.data.Defines (scopeLines statements) unit.image := by
  have hImage := unit.holdsData.sizes .statics
  obtain ⟨collected, hCollected, hRest⟩ := bind_eq_ok.mp unit.collected
  obtain ⟨_, hCapacity, hRest⟩ := bind_eq_ok.mp hRest
  obtain ⟨⟨filled, references⟩, hFill, hRest⟩ := bind_eq_ok.mp hRest
  have hData := (Except.ok.inj hRest).symm
  have hRecords := Collection.records_empty.addAll hCollected
  have hHolds := Collection.holds_empty.addAll hCollected
  have hValues := Collection.values_empty.addAll Collection.holds_empty hCollected
  rw [List.nil_append] at hRecords hHolds hValues
  have hStatics : unit.image.statics.size = collected.image.statics.size := by
    have hOld := congrArg Array.size (hHolds.zeros .statics)
    rw [Array.size_replicate] at hOld
    exact hImage.trans hOld.symm
  obtain ⟨hOthers, hLabels⟩ :=
    @Collection.getElem?_defineLabels collected.image collected.labels.toList
    collected.symbols.data hRecords.labels
  rw [hData]
  refine ⟨hRecords.apart, ?_, hValues.constants, fun i line label hLine hLabel region hRegion => ?_,
    fun line hLine label hLabel hFree => ?_⟩
  · rintro ⟨kind, name⟩ hDefinition
    rw [Symbols.contains, Bool.or_eq_true, Collection.contains_defineLabels]
    cases kind with
    | constant => exact .inl ((hRecords.constants name).mpr hDefinition)
    | entry => exact .inr (.inl ((hRecords.entries name).mpr hDefinition))
    | words => exact .inr (.inr ((hRecords.words name).mpr hDefinition))
  · have hMem := hValues.words i line label hLine hLabel region hRegion
    rw [labelValue_congr hStatics]
    exact hLabels _ (Array.mem_toList_iff.mpr hMem)
  · have hValue := hValues.entries line hLine label hLabel
    rwa [← hOthers label fun hName => hFree ((hRecords.words label).mp hName)] at hValue

/-- What the data of a unit has from its lines. -/
theorem collectData_collected {lines : List Line} {data : DataUnit}
    (h : collectData lines = .ok data) :
    ∃ collected, Collection.empty.addAll lines = .ok collected ∧
      data.symbols = { collected.symbols with
        data :=
          Collection.defineLabels collected.image collected.labels.toList collected.symbols.data } ∧
      data.strings = collected.strings ∧ data.natives = collected.natives := by
  obtain ⟨collected, hCollected, h⟩ := bind_eq_ok.mp h
  obtain ⟨_, _, h⟩ := bind_eq_ok.mp h
  obtain ⟨_, _, h⟩ := bind_eq_ok.mp h
  cases h
  exact ⟨collected, hCollected, rfl, rfl, rfl⟩

/-- Every symbol of an assembled unit is a definition of its lines. -/
theorem Assembled.contains_iff (unit : Assembled source options statements script) (name : String) :
    (unit.data.symbols.constants.contains name = true ↔
        ⟨.constant, name⟩ ∈ (scopeLines statements).flatMap Line.definitions) ∧
      (unit.data.symbols.data.contains name = true ↔
        ⟨.entry, name⟩ ∈ (scopeLines statements).flatMap Line.definitions ∨
          ⟨.words, name⟩ ∈ (scopeLines statements).flatMap Line.definitions) := by
  obtain ⟨collected, hCollected, hSymbols, _⟩ := collectData_collected unit.collected
  have hRecords := Collection.records_empty.addAll hCollected
  rw [List.nil_append] at hRecords
  rw [hSymbols]
  exact ⟨hRecords.constants name,
    (Collection.contains_defineLabels ..).trans
      (or_congr (hRecords.entries name) (hRecords.words name))⟩

/-- A name that has a symbol was defined, by an entry or in front of words. -/
theorem Assembled.definition_of_symbol
    (unit : Assembled source options statements script) {name : String}
    {symbol : DataSymbol} (hSymbol : unit.data.symbols.data[name]? = some symbol) :
    ⟨.entry, name⟩ ∈ (scopeLines statements).flatMap Line.definitions ∨
      ⟨.words, name⟩ ∈ (scopeLines statements).flatMap Line.definitions := by
  refine (unit.contains_iff name).2.mp ?_
  rw [Std.TreeMap.contains_eq_isSome_getElem?, hSymbol]
  rfl

/-- Each constant of an assembled unit is defined by one of its lines. -/
theorem Assembled.definition_of_constant
    (unit : Assembled source options statements script) {name : String}
    {value : Value} (hValue : unit.data.symbols.constants[name]? = some value) :
    ⟨.constant, name⟩ ∈ (scopeLines statements).flatMap Line.definitions := by
  refine (unit.contains_iff name).1.mp ?_
  rw [Std.TreeMap.contains_eq_isSome_getElem?, hValue]
  rfl

end Units

/-! Code labels -/

namespace LayoutState

variable {symbols : Symbols} {options : Options} {strings stored : StringPages}
  {state final : LayoutState}

/-- Each code label is new when it comes. -/
theorem nodup_codeLabels {lines : List Line}
    (h : addAll symbols options lines state strings = (.ok final, stored)) :
    (codeLabels lines).Nodup ∧ ∀ label ∈ codeLabels lines, ¬ state.Seen label := by
  induction lines generalizing state strings with
  | nil => exact ⟨.nil, by simp [codeLabels]⟩
  | cons line rest ih =>
      obtain ⟨noted, next, hNote, hPlace, hRest⟩ := addAll_cons_ok h
      obtain ⟨hOthers, hNew⟩ := ih hRest
      rcases note_seen hNote with ⟨hNone, rfl⟩ | ⟨label, hLabel, hFresh, hOwn, hKeeps⟩
      · have hSame : codeLabels (line :: rest) = codeLabels rest := List.filterMap_cons_none hNone
        rw [hSame]
        exact ⟨hOthers, fun label hMem hSeen => hNew label hMem (seen_place hSeen hPlace)⟩
      · have hCons : codeLabels (line :: rest) = label :: codeLabels rest :=
          List.filterMap_cons_some hLabel
        rw [hCons, List.nodup_cons, List.forall_mem_cons]
        exact ⟨⟨fun hMem => hNew label hMem (seen_place hOwn hPlace), hOthers⟩, hFresh,
          fun other hMem hSeen => hNew other hMem (seen_place (hKeeps other hSeen) hPlace)⟩

end LayoutState

/-- The labels of the code of an assembled unit are distinct, and none of them
is a name of the data. -/
theorem Assembled.codeLabels_apart {source : NativeSource} {options : Options}
    {statements : List Statement}
    {script : Script} (unit : Assembled source options statements script) :
    (codeLabels (scopeLines statements)).Nodup ∧
      ∀ label ∈ codeLabels (scopeLines statements),
        ∀ definition ∈ (scopeLines statements).flatMap Line.definitions,
          definition.name ≠ label := by
  obtain ⟨rows, _, _, hLabels, hBound⟩ := layoutCode_ok unit.laidOut
  constructor
  · have hLaidOut := unit.laidOut
    unfold layoutCode at hLaidOut
    split at hLaidOut
    · cases hLaidOut
    · next state stored hState => exact (LayoutState.nodup_codeLabels hState).1
  · rintro label hLabel definition hDefinition rfl
    obtain ⟨line, hLine, hOwn⟩ := List.mem_filterMap.mp hLabel
    obtain ⟨i, hi⟩ := List.getElem?_of_mem hLine
    have hCode : line.segment = .code ∧ line.label = some definition.name := by
      rw [Line.codeLabel?] at hOwn
      split at hOwn
      · next hCode => exact ⟨hCode, hOwn⟩
      · cases hOwn
    have hUnknown := (hBound _ _ (hLabels i line _ hi hCode.1 hCode.2)).2
    rw [unit.defines.known definition hDefinition] at hUnknown
    cases hUnknown

/-! What is bound -/

section Bindings

variable {source : NativeSource} {options : Options} {statements : List Statement} {script : Script}

/-- The definitions of an assembled unit, each bound to its own name: what the
data defines, and the labels of the code at the primitives behind them. -/
structure Assembled.Binds (unit : Assembled source options statements script)
    (rows : List (List Located)) : Prop where
  data : unit.data.Defines (scopeLines statements) unit.image
  labels : (codeLabels (scopeLines statements)).Nodup
  apart : ∀ label ∈ codeLabels (scopeLines statements), label ∉ dataNames (scopeLines statements)
  addresses : ∀ (i : Nat) (line : Line) (label : String), (scopeLines statements)[i]? = some line →
    line.segment = .code → line.label = some label →
    unit.layout.labels.find? label =
      some (firstAddress (rows.drop i).flatten unit.layout.codeLength)

/-- Names are distinct where no definition is overlooked. -/
theorem Assembled.Binds.nodup {unit : Assembled source options statements script}
    {rows : List (List Located)}
    (h : unit.Binds rows) (hSeen : NothingOverlooked (scopeLines statements)) :
    (dataNames (scopeLines statements) ++ codeLabels (scopeLines statements)).Nodup := by
  have hData : (dataNames (scopeLines statements)).Nodup :=
    List.pairwise_map.mpr ((h.data.apart.and hSeen).imp fun hBoth hSame =>
      hBoth.2 hSame (hBoth.1 hSame))
  refine List.nodup_append.mpr ⟨hData, h.labels, ?_⟩
  rintro name hName label hLabel rfl
  exact h.apart name hLabel hName

/-- Every definition of an assembled unit has its own value. Two of them have
one name only if the later one overlooks the earlier one, which is a label of
words behind which a string or a native has the name, or a label of data behind
which a constant has it; in any other order they are rejected. -/
theorem definitions_bound (h : assemble source options statements = .ok script) :
    ∃ (unit : Assembled source options statements script) (rows : List (List Located)),
      Arranged unit.data.symbols unit.strings options 0 (scopeLines statements) rows
        unit.layout.codeLength ∧
      unit.Binds rows ∧
      (NothingOverlooked (scopeLines statements) →
        (dataNames (scopeLines statements) ++ codeLabels (scopeLines statements)).Nodup) := by
  obtain ⟨unit⟩ := assemble_ok h
  obtain ⟨rows, hRows, _, hLabels, _⟩ := layoutCode_ok unit.laidOut
  obtain ⟨hDistinct, hApart⟩ := unit.codeLabels_apart
  have hBinds : unit.Binds rows := by
    refine ⟨unit.defines, hDistinct, fun label hLabel hName => ?_, hLabels⟩
    obtain ⟨definition, hDefinition, hSame⟩ := List.mem_map.mp hName
    exact hApart label hLabel definition hDefinition hSame
  exact ⟨unit, rows, hRows, hBinds, hBinds.nodup⟩

def namedUnit : List Statement := [
  .ofDirective (.const "LIMIT" (.int 5)),
  .ofDirective (.segment .statics),
  { Statement.ofDirective (.zero 2) with label := some "values" }]

theorem assemble_named :
    ∃ script, assemble NativeDatabase.empty .default namedUnit = .ok script :=
  exists_of_isOk (by decide +kernel)

/-- The two names of the unit are bound, and they are distinct. -/
theorem definitions_bound_named :
    NothingOverlooked (scopeLines namedUnit) ∧
      ∃ script, assemble NativeDatabase.empty .default namedUnit = .ok script ∧
        (dataNames (scopeLines namedUnit) ++ codeLabels (scopeLines namedUnit)).Nodup ∧
        ∃ (unit : Assembled NativeDatabase.empty .default namedUnit script)
          (rows : List (List Located)),
          unit.Binds rows ∧ unit.data.symbols.constants["LIMIT"]? = some (.int 5) := by
  have hSeen : NothingOverlooked (scopeLines namedUnit) := by
    show [(⟨.constant, "LIMIT"⟩ : Definition), ⟨.words, "values"⟩].Pairwise _
    simp
  obtain ⟨script, hScript⟩ := assemble_named
  obtain ⟨unit, rows, _, hBinds, hNames⟩ := definitions_bound hScript
  refine ⟨hSeen, script, hScript, hNames hSeen, unit, rows, hBinds, ?_⟩
  obtain ⟨value, hValue, hOperand⟩ :=
    hBinds.data.constants _ (List.mem_of_getElem? (i := 0) rfl) "LIMIT" (.int 5) rfl
  rw [hValue, ← hOperand]
  rfl

end Bindings

end ScriptBackend.Assembly
