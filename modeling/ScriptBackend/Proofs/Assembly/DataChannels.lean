import ScriptBackend.Proofs.Assembly.NativeIndices

/-!
The data pass in channels. Names and constants, strings, and natives are each
collected from lines of their own, and none of them looks at what the others
have collected. So a list of lines is taken when it can be taken channel by
channel, when its names are new and when every line stands where it may stand.
-/
namespace ScriptBackend.Assembly

open Outcome

/-! Channels -/

/-- What directives say that may stand in any segment. -/
structure Preamble where
  name : Option String
  hash : UInt32
  constants : Std.TreeMap String Value

/-- Takes a directive that may stand in any segment. -/
def Preamble.take? (preamble : Preamble) : Directive → Option Preamble
  | .scriptName name => some { preamble with name := some name }
  | .scriptHash hash => some { preamble with hash := hash }
  | .const name operand =>
    (Collection.constant? preamble.constants operand).bind fun value =>
      if preamble.constants.contains name then none
      else some { preamble with constants := preamble.constants.insert name value }
  | _ => some preamble

def storeText? (pages : StringPages) (text : String) : Option StringPages :=
  match pages.intern text with
  | (some _, next) => some next
  | (none, _) => none

theorem of_storeText?_eq_some {pages next : StringPages} {text : String}
    (h : storeText? pages text = some next) :
    (pages.intern text).2 = next ∧ ∃ offset, next.offset? text = some offset := by
  unfold storeText? at h
  split at h
  · next offset _ hStored =>
      cases h
      have hOffset := StringPages.offset?_intern (congrArg Prod.fst hStored)
      rw [hStored] at hOffset ⊢
      exact ⟨rfl, offset, hOffset⟩
  · cases h

/-- Texts that are taken are stored in order, and each of them has an offset
then. -/
theorem internAll_of_storeText? {pages next : StringPages} {texts : List String}
    (h : texts.foldlM storeText? pages = some next) :
    next = pages.internAll texts ∧ ∀ text ∈ texts, ∃ offset, next.offset? text = some offset := by
  induction texts generalizing pages with
  | nil =>
      cases h
      exact ⟨rfl, by simp⟩
  | cons text rest ih =>
      obtain ⟨middle, hMiddle, hRest⟩ := Option.bind_eq_some_iff.mp h
      obtain ⟨rfl, offset, hOffset⟩ := of_storeText?_eq_some hMiddle
      obtain ⟨rfl, hStored⟩ := ih hRest
      exact ⟨rfl, List.forall_mem_cons.mpr
        ⟨⟨offset, StringPages.keeps_internAll _ rest text offset hOffset⟩, hStored⟩⟩

def includeNative? (natives : NativeTable) (hash : UInt64) : Option NativeTable :=
  match natives.add hash with
  | (.ok _, next) => some next
  | (.error _, _) => none

/-- A text that is stored has an offset from then on. -/
theorem intern_of_storeText? {pages next : StringPages} {text : String}
    (h : storeText? pages text = some next) :
    ∃ offset, pages.intern text = (some offset, next) := by
  rw [storeText?] at h
  generalize pages.intern text = stored at h ⊢
  obtain ⟨found, later⟩ := stored
  cases found with
  | none => cases h
  | some offset =>
      cases h
      exact ⟨offset, rfl⟩

/-- A native that is included has an index, and its hash was new. -/
theorem add_of_includeNative? {natives next : NativeTable} {hash : UInt64}
    (h : includeNative? natives hash = some next) :
    ∃ index, natives.add hash = (.ok index, next) := by
  rw [includeNative?] at h
  generalize natives.add hash = included at h ⊢
  obtain ⟨found, later⟩ := included
  cases found with
  | error fault => cases h
  | ok index =>
      cases h
      exact ⟨index, rfl⟩

/-- The directive of a line that may stand in any segment. -/
def Line.floating? (line : Line) : Option Directive :=
  match line.statement.content with
  | .directive (.scriptName name) => some (.scriptName name)
  | .directive (.scriptHash hash) => some (.scriptHash hash)
  | .directive (.const name operand) => some (.const name operand)
  | _ => none

/-- The string of a line. -/
def Line.text? (line : Line) : Option String :=
  match line.statement.content with
  | .directive (.text text) => some text
  | _ => none

/-- Whether a line stands in a segment that has a place for what it says. -/
def Line.isPlaced (line : Line) : Bool :=
  match line.statement.content with
  | .instruction _ _ => line.segment = .code
  | .empty => !(line.label.isSome && (line.segment = .strings || line.segment = .natives))
  | .directive (.ints _) | .directive (.floats _) | .directive (.zero _) => line.segment.holdsWords
  | .directive (.text _) => line.segment = .strings
  | .directive (.native _) => line.segment = .natives
  | .directive _ => true

/-- One step in a channel, for a line that may have nothing for it. -/
def stepWith {σ α : Type} (step : σ → α → Option σ) (state : σ) : Option α → Option σ
  | some item => step state item
  | none => some state

/-- A fold over what is picked from items goes item by item. -/
theorem foldlM_filterMap_cons {σ α β : Type} (step : σ → α → Option σ) (pick : β → Option α)
    (state : σ) (item : β) (rest : List β) :
    ((item :: rest).filterMap pick).foldlM step state =
      (stepWith step state (pick item)).bind
        fun next => (rest.filterMap pick).foldlM step next := by
  cases hPick : pick item with
  | none => rw [List.filterMap_cons_none hPick]; rfl
  | some found => rw [List.filterMap_cons_some hPick]; rfl

namespace Collection

/-- What a collection has from the directives that may stand in any segment. -/
def preamble (collection : Collection) : Preamble :=
  ⟨collection.image.name, collection.image.hash, collection.symbols.constants⟩

/-- How a line changes the channels. -/
structure Takes (line : Line) (first next : Collection) : Prop where
  preamble : stepWith Preamble.take? first.preamble line.floating? = some next.preamble
  strings : stepWith storeText? first.strings line.text? = some next.strings
  natives : stepWith includeNative? first.natives line.native? = some next.natives

/-- Two collections with the same channels. -/
structure KeepsChannels (first next : Collection) : Prop where
  preamble : next.preamble = first.preamble
  strings : next.strings = first.strings
  natives : next.natives = first.natives

variable {line : Line} {collection next : Collection}

/-- To enter a segment adds nothing. Only the block of globals may be chosen by
it. -/
theorem enterSegment_channels (h : collection.enterSegment line = .ok next) :
    KeepsChannels collection next ∧ next.symbols = collection.symbols ∧
    next.labelled = collection.labelled := by
  unfold enterSegment at h
  repeat' split at h
  all_goals cases h
  all_goals exact ⟨⟨rfl, rfl, rfl⟩, rfl, rfl⟩

/-- A label of words is noted for later and adds no symbol yet. -/
theorem noteLabel_channels (h : collection.noteLabel line = .ok next) :
    KeepsChannels collection next ∧ next.symbols = collection.symbols := by
  unfold noteLabel at h
  repeat' split at h
  all_goals cases h
  all_goals exact ⟨⟨rfl, rfl, rfl⟩, rfl⟩

theorem defineSymbol_channels {value : Nat} (h : collection.defineSymbol line value = .ok next) :
    KeepsChannels collection next := by
  unfold defineSymbol at h
  repeat' split at h
  all_goals cases h
  all_goals exact ⟨rfl, rfl, rfl⟩

theorem constantValue_of_constant? {operand : Operand} {value : Value}
    (h : constant? collection.symbols.constants operand = some value) :
    collection.constantValue line operand = .ok value := by
  cases operand with
  | int literal =>
      cases h
      rfl
  | float literal =>
      cases h
      rfl
  | name other =>
      rw [constant?] at h
      rw [constantValue, h]
  | _ => cases h

/-- A line that has nothing for the channels leaves them as they are. -/
theorem Takes.of_keeps (h : KeepsChannels collection next) (hFloating : line.floating? = none)
    (hText : line.text? = none) (hNative : line.native? = none) : Takes line collection next where
  preamble := by rw [hFloating, h.preamble]; rfl
  strings := by rw [hText, h.strings]; rfl
  natives := by rw [hNative, h.natives]; rfl

/-- Words with operands stay in their segment and leave strings and natives
alone. -/
theorem addWords_channels {kind : WordKind} {operands : List Operand}
    (h : collection.addWords line kind operands = .ok next) :
    KeepsChannels collection next ∧ line.segment.holdsWords = true := by
  unfold addWords at h
  split at h
  · next hWords =>
      cases h
      refine ⟨⟨?_, rfl, rfl⟩, hWords⟩
      cases hSegment : line.segment <;> rfl
  · cases h

theorem addZeros_channels {count : Nat} (h : collection.addZeros line count = .ok next) :
    KeepsChannels collection next ∧ line.segment.holdsWords = true := by
  unfold addZeros at h
  split at h
  · next hWords =>
      cases h
      refine ⟨⟨?_, rfl, rfl⟩, hWords⟩
      cases hSegment : line.segment <;> rfl
  · cases h

/-- A directive goes to the channel of its segment, and is not allowed in any
other. -/
theorem addDirective_takes {directive : Directive}
    (hContent : line.statement.content = .directive directive)
    (h : collection.addDirective line directive = .ok next) :
    Takes line collection next ∧ line.isPlaced = true := by
  have hSilent : KeepsChannels collection next → line.floating? = none → line.text? = none →
      line.native? = none → Takes line collection next := .of_keeps
  cases directive with
  | segment segment =>
      cases h
      simp [Line.isPlaced, Line.floating?, Line.text?, Line.native?, hContent] at hSilent ⊢
      exact hSilent ⟨rfl, rfl, rfl⟩
  | scriptName _ | scriptHash _ =>
      cases h
      refine ⟨⟨?_, ?_, ?_⟩, ?_⟩ <;> simp [Line.isPlaced, Line.floating?, Line.text?,
        Line.native?, hContent] <;> rfl
  | const name operand =>
      obtain ⟨value, hValue, h⟩ := bind_eq_ok.mp h
      split at h
      · cases h
      · next hFresh =>
          cases h
          have hTaken : collection.preamble.take? (.const name operand) =
              some ⟨collection.image.name, collection.image.hash,
                collection.symbols.constants.insert name value⟩ := by
            simp only [Preamble.take?, preamble,
              constant?_of_constantValue hValue, Option.bind_some]
            exact if_neg hFresh
          refine ⟨⟨?_, ?_, ?_⟩, ?_⟩ <;> simp only [Line.isPlaced, Line.floating?, Line.text?,
            Line.native?, hContent]
          · exact hTaken
          · rfl
          · rfl
  | ints _ | floats _ =>
      obtain ⟨hKeeps, hWords⟩ := addWords_channels h
      simp [Line.isPlaced, Line.floating?, Line.text?, Line.native?, hContent] at hSilent ⊢
      exact ⟨hSilent hKeeps, hWords⟩
  | zero count =>
      obtain ⟨hKeeps, hWords⟩ := addZeros_channels h
      simp [Line.isPlaced, Line.floating?, Line.text?, Line.native?, hContent] at hSilent ⊢
      exact ⟨hSilent hKeeps, hWords⟩
  | text text =>
      rw [addDirective, addText] at h
      split at h
      · next hSegment =>
          split at h
          · next offset strings hStored =>
              have hKeeps := defineSymbol_channels h
              refine ⟨⟨?_, ?_, ?_⟩, ?_⟩ <;>
                simp only [Line.isPlaced, Line.floating?, Line.text?, Line.native?, hContent]
              · exact congrArg some hKeeps.preamble.symm
              · simp only [stepWith, storeText?, hStored, hKeeps.strings]
              · exact congrArg some hKeeps.natives.symm
              · exact decide_eq_true hSegment
          · cases h
      · cases h
  | native hash =>
      rw [addDirective, addNative] at h
      split at h
      · next hSegment =>
          split at h
          · next index natives hIncluded =>
              have hKeeps := defineSymbol_channels h
              refine ⟨⟨?_, ?_, ?_⟩, ?_⟩ <;>
                simp only [Line.isPlaced, Line.floating?, Line.text?, Line.native?, hContent]
              · exact congrArg some hKeeps.preamble.symm
              · exact congrArg some hKeeps.strings.symm
              · simp only [stepWith, includeNative?, hIncluded, hKeeps.natives]
              · exact decide_eq_true hSegment
          · cases h
      · cases h

theorem addContent_takes (h : collection.addContent line = .ok next) :
    Takes line collection next ∧ line.isPlaced = true := by
  unfold addContent at h
  split at h
  · next mnemonic operands hContent =>
      split at h
      · next hSegment =>
          cases h
          simp [Line.isPlaced, hContent, hSegment]
          refine .of_keeps ⟨rfl, rfl, rfl⟩ ?_ ?_ ?_ <;>
            simp [Line.floating?, Line.text?, Line.native?, hContent]
      · cases h
  · next hContent =>
      split at h
      · cases h
      · next hAlone =>
          cases h
          have hPlaced : line.isPlaced = true := by
            rw [Line.isPlaced, hContent]
            exact (Bool.not_eq_true' _).mpr (Bool.eq_false_iff.mpr hAlone)
          refine ⟨.of_keeps ⟨rfl, rfl, rfl⟩ ?_ ?_ ?_, hPlaced⟩ <;>
            simp [Line.floating?, Line.text?, Line.native?, hContent]
  · next directive hContent => exact addDirective_takes hContent h

/-- A line goes to the one channel that its segment feeds. -/
theorem add_takes (h : collection.add line = .ok next) :
    Takes line collection next ∧ line.isPlaced = true := by
  obtain ⟨entered, hEntered, h⟩ := bind_eq_ok.mp h
  obtain ⟨noted, hNoted, h⟩ := bind_eq_ok.mp h
  obtain ⟨hTakes, hPlaced⟩ := addContent_takes h
  obtain ⟨hEnter, _⟩ := enterSegment_channels hEntered
  obtain ⟨hNote, _⟩ := noteLabel_channels hNoted
  refine ⟨⟨?_, ?_, ?_⟩, hPlaced⟩
  · rw [← hEnter.preamble, ← hNote.preamble]
    exact hTakes.preamble
  · rw [← hEnter.strings, ← hNote.strings]
    exact hTakes.strings
  · rw [← hEnter.natives, ← hNote.natives]
    exact hTakes.natives

/-- The channels of lines that are taken, one after the other. -/
structure TakesAll (lines : List Line) (first next : Collection) : Prop where
  preamble : (lines.filterMap Line.floating?).foldlM Preamble.take? first.preamble =
    some next.preamble
  strings : (lines.filterMap Line.text?).foldlM storeText? first.strings = some next.strings
  natives : (nativeHashes lines).foldlM includeNative? first.natives = some next.natives

/-- Lines feed each channel in their own order, whatever comes between. -/
theorem addAll_takes {lines : List Line} (h : collection.addAll lines = .ok next) :
    TakesAll lines collection next ∧ ∀ line ∈ lines, line.isPlaced = true := by
  induction lines generalizing collection with
  | nil =>
      cases h
      exact ⟨⟨rfl, rfl, rfl⟩, by simp⟩
  | cons line rest ih =>
      rw [addAll] at h
      split at h
      · cases h
      · next middle hMiddle =>
          obtain ⟨hLine, hPlaced⟩ := add_takes hMiddle
          obtain ⟨hRest, hOthers⟩ := ih h
          refine ⟨⟨?_, ?_, ?_⟩, List.forall_mem_cons.mpr ⟨hPlaced, hOthers⟩⟩
          · rw [foldlM_filterMap_cons, hLine.preamble]
            exact hRest.preamble
          · rw [foldlM_filterMap_cons, hLine.strings]
            exact hRest.strings
          · rw [nativeHashes, foldlM_filterMap_cons, hLine.natives]
            exact hRest.natives

/-! The block of globals -/

/-- A block that is chosen was chosen before, or is the one that the line stands
in. -/
theorem eq_of_add_block (h : collection.add line = .ok next) {block : UInt8}
    (hBlock : next.image.block = some block) :
    collection.image.block = some block ∨ line.segment = .globals block := by
  obtain ⟨entered, hEntered, h⟩ := bind_eq_ok.mp h
  obtain ⟨noted, hNoted, h⟩ := bind_eq_ok.mp h
  rw [addContent_block h] at hBlock
  have hNote : noted.image.block = entered.image.block := by
    unfold noteLabel at hNoted
    repeat' split at hNoted
    all_goals cases hNoted
    all_goals rfl
  rw [hNote] at hBlock
  unfold enterSegment at hEntered
  split at hEntered
  · next own hSegment =>
      split at hEntered
      · cases hEntered
      · split at hEntered
        · split at hEntered
          · cases hEntered
            exact .inl hBlock
          · cases hEntered
        · cases hEntered
          cases hBlock
          exact .inr hSegment
  · cases hEntered
    exact .inl hBlock

/-- The block of a collection was chosen before or is that of one of the lines. -/
theorem eq_of_addAll_block {lines : List Line}
    (h : collection.addAll lines = .ok next) {block : UInt8}
    (hBlock : next.image.block = some block) :
    collection.image.block = some block ∨ ∃ line ∈ lines, line.segment = .globals block := by
  induction lines generalizing collection with
  | nil =>
      cases h
      exact .inl hBlock
  | cons line rest ih =>
      rw [addAll] at h
      split at h
      · cases h
      · next middle hMiddle =>
          rcases ih h with hOld | ⟨other, hOther, hSegment⟩
          · rcases eq_of_add_block hMiddle hOld with hBefore | hOwn
            · exact .inl hBefore
            · exact .inr ⟨line, List.mem_cons_self .., hOwn⟩
          · exact .inr ⟨other, List.mem_cons_of_mem _ hOther, hSegment⟩

/-! Lines that can be taken -/

/-- A segment can be entered unless it is a block out of range or a second one. -/
theorem enterSegment_succeeds
    (hBlock : ∀ block, line.segment = .globals block → block.toNat < blockLimit ∧
      ∀ other, collection.image.block = some other → other = block) :
    ∃ next, collection.enterSegment line = .ok next := by
  unfold enterSegment
  split
  · next block hSegment =>
      obtain ⟨hLimit, hSame⟩ := hBlock block hSegment
      rw [if_neg (Nat.not_le.mpr hLimit)]
      split
      · next existing hExisting =>
          rw [if_pos (hSame existing hExisting)]
          exact ⟨_, rfl⟩
      · exact ⟨_, rfl⟩
  · exact ⟨_, rfl⟩

/-- A label can be noted if neither a symbol nor another label of words has its
name. -/
theorem noteLabel_succeeds (hFresh : ∀ definition ∈ line.wordDefinitions,
      collection.symbols.contains definition.name = false ∧
      collection.labelled.contains definition.name = false) :
    ∃ next, collection.noteLabel line = .ok next := by
  unfold noteLabel
  split
  · exact ⟨_, rfl⟩
  · next label hLabel =>
      split
      · exact ⟨_, rfl⟩
      · next hWords =>
          have hOwn : ⟨.words, label⟩ ∈ line.wordDefinitions := by
            rw [Line.wordDefinitions, hLabel, if_pos (by simpa using hWords)]
            exact List.mem_singleton_self _
          obtain ⟨hSymbols, hLabelled⟩ := hFresh _ hOwn
          rw [hSymbols, hLabelled]
          exact ⟨_, rfl⟩

/-- A string or a native can be named if no symbol has the name. -/
theorem defineSymbol_succeeds {value : Nat}
    (hFresh : ∀ label, line.label = some label → collection.symbols.contains label = false) :
    ∃ next, collection.defineSymbol line value = .ok next := by
  unfold defineSymbol
  split
  · exact ⟨_, rfl⟩
  · next label hLabel =>
      rw [hFresh label hLabel]
      exact ⟨_, rfl⟩

/-- What a line says is taken when its names are free and each channel takes its
part. -/
theorem addContent_succeeds {preamble : Preamble} {strings : StringPages} {natives : NativeTable}
    (hPlaced : line.isPlaced = true)
    (hFresh : ∀ definition ∈ line.contentDefinitions, collection.symbols.contains definition.name =
      false)
    (hPreamble : stepWith Preamble.take? collection.preamble line.floating? = some preamble)
    (hStrings : stepWith storeText? collection.strings line.text? = some strings)
    (hNatives : stepWith includeNative? collection.natives line.native? = some natives) :
    ∃ next, collection.addContent line = .ok next := by
  unfold addContent
  unfold Line.isPlaced at hPlaced
  unfold Line.floating? at hPreamble
  unfold Line.text? at hStrings
  unfold Line.native? at hNatives
  unfold Line.contentDefinitions at hFresh
  cases hContent : line.statement.content with
  | instruction mnemonic operands =>
      rw [hContent] at hPlaced
      rw [decide_eq_true_eq] at hPlaced
      simp only [hPlaced, if_true]
      exact ⟨_, rfl⟩
  | empty =>
      rw [hContent] at hPlaced
      rw [Bool.not_eq_true'] at hPlaced
      simp only [hPlaced]
      exact ⟨_, rfl⟩
  | directive directive =>
      rw [hContent] at hPlaced hPreamble hStrings hNatives hFresh
      cases directive with
      | segment segment => exact ⟨_, rfl⟩
      | scriptName name => exact ⟨_, rfl⟩
      | scriptHash hash => exact ⟨_, rfl⟩
      | const name operand =>
          obtain ⟨value, hValue, hNew⟩ := Option.bind_eq_some_iff.mp hPreamble
          split at hNew
          · cases hNew
          · next hName =>
              simp only [addDirective, defineConstant, constantValue_of_constant? hValue]
              exact ⟨_, if_neg hName⟩
      | ints operands =>
          simp only [addDirective, addWords, hPlaced, if_true]
          exact ⟨_, rfl⟩
      | floats operands =>
          simp only [addDirective, addWords, hPlaced, if_true]
          exact ⟨_, rfl⟩
      | zero count =>
          simp only [addDirective, addZeros, hPlaced, if_true]
          exact ⟨_, rfl⟩
      | text text =>
          have hLabel : ∀ label, line.label = some label →
              collection.symbols.contains label = false :=
            fun label hLabel => hFresh ⟨.entry, label⟩ (by simp [Directive.definitions, hLabel])
          rw [decide_eq_true_eq] at hPlaced
          obtain ⟨offset, hStored⟩ := intern_of_storeText? hStrings
          simp only [addDirective, addText, hPlaced, if_true, hStored]
          exact defineSymbol_succeeds hLabel
      | native hash =>
          have hLabel : ∀ label, line.label = some label →
              collection.symbols.contains label = false :=
            fun label hLabel => hFresh ⟨.entry, label⟩ (by simp [Directive.definitions, hLabel])
          rw [decide_eq_true_eq] at hPlaced
          obtain ⟨index, hIncluded⟩ := add_of_includeNative? hNatives
          simp only [addDirective, addNative, hPlaced, if_true, hIncluded]
          exact defineSymbol_succeeds hLabel

/-- What the next line needs of the collection in front of it. -/
structure Admits (collection : Collection) (line : Line) : Prop where
  placed : line.isPlaced = true
  block : ∀ block, line.segment = .globals block → block.toNat < blockLimit ∧
    ∀ other, collection.image.block = some other → other = block
  fresh : ∀ definition ∈ line.definitions,
    collection.symbols.contains definition.name = false ∧
    collection.labelled.contains definition.name = false
  preamble : (stepWith Preamble.take? collection.preamble line.floating?).isSome
  strings : (stepWith storeText? collection.strings line.text?).isSome
  natives : (stepWith includeNative? collection.natives line.native?).isSome

/-- A line that is admitted is taken. -/
theorem Admits.add (h : collection.Admits line) : ∃ next, collection.add line = .ok next := by
  obtain ⟨entered, hEntered⟩ := enterSegment_succeeds h.block
  obtain ⟨hEnter, hSymbols, hLabelled⟩ := enterSegment_channels hEntered
  obtain ⟨noted, hNoted⟩ : ∃ noted, entered.noteLabel line = .ok noted := by
    refine noteLabel_succeeds fun definition hOwn => ?_
    rw [hSymbols, hLabelled]
    exact h.fresh definition (List.mem_append_left _ hOwn)
  obtain ⟨hNote, hSame⟩ := noteLabel_channels hNoted
  obtain ⟨preamble, hPreamble⟩ := Option.isSome_iff_exists.mp h.preamble
  obtain ⟨strings, hStrings⟩ := Option.isSome_iff_exists.mp h.strings
  obtain ⟨natives, hNatives⟩ := Option.isSome_iff_exists.mp h.natives
  rw [← hEnter.preamble, ← hNote.preamble] at hPreamble
  rw [← hEnter.strings, ← hNote.strings] at hStrings
  rw [← hEnter.natives, ← hNote.natives] at hNatives
  obtain ⟨next, hNext⟩ : ∃ next, noted.addContent line = .ok next := by
    refine addContent_succeeds h.placed (fun definition hOwn => ?_) hPreamble hStrings hNatives
    rw [hSame, hSymbols]
    exact (h.fresh definition (List.mem_append_right _ hOwn)).1
  exact ⟨next, bind_eq_ok.mpr ⟨entered, hEntered, bind_eq_ok.mpr ⟨noted, hNoted, hNext⟩⟩⟩

/-- Names that a collection does not know are new to it. -/
theorem Records.fresh {definitions : List Definition}
    (h : Records definitions collection) {name : String}
    (hNew : name ∉ definitions.map Definition.name) :
    collection.symbols.contains name = false ∧ collection.labelled.contains name = false := by
  have hOther : ∀ kind, ⟨kind, name⟩ ∉ definitions :=
    fun kind hKnown => hNew (List.mem_map_of_mem hKnown)
  rw [Symbols.contains, Bool.or_eq_false_iff, ← Bool.not_eq_true, ← Bool.not_eq_true,
    ← Bool.not_eq_true]
  exact ⟨⟨fun hKnown => hOther _ ((h.constants name).mp hKnown),
    fun hKnown => hOther _ ((h.entries name).mp hKnown)⟩, fun hKnown =>
      hOther _ ((h.words name).mp ((h.labelled name).mp hKnown))⟩

/-- Lines are taken when their names are new, their channels can be taken, and
each has its place. -/
theorem addAll_succeeds {lines : List Line} {definitions : List Definition} {block : UInt8}
    {preamble : Preamble} {strings : StringPages} {natives : NativeTable}
    (hRecords : Records definitions collection)
    (hNames : ((definitions ++ lines.flatMap Line.definitions).map Definition.name).Nodup)
    (hPlaced : ∀ line ∈ lines, line.isPlaced = true)
    (hBlock : ∀ line ∈ lines, ∀ other, line.segment = .globals other →
      other = block ∧ block.toNat < blockLimit)
    (hKnown : ∀ other, collection.image.block = some other → other = block)
    (hPreamble : (lines.filterMap Line.floating?).foldlM Preamble.take? collection.preamble =
      some preamble)
    (hStrings : (lines.filterMap Line.text?).foldlM storeText? collection.strings = some strings)
    (hNatives : (nativeHashes lines).foldlM includeNative? collection.natives = some natives) :
    ∃ next, collection.addAll lines = .ok next := by
  induction lines generalizing collection definitions with
  | nil => exact ⟨collection, rfl⟩
  | cons line rest ih =>
      rw [List.forall_mem_cons] at hPlaced hBlock
      rw [List.flatMap_cons, ← List.append_assoc] at hNames
      rw [foldlM_filterMap_cons] at hPreamble hStrings
      rw [nativeHashes, foldlM_filterMap_cons] at hNatives
      obtain ⟨title, hTitle, hPreamble⟩ := Option.bind_eq_some_iff.mp hPreamble
      obtain ⟨pages, hPages, hStrings⟩ := Option.bind_eq_some_iff.mp hStrings
      obtain ⟨table, hTable, hNatives⟩ := Option.bind_eq_some_iff.mp hNatives
      have hAdmits : collection.Admits line := by
        refine ⟨hPlaced.1, fun other hOther => ?_, fun definition hOwn =>
          hRecords.fresh fun hMem => ?_, ?_, ?_, ?_⟩
        · obtain ⟨rfl, hLimit⟩ := hBlock.1 other hOther
          exact ⟨hLimit, hKnown⟩
        · rw [List.map_append, List.map_append, List.nodup_append] at hNames
          exact (List.nodup_append.mp hNames.1).2.2 _ hMem _ (List.mem_map_of_mem hOwn) rfl
        · rw [hTitle]; rfl
        · rw [hPages]; rfl
        · rw [hTable]; rfl
      obtain ⟨next, hNext⟩ := hAdmits.add
      obtain ⟨hTakes, _⟩ := add_takes hNext
      cases hTitle.symm.trans hTakes.preamble
      cases hPages.symm.trans hTakes.strings
      cases hTable.symm.trans hTakes.natives
      have hChosen : ∀ other, next.image.block = some other →
          other = block := fun other hOther => by
        rcases eq_of_add_block hNext hOther with hBefore | hOwn
        · exact hKnown other hBefore
        · exact (hBlock.1 other hOwn).1
      obtain ⟨final, hFinal⟩ :=
        ih (hRecords.add hNext) hNames hPlaced.2 hBlock.2 hChosen hPreamble hStrings hNatives
      exact ⟨final, (addAll_cons hNext).trans hFinal⟩

end Collection
end ScriptBackend.Assembly
