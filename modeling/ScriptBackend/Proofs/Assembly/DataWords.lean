import ScriptBackend.Assembly.Unit
import ScriptBackend.Proofs.Assembly.Artifact
import ScriptBackend.Program.Basic

/-!
The words of the data. Read line by line, the directives of a section ask for a
list of words, some of them zero and some with an operand; the finished image
holds just these words in this order. Words are filled in by stores in two
passes, and all stores to one place agree.
-/
namespace ScriptBackend.Assembly

open Outcome

def Segment.region? : Segment → Option Region
  | .statics => some .statics
  | .arguments => some .arguments
  | .globals _ => some .globals
  | _ => none

def DataImage.regionWords (image : DataImage) : Region → Array Word
  | .statics => image.statics
  | .arguments => image.arguments
  | .globals => image.globals
  | _ => #[]

/-- Two images are the same when their names, blocks and words are. -/
theorem DataImage.eq_of_regionWords {image other : DataImage} (hName : other.name = image.name)
    (hHash : other.hash = image.hash) (hBlock : other.block = image.block)
    (hWords : ∀ region, other.regionWords region = image.regionWords region) : other = image := by
  have hStatics : other.statics = image.statics := hWords .statics
  have hArguments : other.arguments = image.arguments := hWords .arguments
  have hGlobals : other.globals = image.globals := hWords .globals
  cases image
  cases other
  simp_all

/-- Where a word comes from: an operand on a line. -/
structure WordSource where
  line : Line
  kind : WordKind
  operand : Operand

/-- Where the words come from that a directive on a line asks for. A word that
comes from nowhere is zero. -/
def Directive.wordSources (line : Line) : Directive → List (Option WordSource)
  | .ints operands => operands.map fun operand => some ⟨line, .int, operand⟩
  | .floats operands => operands.map fun operand => some ⟨line, .float, operand⟩
  | .zero count => List.replicate count.toNat none
  | _ => []

/-- Where the words come from that a line asks for. -/
def Line.wordSources (line : Line) : List (Option WordSource) :=
  match line.statement.content with
  | .directive directive => directive.wordSources line
  | _ => []

/-- Where the words of a region come from. -/
def wordSources (region : Region) (lines : List Line) : List (Option WordSource) :=
  lines.flatMap fun line => if line.segment.region? = some region then line.wordSources else []

def PendingWord.source (pending : PendingWord) : WordSource :=
  ⟨pending.line, pending.kind, pending.operand⟩

/-- The word that comes from an operand. -/
def WordSource.Denotes (symbols : Symbols) (labels : LabelTable)
    (source : WordSource) (word : Word) : Prop :=
  PendingWord.evaluate ⟨source.line, 0, source.kind, source.operand⟩ symbols = .ok (.word word) ∨
    ∃ label address,
      PendingWord.evaluate ⟨source.line, 0, source.kind, source.operand⟩ symbols =
        .ok (.address label) ∧ labels.find? label = some address ∧ word = Word.ofInt address

/-- Only one word comes from an operand. -/
theorem WordSource.Denotes.unique {symbols : Symbols} {labels : LabelTable} {source : WordSource}
    {word other : Word} (h : source.Denotes symbols labels word)
    (hOther : source.Denotes symbols labels other) : word = other := by
  rcases h with hWord | ⟨label, address, hLabel, hAddress, rfl⟩
  · rcases hOther with hSame | ⟨label, address, hLabel, _, _⟩
    · rw [hWord] at hSame
      cases hSame
      rfl
    · rw [hWord] at hLabel
      cases hLabel
  · rcases hOther with hSame | ⟨same, found, hSame, hFound, rfl⟩
    · rw [hLabel] at hSame
      cases hSame
    · rw [hLabel] at hSame
      cases hSame
      rw [hAddress] at hFound
      cases hFound
      rfl

/-- The word of a place in the data. -/
def WordDenotes (symbols : Symbols) (labels : LabelTable)
    (source : Option WordSource) (word : Word) : Prop :=
  match source with
  | none => word = Word.zero
  | some source => source.Denotes symbols labels word

/-- A source denotes one word at most, so what the words of an image are is
settled. -/
theorem rightUnique_wordDenotes (symbols : Symbols) (labels : LabelTable) :
    Relator.RightUnique (WordDenotes symbols labels) := by
  intro source word other h hOther
  cases source with
  | none => exact h.trans hOther.symm
  | some source => exact WordSource.Denotes.unique h hOther

section Sections

@[simp] theorem wordSources_append (region : Region) (first second : List Line) :
    wordSources region (first ++ second) = wordSources region first ++ wordSources region second :=
  List.flatMap_append

theorem wordSources_singleton (region : Region) (line : Line) :
    wordSources region [line] = if line.segment.region? = some region then
      line.wordSources else [] :=
  List.flatMap_singleton ..

end Sections

/-! Collecting -/

namespace Collection

/-- The words collected from lines: zeros for the time being, and the sources of
those that wait. -/
structure Holds (lines : List Line) (collection : Collection) : Prop where
  zeros : ∀ region, collection.image.regionWords region =
    Array.replicate (wordSources region lines).length Word.zero
  waiting : ∀ pending ∈ collection.pending, ∃ region, pending.line.segment.region? = some region ∧
    (wordSources region lines)[pending.offset]? = some (some pending.source)
  found : ∀ region i source, (wordSources region lines)[i]? = some (some source) →
    ∃ pending ∈ collection.pending, pending.line.segment.region? = some region ∧
      pending.offset = i ∧ pending.source = source

/-- Two collections with the same words. -/
structure SameWords (first second : Collection) : Prop where
  words : ∀ region, second.image.regionWords region = first.image.regionWords region
  pending : second.pending = first.pending
  block : ∀ block, first.image.block = some block → second.image.block = some block

section

variable {lines : List Line} {line : Line} {collection next : Collection}

theorem SameWords.refl (collection : Collection) : SameWords collection collection :=
  ⟨fun _ => rfl, rfl, fun _ h => h⟩

theorem SameWords.trans {last : Collection} (h : SameWords collection next)
    (hLast : SameWords next last) : SameWords collection last :=
  ⟨fun region => (hLast.words region).trans (h.words region), hLast.pending.trans h.pending,
    fun block hBlock => hLast.block block (h.block block hBlock)⟩

theorem SameWords.holds (h : SameWords collection next) (hHolds : Holds lines collection) :
    Holds lines next where
  zeros := fun region => (h.words region).trans (hHolds.zeros region)
  waiting := by
    rw [h.pending]
    exact hHolds.waiting
  found := by
    rw [h.pending]
    exact hHolds.found

/-- Entering a segment chooses its block and changes nothing else. -/
theorem enterSegment_ok (h : collection.enterSegment line = .ok next) :
    SameWords collection next ∧ ∀ block, line.segment = .globals block →
    next.image.block = some block := by
  unfold enterSegment at h
  split at h
  · next block hSegment =>
      split at h
      · cases h
      · split at h
        · next existing hExisting =>
            split at h
            · next hSame =>
                cases h
                subst hSame
                refine ⟨.refl _, fun other hOther => ?_⟩
                rw [hSegment] at hOther
                cases hOther
                exact hExisting
            · cases h
        · next hNone =>
            cases h
            refine ⟨⟨fun region => by cases region <;> rfl, rfl, fun other hOther => ?_⟩,
              fun other hOther => ?_⟩
            · rw [hNone] at hOther
              cases hOther
            · rw [hSegment] at hOther
              cases hOther
              rfl
  · next hOther =>
      cases h
      exact ⟨.refl _, fun block hBlock => absurd hBlock (hOther block)⟩

theorem noteLabel_ok (h : collection.noteLabel line = .ok next) : SameWords collection next := by
  unfold noteLabel at h
  split at h
  · cases h
    exact .refl _
  · split at h
    · cases h
      exact .refl _
    · split at h
      · cases h
      · cases h
        exact ⟨fun _ => rfl, rfl, fun _ h => h⟩

theorem defineSymbol_ok {value : Nat} (h : collection.defineSymbol line value = .ok next) :
    SameWords collection next := by
  unfold defineSymbol at h
  split at h
  · cases h
    exact .refl _
  · split at h
    · cases h
    · cases h
      exact ⟨fun _ => rfl, rfl, fun _ h => h⟩

theorem addText_ok {text : String} (h : collection.addText line text = .ok next) :
    SameWords collection next := by
  unfold addText at h
  split at h
  · split at h
    · have hDefined := defineSymbol_ok h
      exact ⟨hDefined.words, hDefined.pending, hDefined.block⟩
    · cases h
  · cases h

theorem addNative_ok {hash : UInt64} (h : collection.addNative line hash = .ok next) :
    SameWords collection next := by
  unfold addNative at h
  split at h
  · split at h
    · have hDefined := defineSymbol_ok h
      exact ⟨hDefined.words, hDefined.pending, hDefined.block⟩
    · cases h
  · cases h

theorem defineConstant_ok {name : String} {operand : Operand}
    (h : collection.defineConstant line name operand = .ok next) : SameWords collection next := by
  obtain ⟨value, _, h⟩ := bind_eq_ok.mp h
  split at h
  · cases h
  · cases h
    exact ⟨fun _ => rfl, rfl, fun _ h => h⟩

/-- Each segment of words counts its words in a region of its own. -/
theorem region?_of_holdsWords {segment : Segment} (h : segment.holdsWords = true) :
    ∃ region, segment.region? = some region := by
  cases segment <;> first | exact ⟨_, rfl⟩ | cases h

/-- Adding zeros to a segment adds them to its region. -/
theorem regionWords_extend {segment : Segment} {region : Region} (h : segment.region? = some region)
    (image : DataImage) (count : Nat) (other : Region) :
    (image.extend segment count).regionWords other =
      image.regionWords other ++ if other = region then
        Array.replicate count Word.zero else #[] := by
  cases segment <;> cases h <;> cases other <;>
    simp [DataImage.extend, DataImage.mapWords, DataImage.regionWords]

theorem size_of_region? {segment : Segment} {region : Region} (h : segment.region? = some region)
    (image : DataImage) : image.size segment = (image.regionWords region).size := by
  cases segment <;> cases h <;> rfl

theorem block_extend (image : DataImage) (segment : Segment) (count : Nat) :
    (image.extend segment count).block = image.block := by
  unfold DataImage.extend DataImage.mapWords
  split <;> rfl

/-- A line that asks for no words leaves the words as they are. -/
theorem Holds.append_none (h : Holds lines collection) (hLine : line.wordSources = []) :
    Holds (lines ++ [line]) collection := by
  have hSame : ∀ region, wordSources region (lines ++ [line]) = wordSources region lines := by
    intro region
    simp [wordSources_singleton, hLine]
  exact ⟨fun region => by rw [hSame]; exact h.zeros region,
    fun pending hPending => by
      obtain ⟨region, hRegion, hSource⟩ := h.waiting pending hPending
      exact ⟨region, hRegion, by rw [hSame]; exact hSource⟩,
    fun region i source hSource => h.found region i source (by rwa [hSame] at hSource)⟩

/-- The words of a line stand behind those of the lines before it. -/
theorem wordSources_line {region : Region} (hRegion : line.segment.region? = some region)
    (other : Region) :
    wordSources other (lines ++ [line]) =
      wordSources other lines ++ if other = region then line.wordSources else [] := by
  rw [wordSources_append, wordSources_singleton, hRegion]
  by_cases hSame : other = region
  · simp [hSame]
  · simp [hSame, Ne.symm hSame]

/-- Zeros are words without a source, as many as the line says. -/
theorem Holds.addZeros {count : Nat} (h : Holds lines collection)
    (hLine : line.wordSources = List.replicate count none)
    (hNext : collection.addZeros line count = .ok next) : Holds (lines ++ [line]) next := by
  unfold Collection.addZeros at hNext
  split at hNext
  · next hWords =>
      cases hNext
      obtain ⟨region, hRegion⟩ := region?_of_holdsWords hWords
      have hSources : ∀ other, wordSources other (lines ++ [line]) =
          wordSources other lines ++ if other = region then line.wordSources else [] :=
        wordSources_line hRegion
      refine ⟨fun other => ?_, fun pending hPending => ?_, fun other i source hSource => ?_⟩
      · rw [regionWords_extend hRegion, h.zeros, hSources, hLine]
        by_cases hSame : other = region <;> simp [hSame]
      · obtain ⟨other, hOther, hSource⟩ := h.waiting pending hPending
        refine ⟨other, hOther, ?_⟩
        rw [hSources, List.getElem?_append_left (List.getElem?_eq_some_iff.mp hSource).1, hSource]
      · refine h.found other i source ?_
        rw [hSources, List.getElem?_append] at hSource
        split at hSource
        · exact hSource
        · split at hSource
          · have hNone := List.mem_of_getElem? hSource
            rw [hLine] at hNone
            cases List.eq_of_mem_replicate hNone
          · cases hSource
  · cases hNext

/-- Words with operands are there at once, as zeros, and wait for their operands. -/
theorem Holds.addWords {kind : WordKind} {operands : List Operand} (h : Holds lines collection)
    (hLine : line.wordSources = operands.map fun operand => some ⟨line, kind, operand⟩)
    (hNext : collection.addWords line kind operands = .ok next) : Holds (lines ++ [line]) next := by
  unfold Collection.addWords at hNext
  split at hNext
  · next hWords =>
      cases hNext
      obtain ⟨region, hRegion⟩ := region?_of_holdsWords hWords
      have hSources : ∀ other, wordSources other (lines ++ [line]) =
          wordSources other lines ++ if other = region then line.wordSources else [] :=
        wordSources_line hRegion
      have hFirst : collection.image.size line.segment = (wordSources region lines).length := by
        rw [size_of_region? hRegion, h.zeros, Array.size_replicate]
      refine ⟨fun other => ?_, fun pending hPending => ?_, fun other i source hSource => ?_⟩
      · rw [regionWords_extend hRegion, h.zeros, hSources, hLine]
        by_cases hSame : other = region <;> simp [hSame]
      · rw [← Array.mem_toList_iff, Array.toList_appendList, List.mem_append, Array.mem_toList_iff]
          at hPending
        rcases hPending with hOld | hNew
        · obtain ⟨other, hOther, hSource⟩ := h.waiting pending hOld
          refine ⟨other, hOther, ?_⟩
          rw [hSources, List.getElem?_append_left (List.getElem?_eq_some_iff.mp hSource).1, hSource]
        · obtain ⟨i, hi, rfl⟩ := List.mem_mapIdx.mp hNew
          refine ⟨region, hRegion, ?_⟩
          dsimp only
          rw [hSources, if_pos rfl, hLine, hFirst, List.getElem?_append_right (by omega)]
          simp [hi, PendingWord.source]
      · rw [hSources, List.getElem?_append] at hSource
        split at hSource
        · obtain ⟨pending, hPending, hRest⟩ := h.found other i source hSource
          refine ⟨pending, ?_, hRest⟩
          rw [← Array.mem_toList_iff, Array.toList_appendList]
          exact List.mem_append_left _ (Array.mem_toList_iff.mpr hPending)
        · next hBehind =>
            split at hSource
            · next hSame =>
                subst hSame
                rw [hLine, List.getElem?_map, Option.map_eq_some_iff] at hSource
                obtain ⟨operand, hOperand, hSame⟩ := hSource
                cases hSame
                obtain ⟨hi, hGet⟩ := List.getElem?_eq_some_iff.mp hOperand
                refine ⟨⟨line, collection.image.size line.segment +
                  (i - (wordSources other lines).length), kind, operand⟩, ?_, hRegion, ?_, rfl⟩
                · rw [← Array.mem_toList_iff, Array.toList_appendList]
                  refine List.mem_append_right _ (List.mem_mapIdx.mpr ⟨_, hi, ?_⟩)
                  rw [hGet]
                · rw [hFirst]
                  dsimp only
                  omega
            · cases hSource
  · cases hNext

/-- Whatever a directive says, the words behind those before are the ones that
it declares. -/
theorem Holds.addDirective {directive : Directive} (h : Holds lines collection)
    (hSources : line.wordSources = directive.wordSources line)
    (hNext : collection.addDirective line directive = .ok next) : Holds (lines ++ [line]) next := by
  cases directive with
  | ints operands => exact h.addWords hSources hNext
  | floats operands => exact h.addWords hSources hNext
  | zero count => exact h.addZeros hSources hNext
  | segment segment =>
      cases hNext
      exact h.append_none hSources
  | scriptName name =>
      have hSame : SameWords collection next := by
        cases hNext
        exact ⟨fun region => by cases region <;> rfl, rfl, fun _ h => h⟩
      exact hSame.holds (h.append_none hSources)
  | scriptHash hash =>
      have hSame : SameWords collection next := by
        cases hNext
        exact ⟨fun region => by cases region <;> rfl, rfl, fun _ h => h⟩
      exact hSame.holds (h.append_none hSources)
  | text text => exact (addText_ok hNext).holds (h.append_none hSources)
  | native hash => exact (addNative_ok hNext).holds (h.append_none hSources)
  | const name operand => exact (defineConstant_ok hNext).holds (h.append_none hSources)

theorem defineSymbol_block {value : Nat} (h : collection.defineSymbol line value = .ok next) :
    next.image.block = collection.image.block := by
  unfold defineSymbol at h
  repeat' split at h
  all_goals cases h
  all_goals rfl

/-- What a line says chooses no block. -/
theorem addContent_block (h : collection.addContent line = .ok next) :
    next.image.block = collection.image.block := by
  unfold addContent at h
  split at h
  · split at h <;> cases h
    rfl
  · split at h <;> cases h
    rfl
  · next directive _ =>
      cases directive with
      | const name operand =>
          obtain ⟨_, _, h⟩ := bind_eq_ok.mp h
          split at h <;> cases h
          rfl
      | ints operands | floats operands =>
          simp only [addDirective, addWords] at h
          split at h <;> cases h
          exact block_extend ..
      | zero count =>
          simp only [addDirective, addZeros] at h
          split at h <;> cases h
          exact block_extend ..
      | text text =>
          simp only [addDirective, addText] at h
          split at h
          · split at h
            · exact (defineSymbol_block h).trans rfl
            · cases h
          · cases h
      | native hash =>
          simp only [addDirective, addNative] at h
          split at h
          · split at h
            · exact (defineSymbol_block h).trans rfl
            · cases h
          · cases h
      | _ =>
          cases h
          rfl

/-- A line keeps what is known of the words, and adds its own. -/
theorem Holds.add (h : Holds lines collection) (hNext : collection.add line = .ok next) :
    Holds (lines ++ [line]) next := by
  obtain ⟨entered, hEntered, hNext⟩ := bind_eq_ok.mp hNext
  obtain ⟨labelled, hLabelled, hNext⟩ := bind_eq_ok.mp hNext
  have hHolds := (noteLabel_ok hLabelled).holds ((enterSegment_ok hEntered).1.holds h)
  unfold addContent at hNext
  split at hNext
  · next hContent =>
      split at hNext
      · cases hNext
        exact hHolds.append_none (by simp [Line.wordSources, hContent])
      · cases hNext
  · next hContent =>
      split at hNext
      · cases hNext
      · cases hNext
        exact hHolds.append_none (by simp [Line.wordSources, hContent])
  · next directive hContent =>
      exact hHolds.addDirective (by simp [Line.wordSources, hContent]) hNext

/-- A line keeps the block of globals, and chooses the one it stands in. -/
theorem add_block (hNext : collection.add line = .ok next) :
    (∀ block, collection.image.block = some block → next.image.block = some block) ∧
      ∀ block, line.segment = .globals block → next.image.block = some block := by
  obtain ⟨entered, hEntered, hNext⟩ := bind_eq_ok.mp hNext
  obtain ⟨labelled, hLabelled, hNext⟩ := bind_eq_ok.mp hNext
  obtain ⟨hSame, hChosen⟩ := enterSegment_ok hEntered
  have hContent : ∀ block, labelled.image.block = some block →
      next.image.block = some block := fun block hBlock =>
    (addContent_block hNext).trans hBlock
  exact ⟨fun block hBlock =>
    hContent block ((noteLabel_ok hLabelled).block block (hSame.block block hBlock)),
    fun block hBlock =>
    hContent block ((noteLabel_ok hLabelled).block block (hChosen block hBlock))⟩

/-- Lines declare their words in order, one behind the other. -/
theorem Holds.addAll {rest : List Line} (h : Holds lines collection)
    (hNext : collection.addAll rest = .ok next) : Holds (lines ++ rest) next := by
  induction rest generalizing lines collection with
  | nil =>
      cases hNext
      rwa [List.append_nil]
  | cons line rest ih =>
      rw [Collection.addAll] at hNext
      split at hNext
      · cases hNext
      · next middle hMiddle =>
          rw [List.append_cons]
          exact ih (h.add hMiddle) hNext

/-- The first block that is chosen stays, and a line of another one is a fault. -/
theorem addAll_block {rest : List Line} (hNext : collection.addAll rest = .ok next) :
    (∀ block, collection.image.block = some block → next.image.block = some block) ∧
      ∀ line ∈ rest, ∀ block, line.segment = .globals block → next.image.block = some block := by
  induction rest generalizing collection with
  | nil =>
      cases hNext
      exact ⟨fun _ h => h, by simp⟩
  | cons line rest ih =>
      rw [Collection.addAll] at hNext
      split at hNext
      · cases hNext
      · next middle hMiddle =>
          obtain ⟨hKeeps, hRest⟩ := ih hNext
          obtain ⟨hOld, hOwn⟩ := add_block hMiddle
          refine ⟨fun block hBlock => hKeeps block (hOld block hBlock), ?_⟩
          rw [List.forall_mem_cons]
          exact ⟨fun block hBlock => hKeeps block (hOwn block hBlock), hRest⟩

theorem holds_empty : Holds [] empty where
  zeros := fun region => by cases region <;> rfl
  waiting := by simp [empty]
  found := by simp [wordSources]

end
end Collection

/-! Filling in -/

/-- A word that is stored at a place. -/
structure Store where
  segment : Segment
  offset : Nat
  word : Word

def DataImage.storeAll (image : DataImage) (stores : List Store) : DataImage :=
  stores.foldl (fun image store => image.store store.segment store.offset store.word) image

section Stores

variable {image : DataImage} {stores : List Store} {region : Region} {i : Nat} {word old : Word}

theorem DataImage.storeAll_append (image : DataImage) (first second : List Store) :
    image.storeAll (first ++ second) = (image.storeAll first).storeAll second :=
  List.foldl_append

/-- A store changes one word of its own region, if the region reaches that far. -/
theorem regionWords_store (image : DataImage) (segment : Segment) (offset : Nat) (word : Word)
    (region : Region) :
    (image.store segment offset word).regionWords region =
      if segment.region? = some region then (image.regionWords region).setIfInBounds offset word
      else image.regionWords region := by
  cases segment <;> cases region <;> rfl

theorem block_store (image : DataImage) (segment : Segment) (offset : Nat) (word : Word) :
    (image.store segment offset word).block = image.block := by
  cases segment <;> rfl

/-- Stores change words and add none. -/
theorem size_storeAll (image : DataImage) (stores : List Store) (region : Region) :
    ((image.storeAll stores).regionWords region).size = (image.regionWords region).size := by
  induction stores generalizing image with
  | nil => rfl
  | cons first rest ih =>
      refine (ih _).trans ?_
      rw [regionWords_store]
      split <;> simp

theorem header_store (image : DataImage) (segment : Segment) (offset : Nat) (word : Word) :
    (image.store segment offset word).name = image.name ∧
    (image.store segment offset word).hash = image.hash := by
  cases segment <;> exact ⟨rfl, rfl⟩

theorem header_storeAll (image : DataImage) (stores : List Store) :
    (image.storeAll stores).name = image.name ∧ (image.storeAll stores).hash = image.hash := by
  induction stores generalizing image with
  | nil => exact ⟨rfl, rfl⟩
  | cons first rest ih =>
      obtain ⟨hName, hHash⟩ := header_store image first.segment first.offset first.word
      exact ⟨(ih _).1.trans hName, (ih _).2.trans hHash⟩

theorem block_storeAll (image : DataImage) (stores : List Store) :
    (image.storeAll stores).block = image.block := by
  induction stores generalizing image with
  | nil => rfl
  | cons first rest ih => exact (ih _).trans (block_store ..)

/-- Where all stores to a place agree, it holds their word, or what it held if
there are none. -/
theorem getElem?_storeAll (hOld : (image.regionWords region)[i]? = some old)
    (hAgree : ∀ store ∈ stores, store.segment.region? = some region → store.offset = i →
      store.word = word) :
    ((image.storeAll stores).regionWords region)[i]? = some word ∨
      ((image.storeAll stores).regionWords region)[i]? = some old ∧
        ∀ store ∈ stores, store.segment.region? = some region → store.offset ≠ i := by
  induction stores generalizing image old with
  | nil => exact .inr ⟨hOld, by simp⟩
  | cons first rest ih =>
      rw [List.forall_mem_cons] at hAgree
      have hBound := (Array.getElem?_eq_some_iff.mp hOld).1
      by_cases hHere : first.segment.region? = some region ∧ first.offset = i
      · have hStored : ((image.store first.segment
            first.offset first.word).regionWords region)[i]? = some word := by
          rw [regionWords_store, if_pos hHere.1, hHere.2, hAgree.1 hHere.1 hHere.2]
          simp [hBound]
        rcases ih hStored hAgree.2 with hLater | ⟨hKept, _⟩
        · exact .inl hLater
        · exact .inl hKept
      · have hKeeps : ((image.store first.segment first.offset first.word).regionWords region)[i]? =
            some old := by
          rw [regionWords_store]
          split
          · next hRegion =>
              have hOther : first.offset ≠ i := fun hOffset => hHere ⟨hRegion, hOffset⟩
              rw [Array.getElem?_setIfInBounds_ne hOther]
              exact hOld
          · exact hOld
        rcases ih hKeeps hAgree.2 with hLater | ⟨hKept, hNone⟩
        · exact .inl hLater
        · refine .inr ⟨hKept, List.forall_mem_cons.mpr ⟨fun hRegion hOffset => ?_, hNone⟩⟩
          exact hHere ⟨hRegion, hOffset⟩

end Stores

section Passes

variable {symbols : Symbols} {labels : LabelTable}

/-- Stores for words that wait: each stores the word of one of them in its
place, and each of them has one. -/
structure Serves (symbols : Symbols) (labels : LabelTable) (pending : List PendingWord)
    (stores : List Store) : Prop where
  sound : ∀ store ∈ stores, ∃ waiting ∈ pending, store.segment = waiting.line.segment ∧
    store.offset = waiting.offset ∧ waiting.source.Denotes symbols labels store.word
  complete : ∀ waiting ∈ pending, ∃ store ∈ stores, store.segment = waiting.line.segment ∧
    store.offset = waiting.offset ∧ waiting.source.Denotes symbols labels store.word

/-- The words that can be filled in at once are, and the others leave references. -/
theorem fillWords_ok {pending : List PendingWord} {image filled : DataImage}
    {references found : Array CodeReference}
    (h : fillWords symbols pending image references = .ok (filled, found)) :
    ∃ (stores : List Store) (others : List CodeReference), filled = image.storeAll stores ∧
      found.toList = references.toList ++ others ∧
      (∀ store ∈ stores, ∃ waiting ∈ pending, store.segment = waiting.line.segment ∧
        store.offset = waiting.offset ∧ waiting.evaluate symbols = .ok (.word store.word)) ∧
      (∀ reference ∈ others, ∃ waiting ∈ pending, reference.segment = waiting.line.segment ∧
        reference.offset = waiting.offset ∧
        waiting.evaluate symbols = .ok (.address reference.label)) ∧
      ∀ waiting ∈ pending,
        (∃ store ∈ stores, store.segment = waiting.line.segment ∧ store.offset = waiting.offset ∧
          waiting.evaluate symbols = .ok (.word store.word)) ∨
        ∃ reference ∈ others, reference.segment = waiting.line.segment ∧
          reference.offset = waiting.offset ∧
          waiting.evaluate symbols = .ok (.address reference.label) := by
  induction pending generalizing image references with
  | nil =>
      cases h
      exact ⟨[], [], rfl, by simp, by simp, by simp, by simp⟩
  | cons first rest ih =>
      unfold fillWords at h
      dsimp only at h
      split at h
      · cases h
      · next word hWord =>
          obtain ⟨stores, others, rfl, hFound, hStores, hOthers, hAll⟩ := ih h
          refine ⟨⟨first.line.segment, first.offset, word⟩ :: stores, others, rfl,
            hFound, ?_, ?_, ?_⟩
          · refine List.forall_mem_cons.mpr ⟨⟨first, by simp, rfl, rfl, hWord⟩,
              fun store hStore => ?_⟩
            obtain ⟨waiting, hWaiting, hRest⟩ := hStores store hStore
            exact ⟨waiting, by simp [hWaiting], hRest⟩
          · intro reference hReference
            obtain ⟨waiting, hWaiting, hRest⟩ := hOthers reference hReference
            exact ⟨waiting, by simp [hWaiting], hRest⟩
          · refine List.forall_mem_cons.mpr ⟨.inl ⟨_, List.mem_cons_self .., rfl, rfl, hWord⟩,
              fun waiting hWaiting => ?_⟩
            rcases hAll waiting hWaiting with ⟨store, hStore, hRest⟩ | hReference
            · exact .inl ⟨store, by simp [hStore], hRest⟩
            · exact .inr hReference
      · next label hLabel =>
          obtain ⟨stores, others, rfl, hFound, hStores, hOthers, hAll⟩ := ih h
          refine ⟨stores, ⟨first.line.number, first.line.segment, first.offset, label⟩ :: others,
            rfl, by simp [hFound], ?_, ?_, ?_⟩
          · intro store hStore
            obtain ⟨waiting, hWaiting, hRest⟩ := hStores store hStore
            exact ⟨waiting, by simp [hWaiting], hRest⟩
          · refine List.forall_mem_cons.mpr ⟨⟨first, by simp, rfl, rfl, hLabel⟩,
              fun reference hReference => ?_⟩
            obtain ⟨waiting, hWaiting, hRest⟩ := hOthers reference hReference
            exact ⟨waiting, by simp [hWaiting], hRest⟩
          · refine List.forall_mem_cons.mpr ⟨.inr ⟨_, List.mem_cons_self .., rfl, rfl, hLabel⟩,
              fun waiting hWaiting => ?_⟩
            rcases hAll waiting hWaiting with hStore | ⟨reference, hReference, hRest⟩
            · exact .inl hStore
            · exact .inr ⟨reference, by simp [hReference], hRest⟩

/-- Every reference is filled in with the address of its label. -/
theorem resolveReferences_ok {references : List CodeReference} {image filled : DataImage}
    (h : resolveReferences labels references image = .ok filled) :
    ∃ stores : List Store, filled = image.storeAll stores ∧
      List.Forall₂ (fun reference store => store.segment = reference.segment ∧
        store.offset = reference.offset ∧ ∃ address, labels.find? reference.label = some address ∧
          store.word = Word.ofInt address) references stores := by
  induction references generalizing image with
  | nil =>
      cases h
      exact ⟨[], rfl, .nil⟩
  | cons first rest ih =>
      rw [resolveReferences] at h
      split at h
      · cases h
      · next address hAddress =>
          obtain ⟨stores, rfl, hStores⟩ := ih h
          exact ⟨⟨first.segment, first.offset, Word.ofInt address⟩ :: stores, rfl,
            .cons ⟨rfl, rfl, address, hAddress, rfl⟩ hStores⟩

/-- Both passes together serve all words that wait. -/
theorem serves_of_passes {pending : List PendingWord} {image filled final : DataImage}
    {found : Array CodeReference}
    (hFill : fillWords symbols pending image #[] = .ok (filled, found))
    (hResolve : resolveReferences labels found.toList filled = .ok final) :
    ∃ stores, final = image.storeAll stores ∧ Serves symbols labels pending stores := by
  obtain ⟨first, others, rfl, hFound, hFirst, hOthers, hAll⟩ := fillWords_ok hFill
  obtain ⟨second, rfl, hSecond⟩ := resolveReferences_ok hResolve
  rw [Array.toList_empty, List.nil_append] at hFound
  subst hFound
  refine ⟨first ++ second, (DataImage.storeAll_append ..).symm, ?_, ?_⟩
  · refine List.forall_mem_append.mpr ⟨fun store hStore => ?_, fun store hStore => ?_⟩
    · obtain ⟨waiting, hWaiting, hSegment, hOffset, hWord⟩ := hFirst store hStore
      exact ⟨waiting, hWaiting, hSegment, hOffset, .inl hWord⟩
    · obtain ⟨i, hi, rfl⟩ := List.getElem_of_mem hStore
      have hLength : i < found.toList.length := hSecond.length_eq ▸ hi
      obtain ⟨hSegment, hOffset, address, hAddress, hWord⟩ := hSecond.get hLength hi
      obtain ⟨waiting, hWaiting, hSame, hPlace, hLabel⟩ :=
        hOthers _ (List.getElem_mem hLength)
      exact ⟨waiting, hWaiting, hSegment.trans hSame, hOffset.trans hPlace,
        .inr ⟨_, address, hLabel, hAddress, hWord⟩⟩
  · intro waiting hWaiting
    rcases hAll waiting hWaiting with ⟨store, hStore, hSegment, hOffset, hWord⟩ |
      ⟨reference, hReference, hSegment, hOffset, hLabel⟩
    · exact ⟨store, List.mem_append_left _ hStore, hSegment, hOffset, .inl hWord⟩
    · obtain ⟨i, hi, rfl⟩ := List.getElem_of_mem hReference
      have hLength : i < second.length := hSecond.length_eq ▸ hi
      obtain ⟨hSame, hPlace, address, hAddress, hWord⟩ := hSecond.get hi hLength
      exact ⟨second[i], List.mem_append_right _ (List.getElem_mem hLength), hSame.trans hSegment,
        hPlace.trans hOffset, .inr ⟨_, address, hLabel, hAddress, hWord⟩⟩

/-- Where stores serve the words that wait, each place gets the word that its
source denotes. -/
theorem Collection.Holds.served {collection : Collection} {lines : List Line} {stores : List Store}
    (hHolds : Holds lines collection)
    (hServes : Serves symbols labels collection.pending.toList stores)
    {region : Region} {i : Nat} {found : Option WordSource}
    (hFound : (wordSources region lines)[i]? = some found) :
    ∃ word, ((collection.image.storeAll stores).regionWords region)[i]? = some word ∧
      WordDenotes symbols labels found word := by
  have hBound := (List.getElem?_eq_some_iff.mp hFound).1
  have hOld : (collection.image.regionWords region)[i]? = some Word.zero := by
    rw [hHolds.zeros, Array.getElem?_replicate, if_pos hBound]
  -- a store to the place comes from a word that waits there, so from the source of the place
  have hSource : ∀ store ∈ stores, store.segment.region? = some region → store.offset = i →
      ∃ source, found = some source ∧ source.Denotes symbols labels store.word := by
    intro store hStore hRegion hOffset
    obtain ⟨waiting, hWaiting, hSegment, hPlace, hDenotes⟩ := hServes.sound store hStore
    obtain ⟨other, hOther, hSame⟩ := hHolds.waiting waiting (Array.mem_toList_iff.mp hWaiting)
    rw [hSegment, hOther, Option.some.injEq] at hRegion
    rw [hRegion, ← hPlace, hOffset, hFound, Option.some.injEq] at hSame
    exact ⟨waiting.source, hSame, hDenotes⟩
  cases found with
  | none =>
      refine ⟨Word.zero, ?_, rfl⟩
      have hNone : ∀ store ∈ stores, store.segment.region? = some region → store.offset = i →
          store.word = Word.zero := by
        intro store hStore hRegion hOffset
        obtain ⟨_, hSame, _⟩ := hSource store hStore hRegion hOffset
        cases hSame
      rcases getElem?_storeAll hOld hNone with hZero | ⟨hZero, _⟩
      · exact hZero
      · exact hZero
  | some source =>
      obtain ⟨waiting, hWaiting, hRegion, hOffset, hSame⟩ := hHolds.found region i source hFound
      obtain ⟨store, hStore, hSegment, hPlace, hDenotes⟩ :=
        hServes.complete waiting (Array.mem_toList_iff.mpr hWaiting)
      rw [hSame] at hDenotes
      have hAgree : ∀ other ∈ stores, other.segment.region? = some region → other.offset = i →
          other.word = store.word := by
        intro other hOther hOtherRegion hOtherOffset
        obtain ⟨_, hFoundSame, hOtherDenotes⟩ := hSource other hOther hOtherRegion hOtherOffset
        cases hFoundSame
        exact hOtherDenotes.unique hDenotes
      rcases getElem?_storeAll hOld hAgree with hWord | ⟨_, hNone⟩
      · exact ⟨store.word, hWord, hDenotes⟩
      · exact absurd (hPlace.trans hOffset) (hNone store hStore (hSegment ▸ hRegion))

end Passes

/-- Words at the places of sources, in order. -/
theorem forall₂_wordDenotes {symbols : Symbols} {labels : LabelTable}
    {sources : List (Option WordSource)} {words : Array Word} (hSize : words.size = sources.length)
    (h : ∀ (i : Nat) (source : Option WordSource), sources[i]? = some source →
      ∃ word, words[i]? = some word ∧ WordDenotes symbols labels source word) :
    List.Forall₂ (WordDenotes symbols labels) sources words.toList := by
  refine List.forall₂_iff_get.mpr ⟨hSize.symm, fun i hi hWord => ?_⟩
  obtain ⟨word, hFound, hDenotes⟩ := h i _ (List.getElem?_eq_getElem hi)
  have hStored : words.toList.get ⟨i, hWord⟩ = word := by
    rw [Array.getElem?_eq_some_iff] at hFound
    obtain ⟨_, hWord⟩ := hFound
    simpa using hWord
  rw [hStored]
  exact hDenotes

section Passes

variable {symbols : Symbols} {labels : LabelTable}

/-- Filling in the words succeeds when each word that waits can be evaluated. -/
theorem fillWords_succeeds {pending : List PendingWord}
    (h : ∀ waiting ∈ pending, ∃ value, waiting.evaluate symbols = .ok value) (image : DataImage)
    (references : Array CodeReference) :
    ∃ filled found, fillWords symbols pending image references = .ok (filled, found) := by
  induction pending generalizing image references with
  | nil => exact ⟨image, references, rfl⟩
  | cons waiting rest ih =>
      rw [List.forall_mem_cons] at h
      obtain ⟨value, hValue⟩ := h.1
      rw [fillWords, hValue]
      cases value with
      | word word => exact ih h.2 _ _
      | address label => exact ih h.2 _ _

/-- Resolving references succeeds when each label is one of the code. -/
theorem resolveReferences_succeeds {references : List CodeReference}
    (h : ∀ reference ∈ references, ∃ address, labels.find? reference.label = some address)
    (image : DataImage) :
    ∃ final, resolveReferences labels references image = .ok final := by
  induction references generalizing image with
  | nil => exact ⟨image, rfl⟩
  | cons reference rest ih =>
      rw [List.forall_mem_cons] at h
      obtain ⟨address, hAddress⟩ := h.1
      rw [resolveReferences, hAddress]
      exact ih h.2 _

/-- Where every source denotes a word, both passes succeed, and each region gets
these words. -/
theorem Collection.Holds.fills {lines : List Line} {collection : Collection}
    (hHolds : Holds lines collection) {words : Region → List Word}
    (hWords : ∀ region, List.Forall₂ (WordDenotes symbols labels)
      (wordSources region lines) (words region)) :
    ∃ filled references final,
      fillWords symbols collection.pending.toList collection.image #[] = .ok (filled, references) ∧
      resolveReferences labels references.toList filled = .ok final ∧
      (∀ region, (final.regionWords region).toList = words region) ∧
      final.name = collection.image.name ∧ final.hash = collection.image.hash ∧
      final.block = collection.image.block := by
  have hDenotes : ∀ waiting ∈ collection.pending.toList, ∃ word,
      waiting.source.Denotes symbols labels word := by
    intro waiting hWaiting
    obtain ⟨region, _, hSource⟩ := hHolds.waiting waiting (Array.mem_toList_iff.mp hWaiting)
    obtain ⟨hi, hGet⟩ := List.getElem?_eq_some_iff.mp hSource
    have hWord := (hWords region).get hi ((hWords region).length_eq ▸ hi)
    rw [List.get_eq_getElem, hGet] at hWord
    exact ⟨_, hWord⟩
  have hValues : ∀ waiting ∈ collection.pending.toList, ∃ value,
      waiting.evaluate symbols = .ok value := by
    intro waiting hWaiting
    obtain ⟨word, hWord | ⟨label, _, hLabel, _⟩⟩ := hDenotes waiting hWaiting
    · exact ⟨_, hWord⟩
    · exact ⟨_, hLabel⟩
  obtain ⟨filled, references, hFilled⟩ := fillWords_succeeds hValues collection.image #[]
  obtain ⟨_, found, _, hFound, _, hReferences, _⟩ := fillWords_ok hFilled
  rw [Array.toList_empty, List.nil_append] at hFound
  have hAddresses : ∀ reference ∈ references.toList, ∃ address, labels.find? reference.label =
      some address := by
    intro reference hReference
    obtain ⟨waiting, hWaiting, _, _, hLabel⟩ := hReferences reference (hFound ▸ hReference)
    obtain ⟨word, hWord | ⟨label, address, hSame, hAddress, _⟩⟩ := hDenotes waiting hWaiting
    · cases hLabel.symm.trans hWord
    · cases hLabel.symm.trans hSame
      exact ⟨address, hAddress⟩
  obtain ⟨final, hFinal⟩ := resolveReferences_succeeds hAddresses filled
  obtain ⟨stores, rfl, hServes⟩ := serves_of_passes hFilled hFinal
  obtain ⟨hName, hHash⟩ := header_storeAll collection.image stores
  refine ⟨filled, references, _, hFilled, hFinal, fun region => ?_, hName, hHash, block_storeAll ..⟩
  have hSize : ((collection.image.storeAll stores).regionWords region).size =
      (wordSources region lines).length := by
    rw [size_storeAll, hHolds.zeros, Array.size_replicate]
  have hServed := forall₂_wordDenotes hSize fun _ _ hFound => hHolds.served hServes hFound
  exact List.right_unique_forall₂' (rightUnique_wordDenotes symbols labels) hServed (hWords region)

end Passes

section Units

variable {source : NativeSource} {options : Options} {statements : List Statement} {script : Script}

/-- What is known of the data of an assembled unit. -/
structure HoldsData (symbols : Symbols) (labels : LabelTable) (lines : List Line)
    (image : DataImage) : Prop where
  sizes : ∀ region, (image.regionWords region).size = (wordSources region lines).length
  words : ∀ (region : Region) (i : Nat) (source : Option WordSource),
    (wordSources region lines)[i]? = some source →
    ∃ word, (image.regionWords region)[i]? = some word ∧ WordDenotes symbols labels source word
  block : ∀ line ∈ lines, ∀ block, line.segment = .globals block → image.block = some block
  staticsFit : image.statics.size + image.arguments.size ≤ staticLimit
  globalsFit : image.globals.size ≤ globalsLimit

/-- What passes the check has its statics, arguments and globals within their
limits. -/
theorem Collection.checkCapacity_ok {image : DataImage} (h : checkCapacity image = .ok ()) :
    image.statics.size + image.arguments.size ≤ staticLimit ∧
    image.globals.size ≤ globalsLimit := by
  unfold checkCapacity at h
  dsimp only at h
  split at h
  · cases h
  · next hStatics =>
      split at h
      · cases h
      · next hGlobals => exact ⟨Nat.not_lt.mp hStatics, Nat.not_lt.mp hGlobals⟩

/-- Data within the limits passes the check. -/
theorem Collection.checkCapacity_of_fits {image : DataImage}
    (hStatics : image.statics.size + image.arguments.size ≤ staticLimit)
    (hGlobals : image.globals.size ≤ globalsLimit) :
    checkCapacity image = .ok () := by
  rw [checkCapacity, if_neg (Nat.not_lt.mpr hStatics), if_neg (Nat.not_lt.mpr hGlobals)]

/-- The image of an assembled unit holds the words that its lines ask for, in
their order. -/
theorem Assembled.holdsData (unit : Assembled source options statements script) :
    HoldsData unit.data.symbols unit.layout.labels (scopeLines statements) unit.image := by
  obtain ⟨collected, hCollected, hRest⟩ := bind_eq_ok.mp unit.collected
  obtain ⟨_, hCapacity, hRest⟩ := bind_eq_ok.mp hRest
  obtain ⟨⟨filled, references⟩, hFill, hRest⟩ := bind_eq_ok.mp hRest
  have hData := (Except.ok.inj hRest).symm
  have hResolve := unit.resolved
  rw [hData] at hResolve ⊢
  dsimp only at hFill hResolve ⊢
  obtain ⟨symbols, hSymbols⟩ : ∃ symbols, symbols =
      { collected.symbols with
        data := Collection.defineLabels collected.image collected.labels.toList
          collected.symbols.data } := ⟨_, rfl⟩
  rw [← hSymbols] at hFill ⊢
  obtain ⟨stores, hImage, hServes⟩ := serves_of_passes hFill hResolve
  have hHolds := Collection.holds_empty.addAll hCollected
  rw [List.nil_append] at hHolds
  obtain ⟨hStatics, hGlobals⟩ := Collection.checkCapacity_ok hCapacity
  rw [hImage]
  refine ⟨fun region => ?_, fun region i found hFound => ?_,
    fun line hLine block hBlock => ?_, ?_, ?_⟩
  · rw [size_storeAll, hHolds.zeros, Array.size_replicate]
  · exact hHolds.served hServes hFound
  · rw [block_storeAll]
    exact (Collection.addAll_block hCollected).2 line hLine block hBlock
  · have hFirst : (collected.image.storeAll stores).statics.size = collected.image.statics.size :=
      size_storeAll _ _ .statics
    have hSecond :
        (collected.image.storeAll stores).arguments.size = collected.image.arguments.size :=
      size_storeAll _ _ .arguments
    omega
  · have hSize : (collected.image.storeAll stores).globals.size = collected.image.globals.size :=
      size_storeAll _ _ .globals
    omega

/-- In order, the words of a region are those that the lines ask for. -/
theorem HoldsData.denote {symbols : Symbols} {labels : LabelTable} {lines : List Line}
    {image : DataImage} (h : HoldsData symbols labels lines image) (region : Region) :
    List.Forall₂ (WordDenotes symbols labels) (wordSources region lines)
      (image.regionWords region).toList :=
  forall₂_wordDenotes (h.sizes region) (h.words region)

end Units
end ScriptBackend.Assembly
