import ScriptBackend.Assembly.Unit
import ScriptBackend.Proofs.Assembly.Emission
import ScriptBackend.Proofs.Assembly.Limits

/-!
Units that link. When every line suits its segment, no label and no native comes
twice, and every name is the label of code or of an included native, only limits
can keep the unit from being assembled: each pass either meets one or leaves
what the next pass needs.
-/
namespace ScriptBackend.Assembly

open Outcome

/-- The computation ends in a value with a property, or meets a limit. -/
def Limited {α : Type} (post : α → Prop) (outcome : Except Fault α) : Prop :=
  match outcome with
  | .ok value => post value
  | .error fault => fault.cause.isLimit = true

namespace Limited

variable {α β : Type} {post : α → Prop} {final : β → Prop}

theorem ofOnlyLimits {outcome : Except Fault α} (h : OnlyLimits outcome)
    (hPost : ∀ value, outcome = .ok value → post value) : Limited post outcome := by
  cases outcome with
  | ok value => exact hPost value rfl
  | error fault => exact Bool.eq_true_of_not_eq_false ((never_error fault).mp h)

/-- A computation whose faults are limits goes on with one whose faults are
limits, given what the first one ensures. -/
theorem bind {first : Except Fault α} {next : α → Except Fault β} (h : Limited post first)
    (hNext : ∀ value, post value → Limited final (next value)) :
    Limited final (first >>= next) := by
  cases first with
  | ok value => exact hNext value h
  | error fault => exact h

theorem mono {other : α → Prop} {outcome : Except Fault α} (h : Limited post outcome)
    (hOther : ∀ value, post value → other value) : Limited other outcome := by
  cases outcome with
  | ok value => exact hOther value h
  | error fault => exact h

theorem of_eq_ok {outcome : Except Fault α} {value : α} (h : Limited post outcome)
    (hValue : outcome = .ok value) : post value := by
  subst hValue
  exact h

end Limited

/-! Lines -/

/-- What the names on a line stand for, when the full names of labels and
natives are given. -/
def Line.names (labels natives : String → Prop) (line : Line) : Names :=
  ⟨fun name => labels (line.qualify name), fun name => natives (line.qualify name)⟩

/-- A line that the assembler can take: instructions and labels in the code,
words with operands that become words, natives among the natives. -/
inductive Line.Suits (labels natives : String → Prop) (line : Line) : Prop where
  | label (content : line.statement.content = .empty) (code : line.segment = .code)
  | instruction {mnemonic : String} {operands : List Operand}
      (content : line.statement.content = .instruction mnemonic operands)
        (code : line.segment = .code)
      (suited : Suited (line.names labels natives) mnemonic operands)
  | segment {segment : Segment} (content : line.statement.content = .directive (.segment segment))
      (unlabelled : line.label = none)
  | scriptName {name : String} (content : line.statement.content = .directive (.scriptName name))
      (unlabelled : line.label = none)
  | scriptHash {hash : UInt32} (content : line.statement.content = .directive (.scriptHash hash))
      (unlabelled : line.label = none)
  | ints {operands : List Operand} (content : line.statement.content = .directive (.ints operands))
      (words : line.segment.holdsWords = true) (unlabelled : line.label = none)
      (values : ∀ operand ∈ operands, (∃ value, operand = .int value) ∨
        ∃ name, operand = .name name ∧ labels (line.qualify name))
  | floats {operands : List Operand}
      (content : line.statement.content = .directive (.floats operands))
      (words : line.segment.holdsWords = true) (unlabelled : line.label = none)
      (values : ∀ operand ∈ operands, ∃ value, operand = .float value)
  | zero {count : UInt32} (content : line.statement.content = .directive (.zero count))
      (words : line.segment.holdsWords = true) (unlabelled : line.label = none)
  | native {hash : UInt64} (content : line.statement.content = .directive (.native hash))
      (natives : line.segment = .natives)

theorem Line.Suits.suited {labels natives : String → Prop} {line : Line}
    (h : line.Suits labels natives) {mnemonic : String} {operands : List Operand}
    (hInstruction : line.instruction? = some (mnemonic, operands)) :
    Suited (line.names labels natives) mnemonic operands := by
  obtain ⟨hContent, _⟩ := Line.instruction?_eq_some_iff.mp hInstruction
  cases h with
  | instruction content code suited =>
      rw [hContent] at content
      cases content
      exact suited
  | _ => simp_all

def Line.native? (line : Line) : Option UInt64 :=
  match line.statement.content with
  | .directive (.native hash) => some hash
  | _ => none

/-- The hashes of the natives that lines include. -/
def nativeHashes (lines : List Line) : List UInt64 :=
  lines.filterMap Line.native?

def Line.nativeLabel? (line : Line) : Option String :=
  if line.native?.isSome then line.label else none

def nativeLabels (lines : List Line) : List String :=
  lines.filterMap Line.nativeLabel?

def Line.codeLabel? (line : Line) : Option String :=
  if line.segment = .code then line.label else none

/-- The labels of code. -/
def codeLabels (lines : List Line) : List String :=
  lines.filterMap Line.codeLabel?

@[simp] theorem codeLabels_append (first second : List Line) :
    codeLabels (first ++ second) = codeLabels first ++ codeLabels second :=
  List.filterMap_append

/-- A unit that only a limit can keep from being assembled. -/
structure Linkable (lines : List Line) : Prop where
  suits : ∀ line ∈ lines, line.Suits (· ∈ codeLabels lines) (· ∈ nativeLabels lines)
  block : ∀ first ∈ lines, ∀ second ∈ lines, ∀ block other, first.segment = .globals block →
    second.segment = .globals other → block = other
  hashes : (nativeHashes lines).Nodup
  natives : (nativeLabels lines).Nodup
  labels : (codeLabels lines).Nodup
  apart : ∀ label ∈ codeLabels lines, label ∉ nativeLabels lines

/-! Collecting the data -/

/-- A pending word whose operand becomes a word. -/
def PendingWord.Fillable (labels : String → Prop) (pending : PendingWord) : Prop :=
  match pending.kind, pending.operand with
  | .int, .int _ | .float, .float _ => True
  | .int, .name name => labels (pending.line.qualify name)
  | _, _ => False

namespace Collection

/-- What is known when lines have been collected: the only symbols are natives,
and every word that waits can be filled in. -/
structure Sound (labels : String → Prop) (lines : List Line) (collection : Collection) : Prop where
  constants : collection.symbols.constants = ∅
  natives : ∀ name symbol, collection.symbols.data[name]? = some symbol →
    name ∈ nativeLabels lines ∧ symbol.segment = .natives
  defined : ∀ name ∈ nativeLabels lines, ∃ symbol, collection.symbols.data[name]? = some symbol
  hashes : ∀ hash, (collection.natives.index? hash).isSome → hash ∈ nativeHashes lines
  unlabelled : collection.labels = #[]
  pending : ∀ pending ∈ collection.pending, pending.Fillable labels
  block : ∀ block, collection.image.block = some block → ∃ line ∈ lines,
    line.segment = .globals block

theorem sound_empty (labels : String → Prop) : Sound labels [] empty where
  constants := rfl
  natives := by simp [empty, Symbols.empty]
  defined := by simp [nativeLabels]
  hashes := by simp [empty, NativeTable.empty, NativeTable.index?, Table.position?, Table.empty]
  unlabelled := rfl
  pending := by simp [empty]
  block := by simp [empty, DataImage.empty]

section Lines

variable {labels natives : String → Prop} {lines : List Line} {line : Line}
  {collection : Collection}

@[simp] theorem nativeHashes_append (first second : List Line) :
    nativeHashes (first ++ second) = nativeHashes first ++ nativeHashes second :=
  List.filterMap_append

@[simp] theorem nativeLabels_append (first second : List Line) :
    nativeLabels (first ++ second) = nativeLabels first ++ nativeLabels second :=
  List.filterMap_append

/-- Choosing the block is the only thing that beginning a line does. -/
theorem Sound.enterSegment (h : Sound labels lines collection) (hOther : line.native? = none)
    (hBlock : ∀ first ∈ lines, ∀ block other, first.segment = .globals block →
      line.segment = .globals other → block = other) :
    Limited (Sound labels (lines ++ [line])) (collection.enterSegment line) := by
  have hLabels : nativeLabels (lines ++ [line]) = nativeLabels lines := by
    simp [nativeLabels, Line.nativeLabel?, hOther]
  have hHashes : nativeHashes (lines ++ [line]) = nativeHashes lines := by
    simp [nativeHashes, hOther]
  have hLonger : Sound labels (lines ++ [line]) collection :=
    { h with
      natives := by rw [hLabels]; exact h.natives
      defined := by rw [hLabels]; exact h.defined
      hashes := by rw [hHashes]; exact h.hashes
      block := fun block hChosen => by
        obtain ⟨first, hFirst, hSegment⟩ := h.block block hChosen
        exact ⟨first, by simp [hFirst], hSegment⟩ }
  unfold Collection.enterSegment
  split
  · next block hSegment =>
      split
      · rfl
      · split
        · next existing hExisting =>
            obtain ⟨first, hFirst, hGlobals⟩ := h.block existing hExisting
            rw [if_pos (hBlock first hFirst existing block hGlobals hSegment)]
            exact hLonger
        · refine { hLonger with block := fun chosen hChosen => ?_ }
          cases hChosen
          exact ⟨line, by simp, hSegment⟩
  · exact hLonger

theorem noteLabel_of_unlabelled (h : line.label = none) :
    collection.noteLabel line = .ok collection := by
  unfold noteLabel
  rw [h]

theorem noteLabel_of_plain (h : line.segment.holdsWords = false) :
    collection.noteLabel line = .ok collection := by
  unfold noteLabel
  split
  · rfl
  · simp [h]

/-- Words that can be filled in may be added. -/
theorem Sound.addWords {kind : WordKind} {operands : List Operand}
    (h : Sound labels lines collection) (hWords : line.segment.holdsWords = true)
    (hValues : ∀ operand ∈ operands, ∀ offset, PendingWord.Fillable labels ⟨line,
      offset, kind, operand⟩) :
    Limited (Sound labels lines) (collection.addWords line kind operands) := by
  have hBlock : (collection.image.extend line.segment operands.length).block =
      collection.image.block := by
    unfold DataImage.extend DataImage.mapWords
    split <;> rfl
  unfold Collection.addWords
  rw [if_pos hWords]
  refine { h with pending := fun pending hPending => ?_, block := fun block hChosen => ?_ }
  · rw [← Array.mem_toList_iff, Array.toList_appendList, List.mem_append,
      Array.mem_toList_iff] at hPending
    rcases hPending with hOld | hNew
    · exact h.pending pending hOld
    · obtain ⟨i, hi, rfl⟩ := List.mem_mapIdx.mp hNew
      exact hValues _ (List.getElem_mem hi) _
  · exact h.block block (hBlock ▸ hChosen)

/-- Zero words leave everything that is known of the data as it is, or reach a
limit. -/
theorem Sound.addZeros (h : Sound labels lines collection) (hWords : line.segment.holdsWords = true)
    (count : Nat) : Limited (Sound labels lines) (collection.addZeros line count) := by
  have hBlock : (collection.image.extend line.segment count).block = collection.image.block := by
    unfold DataImage.extend DataImage.mapWords
    split <;> rfl
  unfold Collection.addZeros
  rw [if_pos hWords]
  exact { h with block := fun block hChosen => h.block block (hBlock ▸ hChosen) }

/-- Only natives are known by name before the words are counted. -/
theorem Sound.contains_eq_false (h : Sound labels lines collection) {label : String}
    (hLabel : label ∉ nativeLabels lines) : collection.symbols.contains label = false := by
  have hData : collection.symbols.data.contains label = false := by
    rw [Std.TreeMap.contains_eq_isSome_getElem?]
    cases hSymbol : collection.symbols.data[label]? with
    | none => rfl
    | some symbol => exact absurd (h.natives label symbol hSymbol).1 hLabel
  rw [Symbols.contains, hData, h.constants]
  simp

/-- A native that is not included yet may be, under a label that is not defined
yet. -/
theorem Sound.addNative {hash : UInt64} (h : Sound labels lines collection)
    (hContent : line.statement.content = .directive (.native hash))
    (hSegment : line.segment = .natives) (hHash : hash ∉ nativeHashes lines)
    (hLabel : ∀ label, line.label = some label → label ∉ nativeLabels lines) :
    Limited (Sound labels (lines ++ [line])) (collection.addNative line hash) := by
  have hNative : line.native? = some hash := by rw [Line.native?, hContent]
  have hHashes : nativeHashes (lines ++ [line]) = nativeHashes lines ++ [hash] := by
    simp [nativeHashes, hNative]
  have hLabels : nativeLabels (lines ++ [line]) = nativeLabels lines ++ line.label.toList := by
    cases hLine : line.label <;> simp [nativeLabels, Line.nativeLabel?, hNative, hLine]
  have hFresh : collection.natives.index? hash = none := by
    cases hIndex : collection.natives.index? hash with
    | none => rfl
    | some index => exact absurd (h.hashes hash (by simp [hIndex])) hHash
  have hBlocks : ∀ block, collection.image.block = some block →
      ∃ first ∈ lines ++ [line], first.segment = .globals block := by
    intro block hChosen
    obtain ⟨first, hFirst, hGlobals⟩ := h.block block hChosen
    exact ⟨first, by simp [hFirst], hGlobals⟩
  unfold Collection.addNative
  rw [if_pos hSegment, NativeTable.add, hFresh]
  dsimp only
  cases hAppend : collection.natives.append hash with
  | mk outcome next =>
      cases outcome with
      | error fault =>
          obtain rfl := NativeTable.append_error hAppend
          rfl
      | ok index =>
          have hNext : ∀ other, (next.index? other).isSome →
              other ∈ nativeHashes (lines ++ [line]) := by
            intro other hOther
            rw [hHashes]
            rcases NativeTable.index?_append hAppend other hOther with hOld | rfl
            · exact List.mem_append_left _ (h.hashes other hOld)
            · simp
          dsimp only
          unfold defineSymbol
          cases hLine : line.label with
          | none =>
              rw [hLine, Option.toList_none, List.append_nil] at hLabels
              exact { h with
                natives := by rw [hLabels]; exact h.natives
                defined := by rw [hLabels]; exact h.defined
                hashes := hNext
                block := hBlocks }
          | some label =>
              have hUnknown := h.contains_eq_false (hLabel label hLine)
              rw [hLine, Option.toList_some] at hLabels
              simp only [hUnknown, Bool.false_eq_true, if_false]
              refine { h with
                natives := fun name symbol hSymbol => ?_
                defined := fun name hName => ?_
                hashes := hNext
                block := hBlocks }
              · rw [Std.TreeMap.getElem?_insert] at hSymbol
                rw [hLabels, List.mem_append]
                split at hSymbol
                · next hSame =>
                    cases hSymbol
                    exact ⟨.inr (by simpa using (Std.compare_eq_iff_eq.mp hSame).symm), hSegment⟩
                · obtain ⟨hOld, hNatives⟩ := h.natives name symbol hSymbol
                  exact ⟨.inl hOld, hNatives⟩
              · rw [Std.TreeMap.getElem?_insert]
                split
                · exact ⟨_, rfl⟩
                · next hOther =>
                    rw [hLabels, List.mem_append, List.mem_singleton] at hName
                    rcases hName with hOld | rfl
                    · exact h.defined name hOld
                    · simp at hOther

/-- What a line without a native says is taken once its segment is entered. -/
theorem Sound.addOther (h : Sound labels lines collection) (hOther : line.native? = none)
    (hBlock : ∀ first ∈ lines, ∀ block other, first.segment = .globals block →
      line.segment = .globals other → block = other)
    (hNote : ∀ entered : Collection, entered.noteLabel line = .ok entered)
    (hContent : ∀ entered, Sound labels (lines ++ [line]) entered →
      Limited (Sound labels (lines ++ [line])) (entered.addContent line)) :
    Limited (Sound labels (lines ++ [line])) (collection.add line) := by
  refine (h.enterSegment hOther hBlock).bind fun entered hEntered => ?_
  rw [hNote]
  exact hContent entered hEntered

/-- A line that suits can be taken, unless a limit is met. -/
theorem Sound.add (h : Sound labels lines collection) (hSuits : line.Suits labels natives)
    (hBlock : ∀ first ∈ lines, ∀ block other, first.segment = .globals block →
      line.segment = .globals other → block = other)
    (hHash : ∀ hash, line.native? = some hash → hash ∉ nativeHashes lines)
    (hLabel : ∀ label, line.nativeLabel? = some label → label ∉ nativeLabels lines) :
    Limited (Sound labels (lines ++ [line])) (collection.add line) := by
  cases hSuits with
  | @native hash content segment =>
      have hNative : line.native? = some hash := by rw [Line.native?, content]
      unfold Collection.add
      rw [Collection.enterSegment, segment]
      show Limited _ (collection.noteLabel line >>= _)
      rw [noteLabel_of_plain (by rw [segment]; rfl)]
      show Limited _ (collection.addContent line)
      rw [Collection.addContent, content]
      refine h.addNative content segment (hHash hash hNative) fun label hLine => hLabel label ?_
      rw [Line.nativeLabel?, hNative, Option.isSome_some, if_pos rfl, hLine]
  | label content code =>
      refine h.addOther (by rw [Line.native?, content]) hBlock
        (fun _ => noteLabel_of_plain (by rw [code]; rfl)) fun entered hEntered => ?_
      simp only [Collection.addContent, content, code]
      rw [if_neg (by simp)]
      exact hEntered
  | instruction content code suited =>
      refine h.addOther (by rw [Line.native?, content]) hBlock
        (fun _ => noteLabel_of_plain (by rw [code]; rfl)) fun entered hEntered => ?_
      simp only [Collection.addContent, content, code]
      exact hEntered
  | segment content unlabelled =>
      refine h.addOther (by rw [Line.native?, content]) hBlock
        (fun _ => noteLabel_of_unlabelled unlabelled) fun entered hEntered => ?_
      rw [Collection.addContent, content]
      exact hEntered
  | scriptName content unlabelled =>
      refine h.addOther (by rw [Line.native?, content]) hBlock
        (fun _ => noteLabel_of_unlabelled unlabelled) fun entered hEntered => ?_
      rw [Collection.addContent, content]
      exact { hEntered with }
  | scriptHash content unlabelled =>
      refine h.addOther (by rw [Line.native?, content]) hBlock
        (fun _ => noteLabel_of_unlabelled unlabelled) fun entered hEntered => ?_
      rw [Collection.addContent, content]
      exact { hEntered with }
  | ints content words unlabelled values =>
      refine h.addOther (by rw [Line.native?, content]) hBlock
        (fun _ => noteLabel_of_unlabelled unlabelled) fun entered hEntered => ?_
      rw [Collection.addContent, content]
      refine hEntered.addWords words fun operand hOperand offset => ?_
      rcases values operand hOperand with ⟨value, rfl⟩ | ⟨name, rfl, hName⟩
      · trivial
      · exact hName
  | floats content words unlabelled values =>
      refine h.addOther (by rw [Line.native?, content]) hBlock
        (fun _ => noteLabel_of_unlabelled unlabelled) fun entered hEntered => ?_
      rw [Collection.addContent, content]
      refine hEntered.addWords words fun operand hOperand offset => ?_
      obtain ⟨value, rfl⟩ := values operand hOperand
      trivial
  | zero content words unlabelled =>
      refine h.addOther (by rw [Line.native?, content]) hBlock
        (fun _ => noteLabel_of_unlabelled unlabelled) fun entered hEntered => ?_
      rw [Collection.addContent, content]
      exact hEntered.addZeros words _

/-- The lines of a linkable unit can be taken one after the other. -/
theorem Sound.addAll {all rest : List Line} (hAll : Linkable all) (hRest : all = lines ++ rest)
    (h : Sound (· ∈ codeLabels all) lines collection) :
    Limited (Sound (· ∈ codeLabels all) all) (collection.addAll rest) := by
  induction rest generalizing lines collection with
  | nil =>
      rw [List.append_nil] at hRest
      exact hRest ▸ h
  | cons line rest ih =>
      have hMem : line ∈ all := by simp [hRest]
      have hAdd : Limited (Sound (· ∈ codeLabels all) (lines ++ [line])) (collection.add line) := by
        refine h.add (hAll.suits line hMem) ?_ ?_ ?_
        · intro first hFirst
          exact hAll.block first (by simp [hRest, hFirst]) line hMem
        · intro hash hNative hOld
          have hHashes := hAll.hashes
          rw [hRest, nativeHashes_append, List.nodup_append] at hHashes
          exact hHashes.2.2 hash hOld hash (by simp [nativeHashes, hNative]) rfl
        · intro label hNative hOld
          have hLabels := hAll.natives
          rw [hRest, nativeLabels_append, List.nodup_append] at hLabels
          exact hLabels.2.2 label hOld label (by simp [nativeLabels, hNative]) rfl
      rw [Collection.addAll]
      cases hNext : collection.add line with
      | error fault =>
          rw [hNext] at hAdd
          exact hAdd
      | ok next =>
          rw [hNext] at hAdd
          exact ih (by simp [hRest]) hAdd

end Lines
end Collection

section Data

variable {labels : String → Prop} {symbols : Symbols}

theorem PendingWord.Fillable.evaluate {pending : PendingWord} (h : pending.Fillable labels)
    (hUnknown : ∀ name, labels name → symbols.contains name = false) :
    Limited (fun value => ∀ label, value = .address label → labels label)
      (pending.evaluate symbols) := by
  obtain ⟨line, offset, kind, operand⟩ := pending
  unfold Fillable at h
  unfold PendingWord.evaluate
  dsimp only at h ⊢
  split at h
  · show Limited _ (if _ then _ else _)
    split
    · rfl
    · intro label hLabel
      cases hLabel
  · intro label hLabel
    cases hLabel
  · next name =>
      simp only [reduceCtorEq, if_false, Symbols.intOperand,
        Symbols.value?_of_contains (hUnknown _ h)]
      intro label hLabel
      cases hLabel
      exact h
  · exact h.elim

/-- Words are filled in without a fault but a limit, and the labels that remain
are those of the code. -/
theorem limited_fillWords (hUnknown : ∀ name, labels name → symbols.contains name = false)
    {pending : List PendingWord} (h : ∀ word ∈ pending, word.Fillable labels) (image : DataImage)
    (references : Array CodeReference) :
    Limited (fun filled => ∀ reference ∈ filled.2,
        reference ∈ references ∨ labels reference.label)
      (fillWords symbols pending image references) := by
  induction pending generalizing image references with
  | nil => exact fun reference hReference => .inl hReference
  | cons word rest ih =>
      have hEvaluate := (h word (by simp)).evaluate hUnknown
      have hRest := ih fun other hOther => h other (by simp [hOther])
      unfold fillWords
      dsimp only
      split
      · next hFault =>
          rw [hFault] at hEvaluate
          exact hEvaluate
      · exact hRest _ references
      · next label hAddress =>
          refine (hRest image _).mono fun filled hFilled reference hReference => ?_
          rcases hFilled reference hReference with hOld | hLabel
          · rcases Array.mem_push.mp hOld with hOlder | rfl
            · exact .inl hOlder
            · exact .inr (hEvaluate.of_eq_ok hAddress label rfl)
          · exact .inr hLabel

/-- What the passes behind the data need of it. -/
structure DataUnit.Sound (lines : List Line) (data : DataUnit) : Prop where
  unknown : ∀ name, name ∉ nativeLabels lines → data.symbols.contains name = false
  natives : ∀ name ∈ nativeLabels lines, ∃ symbol,
    data.symbols.data[name]? = some symbol ∧ symbol.segment = .natives
  references : ∀ reference ∈ data.references, reference.label ∈ codeLabels lines

/-- The data of such a unit is collected without a fault but a limit. -/
theorem Linkable.collectData {lines : List Line} (h : Linkable lines) :
    Limited (DataUnit.Sound lines) (collectData lines) := by
  have hAll := (Collection.sound_empty (· ∈ codeLabels lines)).addAll h (List.nil_append lines).symm
  refine hAll.bind fun collected hCollected => ?_
  have hCapacity : Limited (fun _ => True) (Collection.checkCapacity collected.image) := by
    unfold Collection.checkCapacity
    dsimp only
    repeat' split
    all_goals trivial
  refine hCapacity.bind fun _ _ => ?_
  have hUnknown : ∀ name, name ∉ nativeLabels lines → collected.symbols.contains name = false :=
    fun name => hCollected.contains_eq_false
  rw [hCollected.unlabelled]
  refine (limited_fillWords (fun name hName => hUnknown name (h.apart name hName))
    (fun word hWord => hCollected.pending word (Array.mem_toList_iff.mp hWord)) _ #[]).bind
      fun filled hFilled => ?_
  refine ⟨hUnknown, fun name hName => ?_, fun reference hReference => ?_⟩
  · obtain ⟨symbol, hSymbol⟩ := hCollected.defined name hName
    exact ⟨symbol, hSymbol, (hCollected.natives name symbol hSymbol).2⟩
  · rcases hFilled reference (Array.mem_toList_iff.mp hReference) with hNone | hLabel
    · simp at hNone
    · exact hLabel

end Data
/-! Laying out the code -/

theorem onlyLimits_placeAll {names : Names} {line : Line} {options : Options}
    {primitives : List Primitive}
    (h : ∀ primitive ∈ primitives, primitive.Suits names) (codeEnd : Nat) :
    OnlyLimits (placeAll line options codeEnd primitives) := by
  induction primitives generalizing codeEnd with
  | nil => exact Never.ok _
  | cons primitive rest ih =>
      refine ((h primitive (by simp)).onlyLimits_size options).bind fun size => ?_
      exact (ih (fun other hOther => h other (by simp [hOther])) _).bind fun placed => Never.ok _

namespace LayoutState

section

variable {symbols : Symbols} {options : Options} {strings : StringPages}
  {state noted next : LayoutState} {line : Line}

/-- Whether a label has been seen: it has an address or waits for one. -/
def Seen (state : LayoutState) (label : String) : Prop :=
  state.labels.contains label = true ∨ state.pending.contains label = true

/-- Labels that wait get their address when the next instruction is placed. -/
theorem seen_place {label : String} (h : noted.Seen label)
    (hPlace : noted.place symbols strings options line = .ok next) : next.Seen label := by
  obtain ⟨row, _, _, _, _, hChange⟩ := place_ok hPlace
  cases hRow : row.head? with
  | none =>
      rw [hRow] at hChange
      rwa [Seen, hChange.1, hChange.2]
  | some first =>
      rw [hRow] at hChange
      left
      rw [hChange.1, Table.contains_eq_isSome_find?, find?_bind, Option.isSome_or,
        ← Table.contains_eq_isSome_find?, Bool.or_eq_true]
      rcases h with hBound | hWaiting
      · exact .inl hBound
      · right
        rw [if_pos hWaiting]
        rfl

/-- A label is noted once, and every label that was seen before is seen still. -/
theorem note_seen (hNote : state.note symbols line = .ok noted) :
    line.codeLabel? = none ∧ noted = state ∨
      ∃ label, line.codeLabel? = some label ∧ ¬ state.Seen label ∧ noted.Seen label ∧
        ∀ other, state.Seen other → noted.Seen other := by
  unfold note noteLabel at hNote
  rw [Line.codeLabel?]
  split at hNote
  · next hCode =>
      rw [if_pos hCode]
      cases hLabel : line.label with
      | none =>
          rw [hLabel] at hNote
          cases hNote
          exact .inl ⟨rfl, rfl⟩
      | some label =>
          rw [hLabel] at hNote
          dsimp only at hNote
          split at hNote
          · cases hNote
          · next hNew =>
              cases hNote
              simp only [Bool.or_eq_true, not_or] at hNew
              refine .inr ⟨label, rfl, ?_, .inr (by simp [Table.contains_insertNew]),
                fun other hOther => ?_⟩
              · rintro (hBound | hWaiting)
                · exact hNew.1.2 hBound
                · exact hNew.2 hWaiting
              · rcases hOther with hBound | hWaiting
                · exact .inl hBound
                · exact .inr (by simp [Table.contains_insertNew, hWaiting])
  · next hOther =>
      cases hNote
      exact .inl ⟨if_neg hOther, rfl⟩

/-- A line makes only its own label seen. -/
theorem seen_of_note {label : String} (hNote : state.note symbols line = .ok noted)
    (h : noted.Seen label) :
    state.Seen label ∨ line.codeLabel? = some label := by
  unfold note at hNote
  split at hNote
  · next hCode =>
      rw [Line.codeLabel?, if_pos hCode]
      unfold noteLabel at hNote
      split at hNote
      · cases hNote
        exact .inl h
      · next own hOwn =>
          split at hNote
          · cases hNote
          · cases hNote
            rcases h with hBound | hWaiting
            · exact .inl (.inl hBound)
            · rw [Table.contains_insertNew, Bool.or_eq_true, decide_eq_true_eq] at hWaiting
              rcases hWaiting with hOld | rfl
              · exact .inl (.inr hOld)
              · exact .inr hOwn
  · cases hNote
    exact .inl h

/-- Giving the waiting labels an address makes no label seen. -/
theorem seen_of_bind {label : String} {address : Nat} (h : (state.bind address).Seen label) :
    state.Seen label := by
  rcases h with hBound | hNone
  · rw [Table.contains_eq_isSome_find?, find?_bind, Option.isSome_or,
      ← Table.contains_eq_isSome_find?, Bool.or_eq_true] at hBound
    rcases hBound with hOld | hWaiting
    · exact .inl hOld
    · right
      by_contra hAbsent
      simp [hAbsent] at hWaiting
  · simp [bind] at hNone

/-- Placing an instruction makes no label seen. -/
theorem seen_of_place {label : String}
    (hPlace : noted.place symbols strings options line = .ok next)
    (h : next.Seen label) : noted.Seen label := by
  obtain ⟨row, _, _, _, _, hChange⟩ := place_ok hPlace
  cases hRow : row.head? with
  | none =>
      rw [hRow] at hChange
      rwa [Seen, hChange.1, hChange.2] at h
  | some first =>
      rw [hRow] at hChange
      refine @seen_of_bind _ _ first.address ?_
      rwa [Seen, hChange.1, hChange.2] at h

end

/-- The labels seen so far are those of the lines so far. -/
def Knows (lines : List Line) (state : LayoutState) : Prop :=
  ∀ label, state.labels.contains label = true ∨ state.pending.contains label = true →
    label ∈ codeLabels lines

section

variable {labels natives : String → Prop} {lines : List Line} {line : Line}
  {state noted next : LayoutState} {symbols : Symbols} {strings : StringPages} {options : Options}

/-- Noting a line adds its label to those that have been seen. -/
theorem Knows.of_note (h : state.Knows lines) (hNote : state.note symbols line = .ok noted) :
    noted.Knows (lines ++ [line]) := by
  intro label hLabel
  rw [codeLabels_append, List.mem_append]
  rcases seen_of_note hNote hLabel with hOld | hOwn
  · exact .inl (h label hOld)
  · exact .inr (by simp [codeLabels, hOwn])

theorem Knows.of_place (h : noted.Knows lines)
    (hPlace : noted.place symbols strings options line = .ok next) :
    next.Knows lines :=
  fun label hLabel => h label (seen_of_place hPlace hLabel)

/-- The labels of the lines so far are known, as long as none of them repeats. -/
theorem Knows.note (h : state.Knows lines)
    (hFresh : ∀ label, line.codeLabel? = some label →
      label ∉ codeLabels lines ∧ symbols.contains label = false) :
    Limited (Knows (lines ++ [line])) (state.note symbols line) := by
  refine .ofOnlyLimits ?_ fun noted hNoted => h.of_note hNoted
  unfold LayoutState.note
  split
  · next hCode =>
      unfold noteLabel
      split
      · exact Never.ok _
      · next label hLabel =>
          have hOwn : line.codeLabel? = some label := by rw [Line.codeLabel?, if_pos hCode, hLabel]
          obtain ⟨hNew, hUnknown⟩ := hFresh label hOwn
          have hLabels : state.labels.contains label = false :=
            Bool.eq_false_iff.mpr fun hKnown => hNew (h label (.inl hKnown))
          have hPending : state.pending.contains label = false :=
            Bool.eq_false_iff.mpr fun hKnown => hNew (h label (.inr hKnown))
          simp only [hUnknown, hLabels, hPending, Bool.or_self, Bool.false_eq_true, if_false]
          exact Never.ok _
  · exact Never.ok _

/-- The instruction of a line is placed without a fault but a limit. -/
theorem Knows.place (h : state.Knows lines) (hSuits : line.Suits labels natives) :
    Limited (Knows lines) (state.place symbols strings options line) := by
  refine .ofOnlyLimits ?_ fun next hNext => ?_
  · unfold LayoutState.place
    cases hInstruction : line.instruction? with
    | none => exact Never.ok _
    | some said =>
        obtain ⟨mnemonic, operands⟩ := said
        have hSuited := hSuits.suited hInstruction
        refine hSuited.onlyLimits_expand.bind_ok fun primitives hExpand => ?_
        refine (onlyLimits_placeAll (hSuited.suits_of_expand hExpand) _).bind fun placed => ?_
        split <;> exact Never.ok _
  · exact h.of_place hNext

/-- The lines of a linkable unit can be laid out one after the other. -/
theorem Knows.addAll {all rest : List Line} (hAll : Linkable all)
    (hUnknown : ∀ name, name ∉ nativeLabels all → symbols.contains name = false)
    (hRest : all = lines ++ rest) (h : state.Knows lines) :
    Limited (fun _ => True) (addAll symbols options rest state strings).1 := by
  induction rest generalizing lines state strings with
  | nil => trivial
  | cons line rest ih =>
      have hMem : line ∈ all := by simp [hRest]
      have hNote : Limited (Knows (lines ++ [line])) (state.note symbols line) := h.note
          fun label hLabel => by
        have hLabels := hAll.labels
        rw [hRest, codeLabels, List.filterMap_append, List.nodup_append] at hLabels
        have hOwn : label ∈ codeLabels (line :: rest) := by simp [codeLabels, hLabel]
        refine ⟨fun hOld => hLabels.2.2 label hOld label hOwn rfl, hUnknown label ?_⟩
        refine hAll.apart label ?_
        rw [hRest, codeLabels, List.filterMap_append]
        exact List.mem_append_right _ hOwn
      rw [addAll_line]
      cases hNoted : state.note symbols line with
      | error fault =>
          rw [hNoted] at hNote
          exact hNote
      | ok noted =>
          have hPlace : Limited (Knows (lines ++ [line]))
              (noted.place symbols (line.store strings) options line) :=
            (hNote.of_eq_ok hNoted).place (hAll.suits line hMem)
          dsimp only
          cases hNext : noted.place symbols (line.store strings) options line with
          | error fault =>
              rw [hNext] at hPlace
              exact hPlace
          | ok next => exact ih (by simp [hRest]) (hPlace.of_eq_ok hNext)

end
end LayoutState

section Units

variable {lines : List Line} {data : DataUnit} {options : Options}

/-- The code of such a unit is laid out without a fault but a limit. -/
theorem Linkable.layoutCode (h : Linkable lines) (hData : data.Sound lines)
    (strings : StringPages) :
    Limited (fun _ => True) (layoutCode data.symbols options lines strings).1 := by
  have hStart : LayoutState.start.Knows [] := by
    intro label hLabel
    simp [LayoutState.start] at hLabel
  have hRun : Limited (fun _ => True)
      (LayoutState.addAll data.symbols options lines .start strings).1 :=
    hStart.addAll h hData.unknown (List.nil_append lines).symm
  unfold Assembly.layoutCode
  cases hState : LayoutState.addAll data.symbols options lines .start strings with
  | mk outcome stored =>
      rw [hState] at hRun
      cases outcome with
      | error fault => exact hRun
      | ok state => trivial

/-- Every label of code has an address in the layout of the unit. -/
theorem exists_address_of_layout {symbols : Symbols}
    {strings stored : StringPages} {layout : Layout}
    (h : layoutCode symbols options lines strings = (.ok layout, stored)) {label : String}
    (hLabel : label ∈ codeLabels lines) : ∃ address, layout.labels.find? label = some address := by
  obtain ⟨rows, _, _, hLabels, _⟩ := layoutCode_ok h
  obtain ⟨line, hLine, hOwn⟩ := List.mem_filterMap.mp hLabel
  obtain ⟨i, hi⟩ := List.getElem?_of_mem hLine
  unfold Line.codeLabel? at hOwn
  split at hOwn
  · next hCode => exact ⟨_, hLabels i line label hi hCode hOwn⟩
  · cases hOwn

/-- References to labels of the code are resolved, whatever their number. -/
theorem limited_resolveReferences {labels : LabelTable} {references : List CodeReference}
    (h : ∀ reference ∈ references, ∃ address, labels.find? reference.label = some address)
    (image : DataImage) : Limited (fun _ => True) (resolveReferences labels references image) := by
  induction references generalizing image with
  | nil => trivial
  | cons reference rest ih =>
      obtain ⟨address, hAddress⟩ := h reference (by simp)
      rw [resolveReferences, hAddress]
      exact ih (fun other hOther => h other (by simp [hOther])) _

/-- Primitives whose names resolve are emitted without a fault but a limit. -/
theorem limited_emit {environment : Environment} {row : List Located}
    (h : ∀ located ∈ row, ∃ names, located.primitive.Suits names ∧
      Resolves environment located.line names) (image : CodeImage) :
    OnlyLimits (row.foldlM (Located.emit environment) image) := by
  induction row generalizing image with
  | nil => exact Never.ok _
  | cons located rest ih =>
      obtain ⟨names, hSuits, hResolves⟩ := h located (by simp)
      rw [List.foldlM_cons]
      have hBytes :=
        Environment.onlyLimits_operandBytes hSuits hResolves located.address image.natives
      exact ((hBytes.map _).map _).bind (ih fun other hOther => h other (by simp [hOther]))

/-- Each primitive of a linkable unit can be encoded. -/
theorem Linkable.emitCode (h : Linkable lines) (hData : data.Sound lines) {source : NativeSource}
    {strings stored : StringPages} {layout : Layout}
    (hLayout : Assembly.layoutCode data.symbols options lines strings = (.ok layout, stored))
    (natives : NativeTable) :
    OnlyLimits (emitCode ⟨data.symbols, layout.labels,
      source, options⟩ stored layout lines natives) := by
  obtain ⟨rows, hRows, hAddresses, _, _⟩ := layoutCode_ok hLayout
  have hEmit : Assembly.emitCode ⟨data.symbols, layout.labels, source, options⟩ stored layout lines
      natives = _ := emitCode_eq_foldlM hRows hAddresses
  rw [hEmit]
  refine limited_emit (fun located hLocated => ?_) _
  obtain ⟨hLine, mnemonic, operands, primitives, hInstruction, hExpand, hOwn⟩ :=
    hRows.expanded_of_mem hLocated
  refine ⟨located.line.names (· ∈ codeLabels lines) (· ∈ nativeLabels lines), ?_, ?_⟩
  · exact ((h.suits _ hLine).suited hInstruction).suits_of_expand hExpand _ hOwn
  · refine ⟨fun name hName => ⟨hData.unknown _ (h.apart _ hName), ?_⟩, fun name hName => ?_⟩
    · obtain ⟨address, hAddress⟩ := exists_address_of_layout hLayout hName
      exact Option.isSome_iff_exists.mpr ⟨address, hAddress⟩
    · exact hData.natives _ hName

/-- Only a limit keeps a linkable unit from being assembled. -/
theorem Linkable.assemble {statements : List Statement} (h : Linkable (scopeLines statements))
    (source : NativeSource) (options : Options) :
    Limited (fun _ => True) (assemble source options statements) := by
  refine h.collectData.bind fun data hData => ?_
  have hLayout : Limited (fun _ => True)
      (Assembly.layoutCode data.symbols options (scopeLines statements) data.strings).1 :=
    h.layoutCode hData data.strings
  cases hLaidOut : Assembly.layoutCode data.symbols options
      (scopeLines statements) data.strings with
  | mk outcome stored =>
      rw [hLaidOut] at hLayout
      cases outcome with
      | error fault => exact hLayout
      | ok layout =>
          show Limited _ (if _ then _ else _)
          split
          · rfl
          · refine (limited_resolveReferences (fun reference hReference => ?_) data.image).bind
              fun image _ => ?_
            · exact exists_address_of_layout hLaidOut (hData.references reference hReference)
            · exact (Limited.ofOnlyLimits (h.emitCode hData hLaidOut _) fun _ _ => trivial).bind
                fun code _ => trivial

end Units
end ScriptBackend.Assembly
