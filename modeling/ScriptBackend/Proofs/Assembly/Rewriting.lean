import ScriptBackend.Proofs.Assembly.Alike
import ScriptBackend.Proofs.Assembly.Artifact
import ScriptBackend.Proofs.Assembly.DataWords
import ScriptBackend.Proofs.Assembly.UnitText

/-!
Rewriting units. A unit keeps its script when its lines are numbered anew,
comments change, mnemonics are written in capitals, labels move in front of
their instructions, and lines without label and content go. Each pass takes the
rewritten lines as it takes the old ones: the data pass ends with the same data,
and the layout puts the same instructions at the same addresses.
-/
namespace ScriptBackend.Assembly

open Outcome

/-- Lines that say the same under the same label. -/
structure Line.Same (line other : Line) : Prop extends line.Alike other where
  label : other.label = line.label
  content : other.statement.content = line.statement.content.upperCased

/-- Lines, with a segment in front of them, and the same lines rewritten. -/
inductive Rewritten : Segment → List Line → List Line → Prop where
  | nil {segment : Segment} : Rewritten segment [] []
  | line {segment : Segment} {line other : Line} {rest others : List Line} (same : line.Same other)
      (tail : Rewritten line.segment rest others) :
      Rewritten segment (line :: rest) (other :: others)
  | blank {segment : Segment} {line : Line} {rest others : List Line} (label : line.label = none)
      (content : line.statement.content = .empty) (stays : line.segment = segment)
      (tail : Rewritten segment rest others) : Rewritten segment (line :: rest) others
  | labelled {segment : Segment} {line front back : Line} {rest others : List Line}
      (instructs : ∃ mnemonic operands, line.statement.content = .instruction mnemonic operands)
      (front_alike : line.Alike front) (front_label : front.label = line.label)
      (front_content : front.statement.content = .empty) (back_alike : line.Alike back)
      (back_label : back.label = none)
        (back_content : back.statement.content = line.statement.content.upperCased)
      (tail : Rewritten line.segment rest others) :
      Rewritten segment (line :: rest) (front :: back :: others)

/-! Data -/

/-- Words that wait for the same. -/
structure PendingWord.Alike (word other : PendingWord) : Prop where
  line : word.line.Alike other.line
  offset : other.offset = word.offset
  kind : other.kind = word.kind
  operand : other.operand = word.operand

/-- Collections that differ in the lines of their pending words alone. -/
structure Collection.Alike (collection other : Collection) : Prop where
  image : other.image = collection.image
  symbols : other.symbols = collection.symbols
  strings : other.strings = collection.strings
  natives : other.natives = collection.natives
  labels : other.labels = collection.labels
  labelled : other.labelled = collection.labelled
  pending : List.Forall₂ PendingWord.Alike collection.pending.toList other.pending.toList

/-- Whenever one computation succeeds, so does the other, with an alike
collection. -/
def Collection.Follows (first second : Except Fault Collection) : Prop :=
  ∀ next, first = .ok next → ∃ other, second = .ok other ∧ next.Alike other

namespace Collection

variable {collection collection' next : Collection} {line other : Line}

theorem Follows.error (fault : Fault) (second : Except Fault Collection) :
    Follows (.error fault) second := by
  intro next h
  cases h

theorem Follows.ok (h : collection.Alike collection') :
    Follows (.ok collection) (.ok collection') := by
  rintro next ⟨⟩
  exact ⟨collection', rfl, h⟩

/-- What is done with collections that are alike is followed by what is done
with their successors. -/
theorem Follows.bind {first second : Except Fault Collection}
    {change change' : Collection → Except Fault Collection}
    (h : Follows first second)
    (hNext : ∀ next other, next.Alike other → Follows (change next) (change' other)) :
    Follows (first >>= change) (second >>= change') := by
  intro last hLast
  obtain ⟨middle, hMiddle, hLast⟩ := bind_eq_ok.mp hLast
  obtain ⟨middle', rfl, hAlike⟩ := h middle hMiddle
  exact hNext middle middle' hAlike last hLast

theorem enterSegment_alike (h : collection.Alike collection') (hLine : line.Alike other) :
    Follows (collection.enterSegment line) (collection'.enterSegment other) := by
  rw [enterSegment, enterSegment, hLine.segment, h.image]
  split
  · split
    · exact .error _ _
    · split
      · split
        · exact .ok h
        · exact .error _ _
      · exact .ok ⟨rfl, h.symbols, h.strings, h.natives, h.labels, h.labelled, h.pending⟩
  · exact .ok h

/-- Labels are noted alike, since only the segments and the numbers of words
before them matter. -/
theorem noteLabel_alike (h : collection.Alike collection') (hLine : line.Alike other)
    (hLabel : other.label = line.label) :
    Follows (collection.noteLabel line) (collection'.noteLabel other) := by
  rw [noteLabel, noteLabel, hLabel, hLine.segment, h.symbols, h.labelled, h.image, h.labels]
  split
  · exact .ok h
  · split
    · exact .ok h
    · split
      · exact .error _ _
      · exact .ok ⟨rfl, rfl, h.strings, h.natives, rfl, rfl, h.pending⟩

theorem defineSymbol_alike (h : collection.Alike collection') (hLine : line.Alike other)
    (hLabel : other.label = line.label) (value : Nat) :
    Follows (collection.defineSymbol line value) (collection'.defineSymbol other value) := by
  rw [defineSymbol, defineSymbol, hLabel, hLine.segment, h.symbols]
  split
  · exact .ok h
  · split
    · exact .error _ _
    · exact .ok ⟨h.image, rfl, h.strings, h.natives, h.labels, h.labelled, h.pending⟩

theorem constantValue_alike (h : collection.Alike collection') (line other : Line)
    (operand : Operand) :
    Agree (collection.constantValue line operand) (collection'.constantValue other operand) := by
  cases operand with
  | name name =>
      rw [constantValue, constantValue, h.symbols]
      split
      · exact .ok _
      · exact .error _ _
  | int value => exact .ok _
  | float value => exact .ok _
  | _ => exact .error _ _

theorem defineConstant_alike (h : collection.Alike collection') (line other : Line) (name : String)
    (operand : Operand) :
    Follows (collection.defineConstant line name operand)
      (collection'.defineConstant other name operand) := by
  intro next hNext
  obtain ⟨value, hValue, hNext⟩ := bind_eq_ok.mp hNext
  rw [defineConstant, (constantValue_alike h line other operand).eq_ok hValue]
  dsimp only [bind, Except.bind]
  rw [h.symbols]
  split at hNext
  · cases hNext
  · next hNew =>
      cases hNext
      rw [if_neg hNew]
      exact ⟨_, rfl, h.image, rfl, h.strings, h.natives, h.labels, h.labelled, h.pending⟩

/-- Words with operands are added alike, and the operands wait with lines that
resolve names alike. -/
theorem addWords_alike (h : collection.Alike collection')
    (hLine : line.Alike other) (kind : WordKind) (operands : List Operand) :
    Follows (collection.addWords line kind operands)
      (collection'.addWords other kind operands) := by
  have hWords : ∀ first, List.Forall₂ PendingWord.Alike
      (operands.mapIdx fun i operand => (⟨line, first + i, kind, operand⟩ : PendingWord))
      (operands.mapIdx fun i operand => (⟨other, first + i, kind, operand⟩ : PendingWord)) := by
    intro first
    rw [List.forall₂_iff_get]
    refine ⟨by simp, fun i hi hi' => ?_⟩
    simp only [List.get_eq_getElem, List.getElem_mapIdx]
    exact ⟨hLine, rfl, rfl, rfl⟩
  rw [addWords, addWords, hLine.segment, h.image]
  split
  · refine .ok ⟨rfl, h.symbols, h.strings, h.natives, h.labels, h.labelled, ?_⟩
    simpa using List.rel_append h.pending (hWords _)
  · exact .error _ _

theorem addZeros_alike (h : collection.Alike collection') (hLine : line.Alike other) (count : Nat) :
    Follows (collection.addZeros line count) (collection'.addZeros other count) := by
  rw [addZeros, addZeros, hLine.segment, h.image]
  split
  · exact .ok ⟨rfl, h.symbols, h.strings, h.natives, h.labels, h.labelled, h.pending⟩
  · exact .error _ _

theorem addText_alike (h : collection.Alike collection') (hLine : line.Alike other)
    (hLabel : other.label = line.label) (text : String) :
    Follows (collection.addText line text) (collection'.addText other text) := by
  rw [addText, addText, hLine.segment, h.strings]
  split
  · split
    · refine defineSymbol_alike ?_ hLine hLabel _
      exact ⟨h.image, h.symbols, rfl, h.natives, h.labels, h.labelled, h.pending⟩
    · exact .error _ _
  · exact .error _ _

theorem addNative_alike (h : collection.Alike collection') (hLine : line.Alike other)
    (hLabel : other.label = line.label) (hash : UInt64) :
    Follows (collection.addNative line hash) (collection'.addNative other hash) := by
  rw [addNative, addNative, hLine.segment, h.natives]
  split
  · split
    · refine defineSymbol_alike ?_ hLine hLabel _
      exact ⟨h.image, h.symbols, h.strings, rfl, h.labels, h.labelled, h.pending⟩
    · exact .error _ _
  · exact .error _ _

/-- A directive is taken alike on both lines, whatever it says. -/
theorem addDirective_alike (h : collection.Alike collection') (hLine : line.Alike other)
    (hLabel : other.label = line.label) (directive : Directive) :
    Follows (collection.addDirective line directive)
      (collection'.addDirective other directive) := by
  cases directive with
  | segment segment => exact .ok h
  | scriptName name =>
      refine .ok ⟨?_, h.symbols, h.strings, h.natives, h.labels, h.labelled, h.pending⟩
      rw [h.image]
  | scriptHash hash =>
      refine .ok ⟨?_, h.symbols, h.strings, h.natives, h.labels, h.labelled, h.pending⟩
      rw [h.image]
  | const name operand => exact defineConstant_alike h line other name operand
  | ints operands => exact addWords_alike h hLine .int operands
  | floats operands => exact addWords_alike h hLine .float operands
  | zero count => exact addZeros_alike h hLine count.toNat
  | text text => exact addText_alike h hLine hLabel text
  | native hash => exact addNative_alike h hLine hLabel hash

theorem addContent_alike (h : collection.Alike collection') (hLine : line.Same other) :
    Follows (collection.addContent line) (collection'.addContent other) := by
  rw [addContent, addContent, hLine.content, hLine.segment, hLine.label]
  cases line.statement.content with
  | empty =>
      dsimp only [Content.upperCased]
      split
      · exact .error _ _
      · exact .ok h
  | directive directive => exact addDirective_alike h hLine.toAlike hLine.label directive
  | instruction mnemonic operands =>
      dsimp only [Content.upperCased]
      split
      · exact .ok h
      · exact .error _ _

/-- A line is taken alike when its rewritten form says the same. -/
theorem add_alike (h : collection.Alike collection') (hLine : line.Same other) :
    Follows (collection.add line) (collection'.add other) :=
  (enterSegment_alike h hLine.toAlike).bind fun _ _ hEntered =>
    (noteLabel_alike hEntered hLine.toAlike hLine.label).bind fun _ _ hNoted =>
      addContent_alike hNoted hLine

/-- A line of code takes no part in the data, nor does one at which the code
goes on. -/
theorem add_silent (hSegment : line.segment = .code)
    (hContent : ∀ directive, line.statement.content = .directive directive →
      ∃ segment, directive = .segment segment) :
    collection.add line = .ok collection := by
  have hEnter : collection.enterSegment line = .ok collection := by
    rw [enterSegment, hSegment]
  have hNote : collection.noteLabel line = .ok collection := by
    rw [noteLabel, hSegment]
    split <;> rfl
  have hAdd : collection.addContent line = .ok collection := by
    rw [addContent]
    cases hSays : line.statement.content with
    | empty => simp [hSegment]
    | instruction mnemonic operands => simp [hSegment]
    | directive directive =>
        obtain ⟨segment, rfl⟩ := hContent directive hSays
        rfl
  rw [add, hEnter]
  show collection.noteLabel line >>= (fun noted => noted.addContent line) = .ok collection
  rw [hNote]
  exact hAdd

/-- A line of code leaves the data as it is, and its label is left to the layout. -/
theorem add_code (hSegment : line.segment = .code) (hContent : line.statement.content = .empty ∨
    ∃ mnemonic operands, line.statement.content = .instruction mnemonic operands) :
    collection.add line = .ok collection := by
  refine add_silent hSegment fun directive hSays => ?_
  rcases hContent with hEmpty | ⟨mnemonic, operands, hInstruction⟩
  · cases hEmpty.symm.trans hSays
  · cases hInstruction.symm.trans hSays

/-- Instructions stand in the code. -/
theorem segment_of_add {mnemonic : String} {operands : List Operand}
    (hContent : line.statement.content = .instruction mnemonic operands)
    (h : collection.add line = .ok next) :
    line.segment = .code := by
  obtain ⟨entered, _, h⟩ := bind_eq_ok.mp h
  obtain ⟨noted, _, h⟩ := bind_eq_ok.mp h
  rw [addContent, hContent] at h
  dsimp only at h
  split at h
  · assumption
  · cases h

/-- A line that says nothing adds nothing where its segment has been entered
before. -/
theorem add_blank (hLabel : line.label = none) (hContent : line.statement.content = .empty)
    (hEntered : ∀ block, line.segment = .globals block → collection.image.block = some block)
    (h : collection.add line = .ok next) : next = collection := by
  obtain ⟨entered, hEnter, h⟩ := bind_eq_ok.mp h
  have hSame : entered = collection := by
    unfold enterSegment at hEnter
    split at hEnter
    · next block hSegment =>
        rw [hEntered block hSegment] at hEnter
        dsimp only at hEnter
        split at hEnter
        · cases hEnter
        · rw [if_pos rfl] at hEnter
          cases hEnter
          rfl
    · cases hEnter
      rfl
  have hNote : entered.noteLabel line = .ok entered := by
    rw [noteLabel, hLabel]
  rw [hNote] at h
  have hAdd : entered.addContent line = .ok entered := by
    simp [addContent, hContent, hLabel]
  cases hAdd.symm.trans h
  exact hSame

/-- Rewritten lines define the same data, if the segment in front of them has
been entered. -/
theorem addAll_rewritten {segment : Segment} {lines others : List Line}
    (hLines : Rewritten segment lines others) (h : collection.Alike collection')
    (hEntered : ∀ block, segment = .globals block → collection.image.block = some block)
    (hNext : collection.addAll lines = .ok next) :
    ∃ next', collection'.addAll others = .ok next' ∧ next.Alike next' := by
  induction hLines generalizing collection collection' with
  | nil =>
      cases hNext
      exact ⟨collection', rfl, h⟩
  | @line segment line other rest others same tail ih =>
      rw [addAll] at hNext
      split at hNext
      · cases hNext
      · next middle hMiddle =>
          obtain ⟨middle', hMiddle', hAlike⟩ := add_alike h same middle hMiddle
          rw [addAll, hMiddle']
          exact ih hAlike (add_block hMiddle).2 hNext
  | blank label content stays tail ih =>
      rw [addAll] at hNext
      split at hNext
      · cases hNext
      · next middle hMiddle =>
          have hSame := add_blank label content (by rwa [stays]) hMiddle
          rw [hSame] at hNext
          exact ih h hEntered hNext
  | @labelled segment line front back rest others instructs front_alike front_label
      front_content back_alike back_label back_content tail ih =>
      rw [addAll] at hNext
      split at hNext
      · cases hNext
      · next middle hMiddle =>
          obtain ⟨mnemonic, operands, hContent⟩ := instructs
          have hSegment := segment_of_add hContent hMiddle
          have hSame := (add_code hSegment (.inr ⟨mnemonic, operands, hContent⟩)).symm.trans hMiddle
          cases hSame
          have hBack : back.statement.content =
              .instruction (Text.upperCased mnemonic) operands := by
            rw [back_content, hContent]
            rfl
          rw [addAll, add_code (front_alike.segment.trans hSegment) (.inl front_content)]
          dsimp only
          rw [addAll, add_code (back_alike.segment.trans hSegment) (.inr ⟨_, _, hBack⟩)]
          refine ih h (fun block hBlock => ?_) hNext
          rw [hSegment] at hBlock
          cases hBlock

end Collection

section Words

variable {symbols : Symbols} {labels : LabelTable}

/-- Of the line of a word that waits, only the full name of what the operand
mentions counts. -/
theorem evaluate_agree {word other : PendingWord} (hKind : other.kind = word.kind)
    (hOperand : other.operand = word.operand)
    (hNames : ∀ name, word.operand.mentioned? = some name →
      other.line.qualify name = word.line.qualify name) :
    Agree (word.evaluate symbols) (other.evaluate symbols) := by
  have hFloat : floatOperand? symbols other.line word.operand =
      floatOperand? symbols word.line word.operand := by
    unfold floatOperand?
    split
    · rfl
    · next name hName => rw [hNames name (by rw [hName]; rfl)]
    · rfl
  have hInt : ∀ value, Agree (word.ofInt value) (other.ofInt value) := by
    intro value
    rw [PendingWord.ofInt, PendingWord.ofInt, hKind]
    split
    · exact .ok _
    · split
      · exact .error _ _
      · exact .ok _
  have hValue : Agree (symbols.intOperand word.line word.operand)
      (symbols.intOperand other.line word.operand) :=
    intOperand_agree hNames
  rw [PendingWord.evaluate, PendingWord.evaluate, hOperand, hKind, hFloat]
  split
  · exact .ok _
  · generalize symbols.intOperand word.line word.operand = first at hValue
    generalize symbols.intOperand other.line word.operand = second at hValue
    cases hValue with
    | error => exact .error _ _
    | ok value =>
        cases value with
        | some value => exact hInt value
        | none =>
            dsimp only
            split
            · next name hName _ =>
                rw [hNames name (by rw [hName]; rfl)]
                exact .ok _
            · exact .error _ _
            · exact .error _ _

theorem evaluate_alike {word other : PendingWord} (h : word.Alike other) :
    Agree (word.evaluate symbols) (other.evaluate symbols) :=
  evaluate_agree h.kind h.operand fun name _ => h.line.qualify name

/-- References to the same label in the same place. -/
structure CodeReference.Alike (reference other : CodeReference) : Prop where
  segment : other.segment = reference.segment
  offset : other.offset = reference.offset
  label : other.label = reference.label

/-- Words that wait alike are filled in with the same words and leave references
that are alike. -/
theorem fillWords_alike {words others : List PendingWord} {image filled : DataImage}
    {references references' final : Array CodeReference}
    (hWords : List.Forall₂ PendingWord.Alike words others)
    (hReferences : List.Forall₂ CodeReference.Alike references.toList references'.toList)
    (h : fillWords symbols words image references = .ok (filled, final)) :
    ∃ final', fillWords symbols others image references' = .ok (filled, final') ∧
      List.Forall₂ CodeReference.Alike final.toList final'.toList := by
  induction hWords generalizing image references references' with
  | nil =>
      cases h
      exact ⟨references', rfl, hReferences⟩
  | @cons word other rest rest' hWord hRest ih =>
      rw [fillWords] at h ⊢
      have hValue : Agree (word.evaluate symbols) (other.evaluate symbols) := evaluate_alike hWord
      rw [hWord.line.segment, hWord.offset]
      generalize word.evaluate symbols = first at hValue h
      generalize other.evaluate symbols = second at hValue
      cases hValue with
      | error => cases h
      | ok value =>
          cases value with
          | word value => exact ih hReferences h
          | address label =>
              refine ih ?_ h
              rw [Array.toList_push, Array.toList_push]
              exact List.rel_append hReferences (.cons ⟨rfl, rfl, rfl⟩ .nil)

/-- References are resolved by the labels they name, whatever lines they come
from. -/
theorem resolveReferences_alike {references others : List CodeReference}
    (h : List.Forall₂ CodeReference.Alike references others) (image : DataImage) :
    Agree (resolveReferences labels references image) (resolveReferences labels others image) := by
  induction h generalizing image with
  | nil => exact .ok image
  | cons hReference hRest ih =>
      rw [resolveReferences, resolveReferences, hReference.label, hReference.segment,
        hReference.offset]
      split
      · exact .error _ _
      · exact ih _

/-- Rewritten units have the same data, and the same words wait for code labels. -/
theorem collectData_rewritten {lines others : List Line} {data : DataUnit}
    (hLines : Rewritten .code lines others) (h : collectData lines = .ok data) :
    ∃ references, collectData others = .ok { data with references := references } ∧
      List.Forall₂ CodeReference.Alike data.references references := by
  obtain ⟨collected, hCollected, h⟩ := bind_eq_ok.mp h
  obtain ⟨checked, hChecked, h⟩ := bind_eq_ok.mp h
  obtain ⟨⟨image, references⟩, hFilled, h⟩ := bind_eq_ok.mp h
  cases h
  have hEmpty : Collection.empty.Alike Collection.empty := ⟨rfl, rfl, rfl, rfl, rfl, rfl, .nil⟩
  obtain ⟨collected', hCollected', hAlike⟩ :=
    Collection.addAll_rewritten hLines hEmpty (by simp) hCollected
  have hNone : List.Forall₂ CodeReference.Alike (#[] : Array CodeReference).toList
      (#[] : Array CodeReference).toList := .nil
  obtain ⟨references', hFilled', hReferences⟩ := fillWords_alike hAlike.pending hNone hFilled
  refine ⟨references'.toList, ?_, hReferences⟩
  rw [collectData, hCollected']
  simp only [bind, Except.bind, hAlike.image, hAlike.labels, hAlike.symbols, hChecked,
    hFilled', hAlike.strings, hAlike.natives]
  rfl

end Words

/-! Code -/

/-- Lines with the same instruction, its mnemonic perhaps in capitals. -/
structure Line.SameCode (line other : Line) : Prop extends line.Alike other where
  instruction : other.instruction? = line.instruction? ∨
    other.instruction? = line.instruction?.map fun instruction =>
      (Text.upperCased instruction.1, instruction.2)

theorem Line.Alike.sameCode {line other : Line} (h : line.Alike other)
    (hContent : other.statement.content = line.statement.content.upperCased) :
    line.SameCode other := by
  refine ⟨h, .inr ?_⟩
  rw [Line.instruction?, Line.instruction?, hContent, h.segment]
  cases line.statement.content with
  | instruction mnemonic operands =>
      dsimp only [Content.upperCased]
      split <;> rfl
  | _ => rfl

/-- The same operands under mnemonics that are expanded alike, or no instruction
on either line. -/
inductive Line.SameInstruction (line other : Line) : Prop where
  | none (left : line.instruction? = none) (right : other.instruction? = none)
  | some (mnemonic mnemonic' : String) (operands : List Operand)
      (left : line.instruction? = some (mnemonic, operands))
      (right : other.instruction? = some (mnemonic', operands))
      (text : Assembly.pushedText? mnemonic' operands = Assembly.pushedText? mnemonic operands)
      (expands : ∀ symbols strings,
        Agree (expand symbols strings line mnemonic operands)
          (expand symbols strings other mnemonic' operands))

theorem Line.SameCode.sameInstruction {line other : Line} (h : line.SameCode other) :
    line.SameInstruction other := by
  have hInstruction := h.instruction
  cases hOwn : line.instruction? with
  | none =>
      rw [hOwn] at hInstruction
      exact .none hOwn (hInstruction.elim id id)
  | some instruction =>
      rw [hOwn] at hInstruction
      rcases hInstruction with hSame | hUpper
      · exact .some _ _ _ hOwn hSame rfl fun _ _ => expand_agree h.toAlike _ _
      · exact .some _ _ _ hOwn hUpper (pushedText?_upperCased _ _) fun _ _ =>
          expand_alike h.toAlike _ _

theorem Line.SameCode.store {line other : Line} (h : line.SameCode other) (strings : StringPages) :
    other.store strings = line.store strings := by
  have hText : other.pushedText? = line.pushedText? := by
    rw [Line.pushedText?, Line.pushedText?]
    cases h.sameInstruction with
    | none left right => rw [left, right]
    | some mnemonic mnemonic' operands left right text =>
        rw [left, right]
        exact text
  rw [Line.store, Line.store, hText]

/-- Lines with their addresses in two layouts that put the same instructions at
the same addresses. -/
inductive Aligned : List (Line × Option Nat) → List (Line × Option Nat) → Prop where
  | nil : Aligned [] []
  | both {line other : Line} {address : Option Nat} {rest others : List (Line × Option Nat)}
      (same : line.SameCode other) (tail : Aligned rest others) :
      Aligned ((line, address) :: rest) ((other, address) :: others)
  | left {line : Line} {address : Option Nat} {rest others : List (Line × Option Nat)}
      (silent : line.instruction? = none) (tail : Aligned rest others) :
      Aligned ((line, address) :: rest) others
  | right {line : Line} {address : Option Nat} {rest others : List (Line × Option Nat)}
      (silent : line.instruction? = none) (tail : Aligned rest others) :
      Aligned rest ((line, address) :: others)

theorem instruction?_of_empty {line : Line} (h : line.statement.content = .empty) :
    line.instruction? = none := by
  rw [Line.instruction?, h]

namespace LayoutState

variable {symbols : Symbols} {options : Options} {strings stored : StringPages}
  {state state' noted noted' next final : LayoutState} {line other : Line}

/-- Layouts in progress that differ in the addresses of lines alone. -/
structure Alike (state other : LayoutState) : Prop where
  labels : other.labels = state.labels
  pending : other.pending = state.pending
  codeEnd : other.codeEnd = state.codeEnd

/-- A label of the code is noted alike, and neither line takes a place among the
addresses by it. -/
theorem note_alike (h : state.Alike state') (hLine : line.Alike other)
    (hLabel : other.label = line.label) (hNote : state.note symbols line = .ok noted) :
    ∃ noted', state'.note symbols other = .ok noted' ∧ noted.Alike noted' ∧
      noted.addresses = state.addresses ∧ noted'.addresses = state'.addresses := by
  rw [note, noteLabel] at hNote ⊢
  rw [hLine.segment, hLabel, h.labels, h.pending]
  by_cases hCode : line.segment = .code
  · rw [if_pos hCode] at hNote ⊢
    cases hOwn : line.label with
    | none =>
        rw [hOwn] at hNote
        cases hNote
        exact ⟨state', rfl, h, rfl, rfl⟩
    | some label =>
        rw [hOwn] at hNote
        dsimp only at hNote ⊢
        split at hNote
        · cases hNote
        · next hNew =>
            cases hNote
            rw [if_neg hNew]
            exact ⟨_, rfl, ⟨rfl, rfl, h.codeEnd⟩, rfl, rfl⟩
  · rw [if_neg hCode] at hNote ⊢
    cases hNote
    exact ⟨state', rfl, h, rfl, rfl⟩

/-- An instruction is placed at the same address, which is put behind the
addresses of both. -/
theorem place_alike (h : noted.Alike noted') (hLine : line.SameCode other)
    (hPlace : noted.place symbols strings options line = .ok next) :
    ∃ next' address, noted'.place symbols strings options other = .ok next' ∧ next.Alike next' ∧
      next.addresses = noted.addresses.push address ∧
      next'.addresses = noted'.addresses.push address := by
  rw [place] at hPlace ⊢
  cases hLine.sameInstruction with
  | none left right =>
      rw [left] at hPlace
      rw [right]
      cases hPlace
      exact ⟨_, none, rfl, ⟨h.labels, h.pending, h.codeEnd⟩, rfl, rfl⟩
  | some mnemonic mnemonic' operands left right text expands =>
      rw [left] at hPlace
      rw [right]
      obtain ⟨primitives, hExpand, hPlace⟩ := bind_eq_ok.mp hPlace
      obtain ⟨⟨first, last⟩, hPlaced, hPlace⟩ := bind_eq_ok.mp hPlace
      have hExpand' := (expands symbols strings).eq_ok hExpand
      have hPlaced' := (placeAll_alike hLine.toAlike noted.codeEnd primitives).eq_ok hPlaced
      simp only [hExpand', Bind.bind, Except.bind, h.codeEnd, hPlaced']
      cases first with
      | some first =>
          cases hPlace
          refine ⟨_, some first, rfl, ⟨?_, rfl, rfl⟩, rfl, rfl⟩
          simp only [LayoutState.bind, h.labels, h.pending]
      | none =>
          cases hPlace
          exact ⟨_, none, rfl, ⟨h.labels, h.pending, rfl⟩, rfl, rfl⟩

/-- A line without an instruction and with nothing to note only takes a place
among the addresses. -/
theorem addAll_silent_line (hNote : state.note symbols line = .ok noted)
    (hSilent : line.instruction? = none) (lines : List Line) :
    addAll symbols options (line :: lines) state strings =
      addAll symbols options lines { noted with addresses := noted.addresses.push none }
        strings := by
  have hStore : line.store strings = strings := by
    simp [Line.store, Line.pushedText?, hSilent]
  have hPlace : noted.place symbols strings options line =
      .ok { noted with addresses := noted.addresses.push none } := by
    simp [place, hSilent]
  rw [addAll_cons hNote (by rwa [hStore]), hStore]

/-- Wherever the one layout ends, the other one ends alike, with the same
instructions at the same addresses. -/
def Retraces (symbols : Symbols) (options : Options) (lines others : List Line)
    (state state' : LayoutState) (strings : StringPages) : Prop :=
  ∀ final stored, addAll symbols options lines state strings = (.ok final, stored) →
    ∃ final' more more', addAll symbols options others state' strings = (.ok final', stored) ∧
      final.Alike final' ∧ final.addresses.toList = state.addresses.toList ++ more ∧
      final'.addresses.toList = state'.addresses.toList ++ more' ∧
      Aligned (lines.zip more) (others.zip more')

namespace Retraces

variable {rest others : List Line}

theorem nil (h : state.Alike state') : Retraces symbols options [] [] state state' strings := by
  rintro final stored ⟨⟩
  exact ⟨state', [], [], rfl, h, by simp, by simp, .nil⟩

/-- The same instruction under the same label is put at the same address. -/
theorem both (h : state.Alike state') (hLabel : other.label = line.label)
    (hCode : line.SameCode other)
    (hRest : ∀ next next', next.Alike next' →
      Retraces symbols options rest others next next' (line.store strings)) :
    Retraces symbols options (line :: rest) (other :: others) state state' strings := by
  intro final stored hFinal
  obtain ⟨noted, next, hNote, hPlace, hLater⟩ := addAll_cons_ok hFinal
  obtain ⟨noted', hNote', hNoted, hKeeps, hKeeps'⟩ := note_alike h hCode.toAlike hLabel hNote
  obtain ⟨next', address, hPlace', hNext, hAddress, hAddress'⟩ := place_alike hNoted hCode hPlace
  obtain ⟨final', more, more', hFinal', hSame, hMore, hMore', hAligned⟩ :=
    hRest next next' hNext final stored hLater
  refine ⟨final', address :: more, address :: more', ?_, hSame, ?_, ?_, .both hCode hAligned⟩
  · rw [addAll_cons hNote' (by rwa [hCode.store]), hCode.store, hFinal']
  · simp [hMore, hAddress, hKeeps]
  · simp [hMore', hAddress', hKeeps']

/-- A silent line takes a place among the addresses. -/
theorem left (hNote : state.note symbols line = .ok state) (hSilent : line.instruction? = none)
    (hRest : Retraces symbols options rest others
      { state with addresses := state.addresses.push none } state' strings) :
    Retraces symbols options (line :: rest) others state state' strings := by
  intro final stored hFinal
  rw [addAll_silent_line hNote hSilent] at hFinal
  obtain ⟨final', more, more', hFinal', hSame, hMore, hMore', hAligned⟩ := hRest final stored hFinal
  exact ⟨final', none :: more, more', hFinal', hSame, by simpa using hMore, hMore',
    .left hSilent hAligned⟩

/-- A silent line may come between. -/
theorem right (hNote : state'.note symbols other = .ok state') (hSilent : other.instruction? = none)
    (hRest : Retraces symbols options rest others state
      { state' with addresses := state'.addresses.push none } strings) :
    Retraces symbols options rest (other :: others) state state' strings := by
  intro final stored hFinal
  obtain ⟨final', more, more', hFinal', hSame, hMore, hMore', hAligned⟩ := hRest final stored hFinal
  refine ⟨final', more, none :: more', ?_, hSame, hMore, by simpa using hMore',
    .right hSilent hAligned⟩
  rw [addAll_silent_line hNote hSilent, hFinal']

end Retraces

/-- A line without a label of the code has nothing to note. -/
theorem note_unlabelled (h : line.segment = .code → line.label = none) :
    state.note symbols line = .ok state := by
  rw [note]
  split
  · next hCode => rw [noteLabel, h hCode]
  · rfl

/-- Rewritten lines are laid out alike: the same instructions get the same
addresses. -/
theorem addAll_rewritten {segment : Segment} {lines others : List Line}
    (hLines : Rewritten segment lines others)
    (h : state.Alike state') : Retraces symbols options lines others state state' strings := by
  induction hLines generalizing state state' strings with
  | nil => exact .nil h
  | line same tail ih =>
      exact .both h same.label (same.toAlike.sameCode same.content) fun next next' hNext => ih hNext
  | blank label content stays tail ih =>
      exact .left (note_unlabelled fun _ => label) (instruction?_of_empty content)
        (ih ⟨h.labels, h.pending, h.codeEnd⟩)
  | @labelled segment line front back rest others instructs front_alike front_label
      front_content back_alike back_label back_content tail ih =>
      have hCode := back_alike.sameCode back_content
      have hSilent := instruction?_of_empty front_content
      intro final stored hFinal
      obtain ⟨noted, next, hNote, hPlace, hRest⟩ := addAll_cons_ok hFinal
      obtain ⟨noted', hNote', hNoted, hKeeps, hKeeps'⟩ := note_alike h front_alike front_label hNote
      -- the label stands on a line of its own, and the instruction is placed behind it
      have hBehind : noted.Alike { noted' with addresses := noted'.addresses.push none } :=
        ⟨hNoted.labels, hNoted.pending, hNoted.codeEnd⟩
      have hNone : ({ noted' with addresses := noted'.addresses.push none } : LayoutState).note
          symbols back =
          .ok { noted' with addresses := noted'.addresses.push none } :=
            note_unlabelled fun _ => back_label
      obtain ⟨next', address, hPlace', hNext, hAddress, hAddress'⟩ :=
        place_alike hBehind hCode hPlace
      obtain ⟨final', more, more', hFinal', hSame, hMore, hMore', hAligned⟩ :=
        ih hNext final stored hRest
      refine ⟨final', address :: more, none :: address :: more', ?_, hSame, ?_, ?_,
        .right hSilent (.both hCode hAligned)⟩
      · rw [addAll_silent_line hNote' hSilent, addAll_cons hNone (by rwa [hCode.store]),
          hCode.store, hFinal']
      · simp [hMore, hAddress, hKeeps]
      · simp [hMore', hAddress', hKeeps']

end LayoutState

/-- Two layouts of which one retraces the other: the same labels and the same
length, and the same instructions at the same addresses. -/
theorem layoutCode_retraced {symbols : Symbols} {options : Options} {lines others : List Line}
    {strings stored : StringPages} {layout : Layout}
    (hLines : LayoutState.Retraces symbols options lines others .start .start strings)
    (h : layoutCode symbols options lines strings = (.ok layout, stored)) :
    ∃ layout', layoutCode symbols options others strings = (.ok layout', stored) ∧
      layout'.labels = layout.labels ∧ layout'.codeLength = layout.codeLength ∧
      Aligned (lines.zip layout.addresses.toList) (others.zip layout'.addresses.toList) := by
  rw [layoutCode] at h ⊢
  split at h
  · cases h
  · next state found hState =>
      cases h
      obtain ⟨state', more, more', hState', hSame, hMore, hMore', hAligned⟩ := hLines state _ hState
      rw [hState']
      refine ⟨_, rfl, ?_, hSame.codeEnd, ?_⟩
      · simp only [LayoutState.bind, hSame.labels, hSame.pending, hSame.codeEnd]
      · have hStart : LayoutState.start.addresses.toList = [] := rfl
        rw [hStart, List.nil_append] at hMore hMore'
        simpa [LayoutState.bind, hMore, hMore'] using hAligned

namespace CodeImage

variable {environment : Environment} {strings : StringPages}

theorem addLine_alike {line other : Line} (h : line.SameCode other) (expected : Option Nat)
    (image : CodeImage) :
    Agree (addLine environment strings line expected image)
      (addLine environment strings other expected image) := by
  rw [addLine, addLine]
  cases h.sameInstruction with
  | none left right =>
      rw [left, right]
      exact .ok image
  | some mnemonic mnemonic' operands left right text expands =>
      have hExpand := expands environment.symbols strings
      rw [left, right]
      dsimp only
      generalize expand environment.symbols strings line mnemonic operands = first at hExpand
      generalize expand environment.symbols strings other mnemonic' operands = second at hExpand
      cases hExpand with
      | error => exact .error _ _
      | ok primitives => exact addPrimitives_alike h.toAlike expected primitives image

/-- A line without an instruction is passed over when code is emitted. -/
theorem addLine_silent {line : Line} (h : line.instruction? = none) (expected : Option Nat)
    (image : CodeImage) :
    addLine environment strings line expected image = .ok image := by
  rw [addLine, h]

/-- Lines at the same addresses are encoded alike. -/
theorem addAll_aligned {lines others : List (Line × Option Nat)} (h : Aligned lines others)
    (image : CodeImage) :
    Agree (addAll environment strings lines image) (addAll environment strings others image) := by
  induction h generalizing image with
  | nil => exact .ok image
  | @both line other address rest others same tail ih =>
      have hLine : Agree (addLine environment strings line address image)
          (addLine environment strings other address image) := addLine_alike same address image
      rw [addAll, addAll]
      generalize addLine environment strings line address image = first at hLine
      generalize addLine environment strings other address image = second at hLine
      cases hLine with
      | error => exact .error _ _
      | ok next => exact ih next
  | left silent tail ih =>
      rw [addAll, addLine_silent silent]
      exact ih image
  | right silent tail ih =>
      rw [addAll, addLine_silent silent]
      exact ih image

end CodeImage

/-- Lines whose instructions are the same at the same addresses are emitted to
the same code. -/
theorem emitCode_aligned {environment : Environment} {strings : StringPages}
    {layout layout' : Layout} {lines others : List Line} {natives : NativeTable} {code : CodeImage}
    (hAligned : Aligned (lines.zip layout.addresses.toList) (others.zip layout'.addresses.toList))
    (hLength : layout'.codeLength = layout.codeLength)
    (h : emitCode environment strings layout lines natives = .ok code) :
    emitCode environment strings layout' others natives = .ok code := by
  rw [emitCode] at h ⊢
  cases hLines : CodeImage.addAll environment strings (lines.zip layout.addresses.toList)
      ⟨#[], natives⟩ with
  | error fault =>
      rw [hLines] at h
      cases h
  | ok image =>
      have hOthers := (CodeImage.addAll_aligned hAligned ⟨#[], natives⟩).eq_ok hLines
      rw [hLines] at h
      rw [hOthers, hLength]
      exact h

/-- A unit keeps its script when it is rewritten. -/
theorem assemble_rewritten {source : NativeSource} {options : Options}
    {statements others : List Statement}
    {script : Script} (hLines : Rewritten .code (scopeLines statements) (scopeLines others))
    (h : assemble source options statements = .ok script) :
    assemble source options others = .ok script := by
  obtain ⟨unit⟩ := assemble_ok h
  obtain ⟨references, hData, hReferences⟩ := collectData_rewritten hLines unit.collected
  obtain ⟨layout, hLayout, hLabels, hLength, hAligned⟩ :=
    layoutCode_retraced (LayoutState.addAll_rewritten hLines ⟨rfl, rfl, rfl⟩) unit.laidOut
  have hImage := (resolveReferences_alike hReferences unit.data.image).eq_ok unit.resolved
  have hCode := emitCode_aligned hAligned hLength unit.emitted
  refine Assembled.assemble_eq_ok ⟨{ unit.data with references := references }, layout,
    unit.strings, unit.image, unit.code, hData, hLayout, ?_, ?_, ?_, unit.linked⟩
  · rw [hLength]
    exact unit.reachable
  · rw [hLabels]
    exact hImage
  · rw [hLabels]
    exact hCode

end ScriptBackend.Assembly
