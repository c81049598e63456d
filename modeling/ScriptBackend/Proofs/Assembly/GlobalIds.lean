import ScriptBackend.Proofs.Assembly.ArtifactBounds
import ScriptBackend.Proofs.Assembly.WordLabels

/-!
What the id of a global tells. Below the limit of a block an id is made of the
number of the block and the offset in it, and tells both. A block may be full,
however, and a label may stand behind its last word: the offset there has one
bit more than an id has for it, and falls on the lowest bit of the number.
-/
namespace ScriptBackend

/-- An id has the block above the offset. -/
theorem globalId_eq (block : UInt8) {offset : Nat} (h : offset < globalsLimit) :
    globalId block offset = block.toNat * globalsLimit + offset := by
  rw [globalId, ← Nat.shiftLeft_add_eq_or_of_lt h, Nat.shiftLeft_eq]
  rfl

/-- An id of a global tells its block and its offset. -/
theorem globalId_parts (block : UInt8) {offset : Nat} (h : offset < globalsLimit) :
    globalId block offset / globalsLimit = block.toNat ∧
    globalId block offset % globalsLimit = offset := by
  rw [globalId_eq block h]
  unfold globalsLimit at h ⊢
  omega

/-- The end of a full block has the id of the first word of a block with an odd
number. -/
theorem globalId_end (block : UInt8) : globalId block globalsLimit = globalId (block ||| 1) 0 := by
  rw [globalId, globalId, UInt8.toNat_or, Nat.shiftLeft_or_distrib, Nat.or_zero]
  rfl

/-- The lowest bit of an even number is free, so that setting it adds one. -/
theorem toNat_or_one (block : UInt8) :
    (block ||| 1).toNat = block.toNat + (1 - block.toNat % 2) := by
  have hHalf : (block.toNat ||| 1) / 2 = block.toNat / 2 := by rw [Nat.or_div_two, Nat.or_zero]
  have hOdd : (block.toNat ||| 1) % 2 = 1 := Nat.or_mod_two_eq_one.mpr (.inr rfl)
  rw [UInt8.toNat_or]
  change block.toNat ||| 1 = _
  omega

/-- Two words of a block have one id only if they are the first word and the end
of a full block with an odd number. -/
theorem globalId_eq_iff (block : UInt8) {first second : Nat} (hFirst : first ≤ globalsLimit)
    (hSecond : second ≤ globalsLimit) :
    globalId block first = globalId block second ↔
      first = second ∨ block.toNat % 2 = 1 ∧ first % globalsLimit = second % globalsLimit := by
  have hId : ∀ offset ≤ globalsLimit, globalId block offset =
      block.toNat * globalsLimit +
        if offset = globalsLimit then (1 - block.toNat % 2) * globalsLimit else offset := by
    intro offset hOffset
    split
    · next hEnd =>
        rw [hEnd, globalId_end, globalId_eq _ (by decide), toNat_or_one, Nat.add_mul, Nat.add_zero]
    · next hInside => exact globalId_eq block (Nat.lt_of_le_of_ne hOffset hInside)
  rw [hId first hFirst, hId second hSecond]
  unfold globalsLimit at hFirst hSecond ⊢
  split <;> split <;> omega

namespace Assembly

/-- A label stands in a block of globals, behind a number of words. -/
def LabelsGlobal (lines : List Line) (name : String) (block : UInt8) (offset : Nat) : Prop :=
  ∃ i line, lines[i]? = some line ∧ line.segment = .globals block ∧ line.label = some name ∧
    wordOffset .globals lines i = offset

section Units

variable {source : NativeSource} {options : Options} {statements : List Statement} {script : Script}

/-- A label of globals stands in the one block of the script, at most behind its
last word. -/
theorem Assembled.bounds_of_labelsGlobal
    (unit : Assembled source options statements script) {name : String}
    {block : UInt8} {offset : Nat} (h : LabelsGlobal (scopeLines statements) name block offset) :
    script.globalsBlock = some block ∧ block.toNat < blockLimit ∧ offset ≤ script.globalsLength ∧
      script.globalsLength ≤ globalsLimit := by
  obtain ⟨i, line, hLine, hSegment, _, rfl⟩ := h
  have hMem := List.mem_of_getElem? hLine
  have hBlock : script.globalsBlock = unit.image.block := congrArg Script.globalsBlock unit.linked
  have hLength : script.globalsLength = (wordSources .globals (scopeLines statements)).length := by
    rw [← unit.holdsData.sizes .globals]
    exact congrArg Script.globalsLength unit.linked
  obtain ⟨_, _, hAdd⟩ := unit.exists_add hMem
  refine ⟨hBlock.trans (unit.holdsData.block line hMem block hSegment),
    Collection.block_lt_of_add hAdd hSegment, ?_, unit.withinLimits.globalsLength⟩
  rw [hLength]
  exact wordOffset_le ..

/-- A label of globals has the id of its block and its offset for its value. -/
theorem Assembled.symbol_of_labelsGlobal
    (unit : Assembled source options statements script) {name : String}
    {block : UInt8} {offset : Nat} (h : LabelsGlobal (scopeLines statements) name block offset) :
    ∃ words, unit.data.symbols.data[name]? =
      some ⟨.globals block, globalId block offset, words⟩ := by
  obtain ⟨i, line, hLine, hSegment, hLabel, rfl⟩ := h
  have hRegion : line.segment.region? = some .globals := by
    rw [hSegment]
    rfl
  obtain ⟨words, _, hSymbol⟩ := unit.wordSymbol hLine hLabel hRegion
  rw [hSegment] at hSymbol
  exact ⟨words, hSymbol⟩

end Units

/-- What the values of the labels in a block of globals tell, up to the end of
the block. Each of them tells the block and the offset of its label, save at the
end of a full block. There the value is that of the first word of a block with
an odd number. So two labels have one value when they stand at one offset, or at
both ends of a full block whose number is odd. -/
theorem globals_identified {source : NativeSource} {options : Options}
    {statements : List Statement} {script : Script}
    (h : assemble source options statements = .ok script) :
    ∃ unit : Assembled source options statements script,
      (∀ name block offset, LabelsGlobal (scopeLines statements) name block offset →
        script.globalsBlock = some block ∧ block.toNat < blockLimit ∧
        offset ≤ script.globalsLength ∧ script.globalsLength ≤ globalsLimit ∧
        (∃ words, unit.data.symbols.data[name]? =
          some ⟨.globals block, globalId block offset, words⟩) ∧
        (offset < globalsLimit →
          globalId block offset / globalsLimit = block.toNat ∧
          globalId block offset % globalsLimit = offset) ∧
        (offset = globalsLimit → globalId block offset = globalId (block ||| 1) 0)) ∧
      ∀ first second block other offset offset',
        LabelsGlobal (scopeLines statements) first block offset →
        LabelsGlobal (scopeLines statements) second other offset' →
        (globalId block offset = globalId other offset' ↔
          offset = offset' ∨ block.toNat % 2 = 1 ∧
          offset % globalsLimit = offset' % globalsLimit) := by
  obtain ⟨unit⟩ := assemble_ok h
  refine ⟨unit, fun name block offset hLabel => ?_,
    fun first second block other offset offset' hFirst hSecond => ?_⟩
  · obtain ⟨hBlock, hSmall, hInside, hFits⟩ := unit.bounds_of_labelsGlobal hLabel
    refine ⟨hBlock, hSmall, hInside, hFits, unit.symbol_of_labelsGlobal hLabel,
      globalId_parts block, ?_⟩
    rintro rfl
    exact globalId_end block
  · obtain ⟨hBlock, _, hInside, hFits⟩ := unit.bounds_of_labelsGlobal hFirst
    obtain ⟨hOther, _, hInside', _⟩ := unit.bounds_of_labelsGlobal hSecond
    obtain rfl : block = other := Option.some.inj (hBlock.symm.trans hOther)
    exact globalId_eq_iff block (hInside.trans hFits) (hInside'.trans hFits)

/-- A unit with a block of globals, which has labels at both of its ends. -/
def blockUnit (count : UInt32) : List Statement := [
  .ofDirective (.segment (.globals 1)),
  { Statement.ofDirective (.zero count) with label := some "first" },
  .ofLabel "behind"]

/-- A new label in front of words is noted with the offset at which it stands. -/
theorem Collection.noteLabel_of_fresh (collection : Collection) (line : Line) {label : String}
    (hLabel : line.label = some label) (hWords : line.segment.holdsWords = true)
    (hFresh : (collection.symbols.contains label || collection.labelled.contains label) = false) :
    collection.noteLabel line = .ok { collection with
      labels := collection.labels.push ⟨line.segment, label, collection.image.size line.segment⟩
      labelled := collection.labelled.insert label } := by
  simp [Collection.noteLabel, hLabel, hWords, hFresh]

/-- What the lines of the unit add up to. -/
theorem addAll_block (count : UInt32) :
    ∃ collected, Collection.empty.addAll (scopeLines (blockUnit count)) = .ok collected ∧
      collected.image = { DataImage.empty with
        block := some 1, globals := #[] ++ Array.replicate count.toNat .zero } ∧
      collected.strings = .empty ∧ collected.natives = .empty ∧ collected.pending = #[] := by
  let block : Collection :=
    { Collection.empty with image := { DataImage.empty with block := some 1 } }
  let full : Collection := { block with
    image := { block.image with globals := #[] ++ Array.replicate count.toNat .zero }
    labels := #[⟨.globals 1, "first", 0⟩]
    labelled := block.labelled.insert "first" }
  have hFirst : (Symbols.empty.contains "first" || block.labelled.contains "first") = false := by
    simp [Symbols.contains, Symbols.empty, block, Collection.empty]
  have hBehind : (Symbols.empty.contains "behind" || full.labelled.contains "behind") = false := by
    simp [Symbols.contains, Symbols.empty, full, block, Collection.empty]
  let zeros : Line :=
    ⟨{ Statement.ofDirective (.zero count) with label := some "first" }, .globals 1,
      some "first", none⟩
  let last : Line := ⟨.ofLabel "behind", .globals 1, some "behind", none⟩
  have hZeros : block.add zeros = .ok full := by
    have hNoted := block.noteLabel_of_fresh zeros rfl rfl hFirst
    exact Outcome.bind_eq_ok.mpr ⟨_, rfl, Outcome.bind_eq_ok.mpr ⟨_, hNoted, rfl⟩⟩
  have hEnd : full.add last = .ok { full with
      labels := full.labels.push ⟨.globals 1, "behind", full.image.globals.size⟩
      labelled := full.labelled.insert "behind" } := by
    have hNoted := full.noteLabel_of_fresh last rfl rfl hBehind
    exact Outcome.bind_eq_ok.mpr ⟨_, rfl, Outcome.bind_eq_ok.mpr ⟨_, hNoted, rfl⟩⟩
  exact ⟨_, (Collection.addAll_cons rfl).trans
    ((Collection.addAll_cons hZeros).trans (Collection.addAll_cons hEnd)), rfl, rfl, rfl, rfl⟩

theorem assemble_block {count : UInt32} (h : count.toNat ≤ globalsLimit) :
    ∃ script, assemble NativeDatabase.empty .default (blockUnit count) = .ok script := by
  obtain ⟨collected, hAll, hImage, hStrings, hNatives, hPending⟩ := addAll_block count
  have hData : ∃ symbols, collectData (scopeLines (blockUnit count)) =
      .ok ⟨collected.image, [], symbols, .empty, .empty⟩ := by
    have hFits : Collection.checkCapacity collected.image = .ok () :=
      Collection.checkCapacity_of_fits (by simp [hImage, DataImage.empty, staticLimit])
        (by simpa [hImage] using h)
    rw [collectData, hAll]
    dsimp only [bind, Except.bind]
    rw [hFits, hPending, hStrings, hNatives]
    exact ⟨_, rfl⟩
  obtain ⟨symbols, hData⟩ := hData
  have hReach : 0 ≤ codeLimit := by decide
  let unit : Assembled NativeDatabase.empty .default (blockUnit count) _ :=
    ⟨_, ⟨Table.empty, #[none, none, none], 0⟩, .empty, collected.image, _, hData, rfl,
      hReach, rfl, rfl, rfl⟩
  exact ⟨_, unit.assemble_eq_ok⟩

/-- The second label of the unit stands behind as many words as the block in
front of it has. -/
theorem labelsGlobal_behind (count : UInt32) :
    LabelsGlobal (scopeLines (blockUnit count)) "behind" 1 count.toNat := by
  refine ⟨2, _, rfl, rfl, rfl, ?_⟩
  show ([] ++ (List.replicate count.toNat (none : Option WordSource) ++ [])).length = _
  simp

/-- The labels at both ends of a full block of number one have the same value. -/
theorem globals_identified_full :
    ∃ script, assemble NativeDatabase.empty .default (blockUnit 0x40000) = .ok script ∧
      ∃ unit : Assembled NativeDatabase.empty .default (blockUnit 0x40000) script,
        LabelsGlobal (scopeLines (blockUnit 0x40000)) "first" 1 0 ∧
        LabelsGlobal (scopeLines (blockUnit 0x40000)) "behind" 1 globalsLimit ∧
        ∃ first behind, unit.data.symbols.data["first"]? = some first ∧
          unit.data.symbols.data["behind"]? = some behind ∧ first.value = behind.value := by
  have hCount : (0x40000 : UInt32).toNat ≤ globalsLimit := by decide
  obtain ⟨script, hScript⟩ := assemble_block hCount
  obtain ⟨unit, hLabels, hSame⟩ := globals_identified hScript
  have hFirst : LabelsGlobal (scopeLines (blockUnit 0x40000)) "first" 1 0 :=
    ⟨1, _, rfl, rfl, rfl, rfl⟩
  have hBehind : LabelsGlobal (scopeLines (blockUnit 0x40000)) "behind" 1 globalsLimit :=
    labelsGlobal_behind 0x40000
  obtain ⟨_, _, _, _, ⟨_, hFirstSymbol⟩, _⟩ := hLabels _ _ _ hFirst
  obtain ⟨_, _, _, _, ⟨_, hBehindSymbol⟩, _⟩ := hLabels _ _ _ hBehind
  refine ⟨script, hScript, unit, hFirst, hBehind, _, _, hFirstSymbol, hBehindSymbol, ?_⟩
  exact (hSame _ _ _ _ _ _ hFirst hBehind).mpr (.inr ⟨rfl, rfl⟩)

end Assembly
end ScriptBackend
