import ScriptBackend.Proofs.Assembly.Mnemonics
import ScriptBackend.Proofs.Assembly.Repetitions

/-!
Which natives the code calls. The table is filled in two passes: the natives
that a unit includes come first, then those that its code uses, each at its
first use. An entry is never moved, so an index that was given early is still
right when the script is finished.
-/
namespace ScriptBackend.Assembly

open Outcome

def includedHash? (lines : List Line) (label : String) : Option UInt64 :=
  lines.findSome? fun line => if line.label = some label then line.native? else none

/-- The hash that the native operand of a line denotes: itself, that of the
included native whose label it is, or that of the native of this name. -/
def Line.nativeHash? (source : NativeSource) (lines : List Line) (line : Line) :
    Operand → Option UInt64
  | .int hash => some hash.toUInt64
  | .name name =>
    (includedHash? lines (line.qualify name)).or ((source.named? name).map NativeEntry.hash)
  | _ => none

/-- The hash that the third operand of a primitive denotes, if the primitive
calls a native. -/
def Located.nativeHash? (source : NativeSource) (lines : List Line) (located : Located) :
    Option UInt64 :=
  if located.primitive.opcode.format = .native then
    located.primitive.operands[2]?.bind (located.line.nativeHash? source lines)
  else
    none

/-- A hash that is included under a name stands on one of the lines. -/
theorem includedHash?_eq_some {lines : List Line} {label : String} {hash : UInt64}
    (h : includedHash? lines label = some hash) :
    ∃ line ∈ lines, line.label = some label ∧ line.native? = some hash := by
  obtain ⟨line, hLine, hHash⟩ := List.exists_of_findSome?_eq_some h
  split at hHash
  · next hLabel => exact ⟨line, hLine, hLabel, hHash⟩
  · cases hHash

theorem includedHash?_eq_none {lines : List Line} {label : String}
    (h : includedHash? lines label = none)
    {line : Line} (hLine : line ∈ lines) (hLabel : line.label = some label) :
    line.native? = none := by
  have hNone := List.findSome?_eq_none_iff.mp h line hLine
  rwa [if_pos hLabel] at hNone

/-! Names -/

/-- What the labels of the included natives stand for: places in the table. -/
structure KnowsIncluded (lines : List Line) (symbols : Symbols) (natives : NativeTable) : Prop where
  stored : ∀ (name : String) symbol, symbols.data[name]? = some symbol → symbol.segment = .natives →
    ∃ hash, includedHash? lines name = some hash ∧ natives.hashes[symbol.value]? = some hash
  others : ∀ (name : String),
    (∀ symbol, symbols.data[name]? = some symbol → symbol.segment ≠ .natives) →
    includedHash? lines name = none

/-- An entry stays in its place when others come behind it. -/
theorem getElem?_of_prefix {hashes more : List UInt64} (h : hashes <+: more)
    {index : Nat} {hash : UInt64}
    (hIndex : hashes[index]? = some hash) : more[index]? = some hash := by
  obtain ⟨rest, rfl⟩ := h
  rw [List.getElem?_append_left (List.getElem?_eq_some_iff.mp hIndex).1, hIndex]

/-- Natives that come behind the included ones do not change their indices. -/
theorem KnowsIncluded.mono {lines : List Line} {symbols : Symbols} {natives next : NativeTable}
    (h : KnowsIncluded lines symbols natives) (hNext : natives.hashes <+: next.hashes) :
    KnowsIncluded lines symbols next where
  stored name symbol hSymbol hSegment := by
    obtain ⟨hash, hHash, hIndex⟩ := h.stored name symbol hSymbol hSegment
    exact ⟨hash, hHash, getElem?_of_prefix hNext hIndex⟩
  others := h.others

namespace Collection

variable {lines : List Line} {line : Line} {collection next : Collection}

/-- A line that is taken is behind those before it. -/
theorem addAll_cons {rest : List Line} (h : collection.add line = .ok next) :
    collection.addAll (line :: rest) = next.addAll rest := by
  rw [addAll, h]

/-- Every line of a unit that is collected was taken. -/
theorem exists_add_of_mem (h : collection.addAll lines = .ok next) (hLine : line ∈ lines) :
    ∃ before after : Collection, before.add line = .ok after := by
  induction lines generalizing collection with
  | nil => cases hLine
  | cons first rest ih =>
      rw [addAll] at h
      split at h
      · cases h
      · next middle hMiddle =>
          rcases List.mem_cons.mp hLine with rfl | hLater
          · exact ⟨collection, middle, hMiddle⟩
          · exact ih h hLater

theorem segment_of_text {text : String}
    (hContent : line.statement.content = .directive (.text text))
    (h : collection.add line = .ok next) : line.segment = .strings := by
  obtain ⟨entered, _, h⟩ := bind_eq_ok.mp h
  obtain ⟨noted, _, h⟩ := bind_eq_ok.mp h
  simp only [addContent, hContent, addDirective, addText] at h
  split at h
  · assumption
  · cases h

theorem segment_of_native (hNative : line.native?.isSome) (h : collection.add line = .ok next) :
    line.segment = .natives := by
  rcases add_native h with ⟨hNone, _⟩ | ⟨hSegment, _⟩
  · rw [hNone] at hNative
    cases hNative
  · exact hSegment

end Collection

/-- Definitions of one name are the same when the names are distinct. -/
theorem eq_of_dataNames {lines : List Line} (hNames : (dataNames lines).Nodup)
    {first second : Definition}
    (hFirst : first ∈ lines.flatMap Line.definitions)
    (hSecond : second ∈ lines.flatMap Line.definitions)
    (hSame : first.name = second.name) : first = second :=
  List.inj_on_of_nodup_map hNames hFirst hSecond hSame

/-- The definition of the label of an included native. -/
theorem Line.mem_contentDefinitions_of_native {line : Line} {label : String}
    (hLabel : line.label = some label)
    (hNative : line.native?.isSome) : ⟨.entry, label⟩ ∈ line.contentDefinitions := by
  unfold native? at hNative
  split at hNative
  · next hash hContent => simp [contentDefinitions, hContent, Directive.definitions, hLabel]
  · cases hNative

/-- A definition of words is the label of a line among words. -/
theorem Line.of_words_mem_definitions {line : Line} {name : String}
    (h : ⟨.words, name⟩ ∈ line.definitions) :
    ⟨.words, name⟩ ∈ line.wordDefinitions ∧ line.segment.holdsWords = true := by
  rw [definitions, List.mem_append] at h
  have hOwn : ⟨.words, name⟩ ∈ line.wordDefinitions := h.resolve_right fun hContent => by
    unfold contentDefinitions at hContent
    split at hContent
    · next directive _ => cases directive <;> simp [Directive.definitions] at hContent
    · cases hContent
  refine ⟨hOwn, ?_⟩
  unfold wordDefinitions at hOwn
  split at hOwn
  · assumption
  · cases hOwn

/-- A definition of an entry is the label of a string or an included native. -/
theorem Line.of_entry_mem_definitions {line : Line} {name : String}
    (h : ⟨.entry, name⟩ ∈ line.definitions) :
    ⟨.entry, name⟩ ∈ line.contentDefinitions ∧ line.label = some name := by
  rw [definitions, List.mem_append] at h
  have hOwn : ⟨.entry, name⟩ ∈ line.contentDefinitions := h.resolve_left fun hWords => by
    unfold wordDefinitions at hWords
    split at hWords <;> simp at hWords
  refine ⟨hOwn, ?_⟩
  unfold contentDefinitions at hOwn
  split at hOwn
  · next directive _ => cases directive <;> simp_all [Directive.definitions]
  · cases hOwn

theorem Line.mem_definitions_of_content {lines : List Line} {line : Line} (hLine : line ∈ lines)
    {definition : Definition} (h : definition ∈ line.contentDefinitions) :
    definition ∈ lines.flatMap Line.definitions :=
  List.mem_flatMap.mpr ⟨line, hLine, List.mem_append_right _ h⟩

namespace Assembled

variable {source : NativeSource} {options : Options} {statements : List Statement} {script : Script}

/-- Each line of an assembled unit was taken at some point. -/
theorem exists_add (unit : Assembled source options statements script) {line : Line}
    (hLine : line ∈ scopeLines statements) :
    ∃ before after : Collection, before.add line = .ok after := by
  obtain ⟨_, hCollected, _⟩ := collectData_collected unit.collected
  exact Collection.exists_add_of_mem hCollected hLine

/-- An included native is found under its label. -/
theorem included (unit : Assembled source options statements script)
    {line : Line} (hLine : line ∈ scopeLines statements) {label : String}
    (hLabel : line.label = some label) {hash : UInt64} (hNative : line.native? = some hash)
    (hFree : ⟨.words, label⟩ ∉ (scopeLines statements).flatMap Line.definitions) :
    ∃ index, unit.data.natives.hashes[index]? = some hash ∧
      unit.data.symbols.data[label]? = some ⟨.natives, index, 0⟩ := by
  have hSome : line.native?.isSome := by rw [hNative]; rfl
  obtain ⟨_, _, hAdd⟩ := unit.exists_add hLine
  obtain ⟨value, hEntry, hValue⟩ :=
    unit.defines.entries line hLine label (Line.mem_contentDefinitions_of_native hLabel hSome) hFree
  rw [Collection.segment_of_native hSome hAdd] at hValue
  cases hEntry with
  | text text content stored => simp [Line.native?, content] at hNative
  | native other content included =>
      simp only [Line.native?, content, Option.some.injEq] at hNative
      exact ⟨value, hNative ▸ NativeTable.index?_eq_some_iff.mp included, hValue⟩

/-- A label of words stands for words. -/
theorem segment_of_words (unit : Assembled source options statements script) {name : String}
    (h : ⟨.words, name⟩ ∈ (scopeLines statements).flatMap Line.definitions) {symbol : DataSymbol}
    (hSymbol : unit.data.symbols.data[name]? = some symbol) : symbol.segment.holdsWords = true := by
  obtain ⟨line, hLine, hDefinition⟩ := List.mem_flatMap.mp h
  obtain ⟨i, hi⟩ := List.getElem?_of_mem hLine
  obtain ⟨hOwn, hWords⟩ := Line.of_words_mem_definitions hDefinition
  obtain ⟨region, hRegion⟩ := Collection.region?_of_holdsWords hWords
  obtain ⟨words, hFound⟩ := unit.defines.words i line name hi hOwn region hRegion
  rw [hFound] at hSymbol
  cases hSymbol
  exact hWords

/-- Before any code is encoded the table has the included natives. -/
theorem natives_included (unit : Assembled source options statements script) :
    unit.data.natives.hashes = nativeHashes (scopeLines statements) ∧
      unit.data.natives.hashes.length ≤ NativeTable.limit := by
  refine ⟨(collectData_ok unit.collected).2, ?_⟩
  obtain ⟨collected, hCollected, _, _, hNatives⟩ := collectData_collected unit.collected
  rw [hNatives]
  exact Collection.addAll_natives_length hCollected (Nat.zero_le _)

/-- The script stores the table rotated by the length of its own code. -/
theorem natives_eq (unit : Assembled source options statements script) :
    script.natives = unit.code.natives.rotated script.codeLength := by
  have hNatives := congrArg Script.natives unit.linked
  rw [congrArg Script.codeLength unit.linked]
  exact hNatives

/-- Stored hashes are turned back to those that were collected, index by index. -/
theorem nativeHash?_eq (unit : Assembled source options statements script) (index : Nat) :
    script.nativeHash? index = unit.code.natives.hashes[index]? := by
  rw [Script.nativeHash?, unit.natives_eq, NativeTable.getElem?_rotated]

/-- The label of an included native stands for its place in the table. -/
theorem included_of_symbol (unit : Assembled source options statements script) {name : String}
    {symbol : DataSymbol}
    (hSymbol : unit.data.symbols.data[name]? = some symbol) (hSegment : symbol.segment = .natives) :
    ∃ hash, includedHash? (scopeLines statements) name = some hash ∧
      unit.data.natives.hashes[symbol.value]? = some hash := by
  have hWords : ⟨.words, name⟩ ∉
      (scopeLines statements).flatMap Line.definitions := fun hWords => by
    have hHolds := unit.segment_of_words hWords hSymbol
    rw [hSegment] at hHolds
    cases hHolds
  obtain ⟨line, hLine, hDefinition⟩ :=
    List.mem_flatMap.mp ((unit.definition_of_symbol hSymbol).resolve_right hWords)
  obtain ⟨hOwn, hLabel⟩ := Line.of_entry_mem_definitions hDefinition
  obtain ⟨value, hEntry, hValue⟩ := unit.defines.entries line hLine name hOwn hWords
  have hLineSegment : line.segment = .natives := by
    rw [hSymbol, Option.some.injEq] at hValue
    rw [← hSegment, hValue]
  obtain ⟨_, _, hAdd⟩ := unit.exists_add hLine
  have hNative : line.native?.isSome := by
    cases hEntry with
    | text text content stored =>
        rw [Collection.segment_of_text content hAdd] at hLineSegment
        cases hLineSegment
    | native hash content included => simp [Line.native?, content]
  cases hIncluded : includedHash? (scopeLines statements) name with
  | none =>
      rw [includedHash?_eq_none hIncluded hLine hLabel] at hNative
      cases hNative
  | some hash =>
      obtain ⟨first, hFirst, hFirstLabel, hFirstNative⟩ := includedHash?_eq_some hIncluded
      obtain ⟨index, hIndex, hFirstSymbol⟩ := unit.included hFirst hFirstLabel hFirstNative hWords
      rw [hFirstSymbol] at hSymbol
      cases hSymbol
      exact ⟨hash, rfl, hIndex⟩

/-- The labels of the included natives of an assembled unit stand for their
places in the table, unless one of them stands in front of words too. -/
theorem knowsIncluded_of_apart (unit : Assembled source options statements script)
    (hApart : ∀ name, ⟨.entry, name⟩ ∈ (scopeLines statements).flatMap Line.definitions →
      ⟨.words, name⟩ ∉ (scopeLines statements).flatMap Line.definitions) :
    KnowsIncluded (scopeLines statements) unit.data.symbols unit.data.natives where
  stored _ _ hSymbol hSegment := unit.included_of_symbol hSymbol hSegment
  others name hOthers := by
    cases hIncluded : includedHash? (scopeLines statements) name with
    | none => rfl
    | some hash =>
        obtain ⟨line, hLine, hLabel, hNative⟩ := includedHash?_eq_some hIncluded
        have hEntry := Line.mem_definitions_of_content hLine
          (Line.mem_contentDefinitions_of_native hLabel (by rw [hNative]; rfl))
        obtain ⟨index, _, hSymbol⟩ := unit.included hLine hLabel hNative (hApart name hEntry)
        exact absurd rfl (hOthers _ hSymbol)

/-- Each included native is known by its label and has the index of its line. -/
theorem knowsIncluded (unit : Assembled source options statements script)
    (hNames : (dataNames (scopeLines statements)).Nodup) :
    KnowsIncluded (scopeLines statements) unit.data.symbols unit.data.natives :=
  unit.knowsIncluded_of_apart fun _ hEntry hWords => by
    cases eq_of_dataNames hNames hEntry hWords rfl

end Assembled

/-! Indices -/

namespace Environment

variable {environment : Environment} {lines : List Line} {line : Line} {opcode : Opcode}
  {operand : Operand} {natives later : NativeTable}

/-- What a native operand is found to be is its hash, or the place of its hash. -/
theorem native_ok (hKnown : KnowsIncluded lines environment.symbols natives) {found : Nat ⊕ UInt64}
    (h : environment.native line opcode operand = .ok found) :
    ∃ hash, line.nativeHash? environment.source lines operand = some hash ∧
      (found = .inr hash ∨ ∃ index, found = .inl index ∧ natives.hashes[index]? = some hash) := by
  cases operand with
  | int hash =>
      cases h
      exact ⟨_, rfl, .inl rfl⟩
  | name name =>
      -- a name that no included native has is looked up among the natives of the target
      have hTarget : ∀ entry, environment.source.named? name = some entry →
          includedHash? lines (line.qualify name) = none →
          line.nativeHash? environment.source lines (.name name) = some entry.hash := by
        intro entry hEntry hNone
        rw [Line.nativeHash?, hNone, hEntry]
        rfl
      simp only [native] at h
      split at h
      · next symbol hSymbol =>
          split at h
          · next hSegment =>
              cases h
              obtain ⟨hash, hHash, hIndex⟩ := hKnown.stored _ symbol hSymbol hSegment
              exact ⟨hash, by rw [Line.nativeHash?, hHash]; rfl, .inr ⟨symbol.value, rfl, hIndex⟩⟩
          · next hSegment =>
              split at h
              · next entry hEntry =>
                  cases h
                  refine ⟨entry.hash, hTarget entry hEntry (hKnown.others _ fun other hOther => ?_),
                    .inl rfl⟩
                  rw [hSymbol, Option.some.injEq] at hOther
                  exact hOther ▸ hSegment
              · cases h
      · next hNone =>
          split at h
          · next entry hEntry =>
              cases h
              refine ⟨entry.hash, hTarget entry hEntry (hKnown.others _ fun other hOther => ?_),
                .inl rfl⟩
              rw [hNone] at hOther
              cases hOther
          · cases h
  | _ => cases h

/-- The index of a native operand is the place of its hash, which is in the
table from then on. -/
theorem nativeIndex_ok (hKnown : KnowsIncluded lines environment.symbols natives) {index : Nat}
    (h : environment.nativeIndex line opcode operand natives = .ok (index, later)) :
    ∃ hash, line.nativeHash? environment.source lines operand = some hash ∧
      later.hashes = natives.hashes ++ [hash].removeAll natives.hashes ∧
      later.hashes[index]? = some hash := by
  obtain ⟨found, hFound, h⟩ := bind_eq_ok.mp h
  obtain ⟨hash, hHash, rfl | ⟨place, rfl, hPlace⟩⟩ := native_ok hKnown hFound
  · dsimp only at h
    split at h
    · next hUsed =>
        cases h
        exact ⟨hash, hHash, NativeTable.addOrGet_ok hUsed⟩
    · cases h
  · cases h
    exact ⟨hash, hHash, by simp [List.removeAll, List.mem_of_getElem? hPlace], hPlace⟩

/-- Every hash in the table has an index of 16 bits. -/
theorem nativeIndex_length {index : Nat} (hSize : natives.hashes.length ≤ NativeTable.limit)
    (h : environment.nativeIndex line opcode operand natives = .ok (index, later)) :
    later.hashes.length ≤ NativeTable.limit := by
  obtain ⟨found, _, h⟩ := bind_eq_ok.mp h
  cases found with
  | inl place =>
      cases h
      exact hSize
  | inr hash =>
      dsimp only at h
      split at h
      · next hUsed =>
          cases h
          exact NativeTable.length_addOrGet_le hUsed hSize
      · cases h

/-- The entries stay in front of a new one. -/
theorem nativeIndex_prefix {index : Nat}
    (h : environment.nativeIndex line opcode operand natives = .ok (index, later)) :
    natives.hashes <+: later.hashes := by
  obtain ⟨found, _, h⟩ := bind_eq_ok.mp h
  cases found with
  | inl place =>
      cases h
      exact List.prefix_rfl
  | inr hash =>
      dsimp only at h
      split at h
      · next hUsed =>
          cases h
          exact (NativeTable.addOrGet_ok hUsed).1 ▸ List.prefix_append ..
      · cases h

/-- A call is given the index of an entry, if the labels of included natives
stand for entries. -/
theorem nativeIndex_lt {index : Nat}
    (hLabels : ∀ (name : String) symbol, environment.symbols.data[name]? = some symbol →
      symbol.segment = .natives → symbol.value < natives.hashes.length)
    (h : environment.nativeIndex line opcode operand natives = .ok (index, later)) :
    index < later.hashes.length := by
  obtain ⟨found, hFound, h⟩ := bind_eq_ok.mp h
  cases found with
  | inl place =>
      cases h
      unfold native at hFound
      dsimp only at hFound
      repeat' split at hFound
      all_goals cases hFound
      exact hLabels _ _ ‹_› ‹_›
  | inr hash =>
      dsimp only at h
      split at h
      · next hUsed =>
          cases h
          exact (List.getElem?_eq_some_iff.mp (NativeTable.addOrGet_ok hUsed).2).1
      · cases h

variable {located : Located} {bytes : List UInt8}

/-- Only the calls of natives change the table. -/
theorem operandBytes_natives (hFormat : located.primitive.opcode.format ≠ .native)
    (h : environment.operandBytes located.line located.primitive located.address natives =
      .ok (bytes, later)) :
    later = natives := by
  unfold operandBytes at h
  dsimp only at h
  split at h
  case h_7 hNative _ => exact absurd hNative hFormat
  all_goals first
    | (obtain ⟨_, _, hPair⟩ := map_eq_ok.mp h; cases hPair; rfl)
    | (cases h <;> rfl)

/-- The operands of a call of a native, with the index in its last two bytes. -/
theorem operandBytes_native
    (hSize : located.primitive.size located.line environment.options = .ok located.size)
    (hFormat : located.primitive.opcode.format = .native)
    (h : environment.operandBytes located.line located.primitive located.address natives =
      .ok (bytes, later)) :
    ∃ first second operand counts index, located.primitive.operands = [first, second, operand] ∧
      environment.nativeIndex located.line located.primitive.opcode operand natives =
        .ok (index, later) ∧
      bytes = [counts, UInt8.ofNat (index / 256), UInt8.ofNat index] := by
  obtain ⟨line, ⟨opcode, operands⟩, address, size⟩ := located
  dsimp only at hSize hFormat h ⊢
  obtain ⟨_, hCount⟩ := Primitive.size_of_fixed hSize (by rw [hFormat]; rfl)
  simp only [hFormat, OperandFormat.count?, Option.some.injEq] at hCount
  obtain ⟨first, second, operand, rfl⟩ := List.length_eq_three.mp hCount.symm
  simp only [operandBytes, hFormat] at h
  obtain ⟨arguments, _, h⟩ := bind_eq_ok.mp h
  obtain ⟨returns, _, h⟩ := bind_eq_ok.mp h
  obtain ⟨⟨index, _⟩, hIndex, h⟩ := bind_eq_ok.mp h
  cases h
  exact ⟨first, second, operand, _, index, rfl, hIndex, rfl⟩

end Environment

/-- A decoded instruction that calls the native which the primitive in its place
denotes: its index leads to the hash. -/
structure CallsNative (environment : Environment) (lines : List Line) (lookup : Nat → Option UInt64)
    (located : Located) (instruction : Instruction) (index : Nat) (hash : UInt64) : Prop where
  carries : Carries environment located instruction
  denoted : located.nativeHash? environment.source lines = some hash
  decoded : ∃ arguments returns, instruction.operands? = some (.native arguments returns index)
  stored : lookup index = some hash

/-- An index is whole in two bytes, of which the high one comes first. -/
theorem read?_native (counts : UInt8) {index : Nat} (h : index < NativeTable.limit) :
    OperandValues.read? .native [counts, UInt8.ofNat (index / 256), UInt8.ofNat index] =
      some (.native (counts.toNat / 4) (counts.toNat % 4) index) := by
  have hIndex : 256 * (UInt8.ofNat (index / 256)).toNat + (UInt8.ofNat index).toNat = index := by
    unfold NativeTable.limit at h
    rw [UInt8.toNat_ofNat', UInt8.toNat_ofNat']
    omega
  rw [OperandValues.read?, hIndex]

/-- Using one hash and then others is using all of them. -/
theorem eraseDups_removeAll_cons (hashes rest : List UInt64) (hash : UInt64) :
    hashes ++ [hash].removeAll hashes ++
      (rest.removeAll (hashes ++ [hash].removeAll hashes)).eraseDups =
      hashes ++ ((hash :: rest).removeAll hashes).eraseDups := by
  by_cases hMem : hash ∈ hashes
  · simp [List.removeAll, hMem]
  · simp [List.removeAll, hMem, List.eraseDups_cons, List.filter_filter,
      Bool.and_comm, beq_eq_decide]

/-- Encoding does not take the natives beyond their limit. -/
theorem Encodes.natives_length {environment : Environment} {natives later : NativeTable}
    {row : List Located}
    {instructions : List Instruction} {start finish : Nat}
    (hRow : Contiguous environment.options start row finish)
    (h : Encodes environment natives row instructions later)
    (hSize : natives.hashes.length ≤ NativeTable.limit) :
    later.hashes.length ≤ NativeTable.limit := by
  induction h generalizing start with
  | nil => exact hSize
  | @cons natives middle later located rest bytes instructions first others ih =>
      obtain ⟨hLocated, _, hRest⟩ := hRow
      refine ih hRest ?_
      by_cases hFormat : located.primitive.opcode.format = .native
      · obtain ⟨_, _, _, _, _, _, hIndex, _⟩ :=
          Environment.operandBytes_native hLocated hFormat first
        exact Environment.nativeIndex_length hSize hIndex
      · rwa [Environment.operandBytes_natives hFormat first]

/-- The entries stay in front of those that calls are given. -/
theorem Encodes.natives_prefix {environment : Environment} {natives later : NativeTable}
    {row : List Located}
    {instructions : List Instruction} {start finish : Nat}
    (hRow : Contiguous environment.options start row finish)
    (h : Encodes environment natives row instructions later) : natives.hashes <+: later.hashes := by
  induction h generalizing start with
  | nil => exact List.prefix_rfl
  | @cons natives middle later located rest bytes instructions first others ih =>
      obtain ⟨hLocated, _, hRest⟩ := hRow
      by_cases hFormat : located.primitive.opcode.format = .native
      · obtain ⟨_, _, _, _, _, _, hIndex, _⟩ :=
          Environment.operandBytes_native hLocated hFormat first
        exact (Environment.nativeIndex_prefix hIndex).trans (ih hRest)
      · rw [← Environment.operandBytes_natives hFormat first]
        exact ih hRest

/-- The index of every call of a native is that of an entry. -/
theorem Encodes.native_lt {environment : Environment} {natives later : NativeTable}
    {row : List Located}
    {instructions : List Instruction} {start finish : Nat}
    (hRow : Contiguous environment.options start row finish)
    (h : Encodes environment natives row instructions later)
    (hSize : natives.hashes.length ≤ NativeTable.limit)
    (hLabels : ∀ (name : String) symbol, environment.symbols.data[name]? = some symbol →
      symbol.segment = .natives → symbol.value < natives.hashes.length) :
    ∀ instruction ∈ instructions, ∀ arguments returns index,
      instruction.operands? = some (.native arguments returns index) →
      index < later.hashes.length := by
  induction h generalizing start with
  | nil => simp
  | @cons natives middle later located rest bytes instructions first others ih =>
      obtain ⟨hLocated, _, hRest⟩ := hRow
      have hLater := others.natives_prefix hRest
      by_cases hFormat : located.primitive.opcode.format = .native
      · obtain ⟨_, _, _, counts, place, _, hIndex, rfl⟩ :=
          Environment.operandBytes_native hLocated hFormat first
        have hMore := Environment.nativeIndex_prefix hIndex
        have hPlace := Environment.nativeIndex_lt hLabels hIndex
        have hMiddle := Environment.nativeIndex_length hSize hIndex
        have hOthers := ih hRest hMiddle fun name symbol hSymbol hSegment =>
          Nat.lt_of_lt_of_le (hLabels name symbol hSymbol hSegment) hMore.length_le
        refine List.forall_mem_cons.mpr ⟨fun arguments returns index hOperands => ?_, hOthers⟩
        have hRead := read?_native counts (Nat.lt_of_lt_of_le hPlace hMiddle)
        rw [Instruction.operands?, hFormat, hRead] at hOperands
        cases hOperands
        exact Nat.lt_of_lt_of_le hPlace hLater.length_le
      · obtain rfl := Environment.operandBytes_natives hFormat first
        refine List.forall_mem_cons.mpr ⟨fun arguments returns index hOperands => ?_,
          ih hRest hSize hLabels⟩
        exact absurd (OperandValues.format_of_native hOperands) hFormat

/-- The calls of natives among primitives in place: each hash that is new is put
behind those that are in the table, and every index that is given stays that of
its hash. -/
theorem Encodes.callsNative {environment : Environment} {lines : List Line}
    {natives later : NativeTable}
    {row : List Located} {instructions : List Instruction} {start finish : Nat}
    (hRow : Contiguous environment.options start row finish)
    (h : Encodes environment natives row instructions later)
    (hKnown : KnowsIncluded lines environment.symbols natives)
    (hSize : natives.hashes.length ≤ NativeTable.limit) :
    later.hashes = natives.hashes ++
        ((row.filterMap (Located.nativeHash? environment.source lines)).removeAll
          natives.hashes).eraseDups ∧
      List.Forall₂ (fun located instruction => ∃ index hash,
          CallsNative environment lines (later.hashes[·]?) located instruction index hash)
        (row.filter fun located => located.primitive.opcode.format = .native)
        (instructions.filter fun instruction => instruction.opcode.format = .native) := by
  induction h generalizing start with
  | nil => exact ⟨by simp [List.removeAll], .nil⟩
  | @cons natives middle later located rest bytes instructions first others ih =>
      have hCarries := Encodes.carries hRow (.cons first others)
      rw [List.forall₂_cons] at hCarries
      obtain ⟨hLocated, hAddress, hRest⟩ := hRow
      by_cases hFormat : located.primitive.opcode.format = .native
      · obtain ⟨a, b, operand, counts, index, hOperands, hIndex, rfl⟩ :=
          Environment.operandBytes_native hLocated hFormat first
        obtain ⟨hash, hHash, hHashes, hPlace⟩ := Environment.nativeIndex_ok hKnown hIndex
        have hMiddle := Environment.nativeIndex_length hSize hIndex
        obtain ⟨hLater, hCalls⟩ := ih hRest (hKnown.mono (hHashes ▸ List.prefix_append ..)) hMiddle
        have hDenoted : located.nativeHash? environment.source lines = some hash := by
          rw [Located.nativeHash?, if_pos hFormat, hOperands]
          exact hHash
        have hBound : index < NativeTable.limit :=
          Nat.lt_of_lt_of_le (List.getElem?_eq_some_iff.mp hPlace).1 hMiddle
        refine ⟨?_, ?_⟩
        · rw [hLater, hHashes, List.filterMap_cons_some hDenoted]
          exact eraseDups_removeAll_cons ..
        · rw [List.filter_cons_of_pos (by simpa using hFormat),
            List.filter_cons_of_pos (by simpa using hFormat)]
          have hRead := read?_native counts hBound
          rw [← hFormat] at hRead
          exact .cons ⟨index, hash, hCarries.1, hDenoted, ⟨_, _, hRead⟩,
            getElem?_of_prefix (hLater ▸ List.prefix_append ..) hPlace⟩ hCalls
      · obtain rfl := Environment.operandBytes_natives hFormat first
        obtain ⟨hLater, hCalls⟩ := ih hRest hKnown hSize
        have hNone : located.nativeHash? environment.source lines = none := by
          rw [Located.nativeHash?, if_neg hFormat]
        rw [List.filterMap_cons_none hNone, List.filter_cons_of_neg (by simpa using hFormat),
          List.filter_cons_of_neg (by simpa using hFormat)]
        exact ⟨hLater, hCalls⟩

theorem filter_nops (start count : Nat) :
    ((Instruction.nops start count).filter fun instruction =>
      instruction.opcode.format = .native) = [] :=
  List.filter_eq_nil_iff.mpr fun instruction hMem => by
    rw [(Instruction.of_mem_nops hMem).1]
    decide

/-- Padding calls no native. -/
theorem filter_padded (start : Nat) (instructions : List Instruction) :
    ((Instruction.padded start instructions).filter fun instruction =>
      instruction.opcode.format = .native) =
      instructions.filter fun instruction => instruction.opcode.format = .native := by
  induction instructions generalizing start with
  | nil => rfl
  | cons instruction rest ih =>
      rw [Instruction.padded_cons, List.filter_append, filter_nops, List.nil_append,
        List.filter_cons, List.filter_cons, ih]

/-- Every call of a native finds it. In the code of a unit whose data has no
name twice, the index of a call leads to the hash that the operand of its
primitive denotes, so that calls of one native, and only these, have one index.
Rotated back, which gives the same for every length of the code, the table has
the included natives in order, and behind them the others in the order in which
the code uses them first. -/
theorem natives_called {source : NativeSource} {options : Options}
    {statements : List Statement} {script : Script}
    (h : assemble source options statements = .ok script)
    (hNames : (dataNames (scopeLines statements)).Nodup) :
    ∃ (unit : Assembled source options statements script) (rows : List (List Located))
      (instructions : List Instruction) (natives : NativeTable),
      Arranged unit.data.symbols unit.strings options 0 (scopeLines statements) rows
        unit.layout.codeLength ∧
      Disassembly.ofCode script.code = ⟨instructions, none⟩ ∧
      Renders unit.environment 0 rows.flatten instructions ∧
      List.Forall₂ (fun located instruction => ∃ index hash,
          CallsNative unit.environment (scopeLines statements) script.nativeHash? located
            instruction index hash)
        (rows.flatten.filter fun located => located.primitive.opcode.format = .native)
        (instructions.filter fun instruction => instruction.opcode.format = .native) ∧
      (∀ first firstCode firstIndex firstHash second secondCode secondIndex secondHash,
        CallsNative unit.environment (scopeLines statements) script.nativeHash? first firstCode
          firstIndex firstHash →
        CallsNative unit.environment (scopeLines statements) script.nativeHash? second
          secondCode secondIndex secondHash →
        (firstIndex = secondIndex ↔ firstHash = secondHash)) ∧
      script.natives = natives.rotated script.codeLength ∧
      (∀ codeLength index, (natives.rotated codeLength)[index]?.map
        (fun hash => rotateLeft hash (nativeRotation index codeLength)) = natives.hashes[index]?) ∧
      natives.hashes.Nodup ∧
      natives.hashes = nativeHashes (scopeLines statements) ++
        ((rows.flatten.filterMap (Located.nativeHash? source (scopeLines statements))).removeAll
          (nativeHashes (scopeLines statements))).eraseDups := by
  obtain ⟨unit⟩ := assemble_ok h
  obtain ⟨rows, hRows, hAddresses, _, _⟩ := layoutCode_ok unit.laidOut
  obtain ⟨instructions, hEncodes, hDecoded⟩ := unit.encodes hRows hAddresses
  obtain ⟨hIncluded, hIncludedSize⟩ := unit.natives_included
  obtain ⟨hHashes, hCalls⟩ :=
    hEncodes.callsNative hRows.contiguous (unit.knowsIncluded hNames) hIncludedSize
  have hLookup : script.nativeHash? = (unit.code.natives.hashes[·]?) := funext unit.nativeHash?_eq
  rw [hIncluded] at hHashes
  refine ⟨unit, rows, Instruction.padded 0 instructions, unit.code.natives, hRows, hDecoded,
    renders_padded hRows.contiguous (hEncodes.carries hRows.contiguous), ?_, ?_, unit.natives_eq,
    unit.code.natives.getElem?_rotated, unit.code.natives.nodup_hashes, hHashes⟩
  · rw [filter_padded, hLookup]
    exact hCalls
  · intro first firstCode firstIndex firstHash second secondCode secondIndex
      secondHash hFirst hSecond
    have hFirstHash := hFirst.stored
    have hSecondHash := hSecond.stored
    rw [hLookup, ← NativeTable.index?_eq_some_iff] at hFirstHash hSecondHash
    constructor
    · rintro rfl
      rw [NativeTable.index?_eq_some_iff] at hFirstHash hSecondHash
      exact Option.some.inj (hFirstHash.symm.trans hSecondHash)
    · rintro rfl
      exact Option.some.inj (hFirstHash.symm.trans hSecondHash)

/-- The code of a function that calls the native with a given label, and another
one twice by its hash. -/
def callCode : List Statement := [
  { Statement.ofInstruction "ENTER" [.int 0, .int 2] with label := some "main" },
  .ofInstruction "NATIVE" [.int 0, .int 1, .int 0x1234],
  .ofInstruction "PUSH_CONST" [.name "greeting"],
  .ofInstruction "STRING" [],
  .ofInstruction "NATIVE" [.name "COUNT", .int 0, .name "wait"],
  .ofInstruction "NATIVE" [.int 0, .int 1, .int 0x1234],
  .ofInstruction "LEAVE" [.int 0, .int 1]]

/-- A unit with data, a string and two included natives, of which the code calls
the second one. The native that it calls by its hash gets the index behind the
included ones. -/
def callUnit : List Statement := [
  .ofDirective (.const "COUNT" (.int 1)),
  .ofDirective (.segment .natives),
  { Statement.ofDirective (.native 0x4EDE34FBADD967A6) with label := some "print" },
  { Statement.ofDirective (.native 0x4EDE34FBADD967A5) with label := some "wait" },
  .ofDirective (.segment .strings),
  { Statement.ofDirective (.text "hello") with label := some "greeting" },
  .ofDirective (.segment .statics),
  { Statement.ofDirective (.ints [.name "main", .int 7]) with label := some "entry" },
  .ofDirective (.segment .code)] ++ callCode

/-- The natives of the unit in the order of the table: the included ones, then
those of the code by first use. -/
theorem assemble_call : ∃ script, assemble NativeDatabase.empty .default callUnit = .ok script ∧
    (List.range 4).map script.nativeHash? =
      [some 0x4EDE34FBADD967A6, some 0x4EDE34FBADD967A5, some 0x1234, none] :=
  exists_of_any (by decide +kernel)

/-- The three natives of the unit have their indices, and no others are in its
table: the two that the unit includes in their order, then the one that only its
code uses. -/
theorem natives_called_included :
    (dataNames (scopeLines callUnit)).Nodup ∧
      ∃ (script : Script) (natives : NativeTable),
        assemble NativeDatabase.empty .default callUnit = .ok script ∧
        script.natives = natives.rotated script.codeLength ∧
        natives.hashes.take 2 = [0x4EDE34FBADD967A6, 0x4EDE34FBADD967A5] ∧
        script.nativeHash? 2 = some 0x1234 := by
  have hNames : (dataNames (scopeLines callUnit)).Nodup := by decide
  obtain ⟨script, hScript, hTable⟩ := assemble_call
  obtain ⟨_, _, _, natives, _, _, _, _, _, hNatives, _, _, hHashes⟩ := natives_called hScript hNames
  have hThird := congrArg (·[2]?) hTable
  refine ⟨hNames, script, natives, hScript, hNatives, ?_, Option.some.inj hThird⟩
  rw [hHashes]
  rfl

end ScriptBackend.Assembly
