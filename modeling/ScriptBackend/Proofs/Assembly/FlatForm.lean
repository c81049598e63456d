import ScriptBackend.Proofs.Assembly.ArtifactBounds
import ScriptBackend.Proofs.Text.Utf8

/-!
The flat form of a script determines the script. Nothing stands between its
sections: the header says where each of them ends, and the lengths alone say
where their pages are cut.
-/
namespace ScriptBackend

/-- Numbers within the range of their bytes are told apart by the bytes. -/
theorem Bytes.little_inj {count m n : Nat} (hFirst : m < 256 ^ count) (hSecond : n < 256 ^ count)
    (h : little count m = little count n) : m = n := by
  have hNumbers := congrArg ofLittle h
  rwa [ofLittle_little, ofLittle_little, Nat.mod_eq_of_lt hFirst,
    Nat.mod_eq_of_lt hSecond] at hNumbers

theorem Text.utf8_inj {first second : String} (h : utf8 first = utf8 second) : first = second := by
  have hCharacters := congrArg ofUtf8 h
  rwa [ofUtf8_utf8, ofUtf8_utf8, String.toList_inj] at hCharacters

/-- Items of one width that follow each other without a separator are found
again. -/
theorem Bytes.flatMap_inj {α : Type} {encode : α → List UInt8} {width : Nat}
    (hWidth : ∀ item, (encode item).length = width) :
    ∀ {first second : List α}, (∀ a ∈ first, ∀ b ∈ second, encode a = encode b → a = b) →
      first.length = second.length → first.flatMap encode = second.flatMap encode → first = second
  | [], [], _, _, _ => rfl
  | a :: first, b :: second, hEncode, hLength, h => by
      rw [List.flatMap_cons, List.flatMap_cons] at h
      obtain ⟨hItem, hRest⟩ := List.append_inj h ((hWidth a).trans (hWidth b).symm)
      have hItems := flatMap_inj hWidth
        (fun c hc d hd => hEncode c (List.mem_cons_of_mem _ hc) d (List.mem_cons_of_mem _ hd))
        (Nat.succ.inj hLength) hRest
      rw [hEncode a List.mem_cons_self b List.mem_cons_self hItem, hItems]

/-- Items of one width take that many bytes each. -/
theorem Bytes.length_flatMap {α : Type} {encode : α → List UInt8} {width : Nat}
    (hWidth : ∀ item, (encode item).length = width) (items : List α) :
    (items.flatMap encode).length = items.length * width := by
  simp [List.length_flatMap, hWidth]

namespace Script

/-- Sections whose lengths a word of the header holds. The limits of a script
bound the other sections. -/
structure SectionsFit (script : Script) : Prop where
  strings : script.stringsLength < 2 ^ 32
  name : (Text.utf8 script.name).length < 2 ^ 32

/-- A script that its flat form determines: the pages are cut where their
lengths say, and every word of the header fits. -/
structure Sectioned (script : Script) : Prop where
  codePages : script.codePages = Page.split script.code
  codeLength : script.codeLength = script.code.length
  stringPages : script.stringPages = Page.split script.strings
  stringsLength : script.stringsLength = script.strings.length
  globalsPages : script.globalsPages = Page.split script.globalsPages.flatten
  globalsLength : script.globalsLength = script.globalsPages.flatten.length
  header : ∀ word ∈ script.header, word < 256 ^ 4

theorem length_wordBytes (word : Word) : (wordBytes word).length = 8 :=
  Bytes.length_little 8 _

/-- A word is known from its eight bytes. -/
theorem wordBytes_inj {first second : Word} (h : wordBytes first = wordBytes second) :
    first = second := by
  have hBits := Bytes.little_inj (first.bits.toNat_lt) (second.bits.toNat_lt) h
  cases first
  cases second
  exact congrArg Word.mk (UInt64.toNat_inj.mp hBits)

/-- A block number is a byte, so that the word for a script without globals
stands for nothing else. -/
theorem blockWord_inj {first second : Option UInt8}
    (h : (first.map UInt8.toNat).getD 0xFFFFFFFF = (second.map UInt8.toNat).getD 0xFFFFFFFF) :
    first = second := by
  cases first with
  | none =>
      cases second with
      | none => rfl
      | some block =>
          have hByte := block.toNat_lt
          simp only [Option.map_none, Option.map_some, Option.getD_none, Option.getD_some] at h
          omega
  | some block =>
      have hByte := block.toNat_lt
      cases second with
      | none =>
          simp only [Option.map_none, Option.map_some, Option.getD_none, Option.getD_some] at h
          omega
      | some other => exact congrArg some (UInt8.toNat_inj.mp h)

/-- Headers whose words fit 32 bits are known from their bytes. -/
theorem header_inj {first second : Script} (hFirst : ∀ word ∈ first.header, word < 256 ^ 4)
    (hSecond : ∀ word ∈ second.header, word < 256 ^ 4)
    (h : first.header.flatMap (Bytes.little 4) = second.header.flatMap (Bytes.little 4)) :
    first.header = second.header :=
  Bytes.flatMap_inj (Bytes.length_little 4)
    (fun _ hWord _ hOther => Bytes.little_inj (hFirst _ hWord) (hSecond _ hOther)) rfl h

/-- The sections of two flat forms are cut at the same places when the headers
agree. -/
theorem Sectioned.flat_inj {first second : Script} (hFirst : first.Sectioned)
    (hSecond : second.Sectioned) (h : first.flat = second.flat) : first = second := by
  simp only [flat, List.append_assoc] at h
  obtain ⟨hHeader, h⟩ := List.append_inj (List.append_cancel_left h)
    (by rw [Bytes.length_flatMap (Bytes.length_little 4),
      Bytes.length_flatMap (Bytes.length_little 4)]; rfl)
  have hWords := header_inj hFirst.header hSecond.header hHeader
  simp only [Script.header, List.cons.injEq, and_true] at hWords
  obtain ⟨hNameHash, hHash, hCode, hStrings, hStatics, hArguments, hNatives, hBlock,
    hGlobals, hName⟩ := hWords
  obtain ⟨hNameBytes, h⟩ := List.append_inj h hName
  obtain ⟨hCodeBytes, h⟩ := List.append_inj h (hFirst.codeLength ▸ hSecond.codeLength ▸ hCode)
  obtain ⟨hStringBytes, h⟩ :=
    List.append_inj h (hFirst.stringsLength ▸ hSecond.stringsLength ▸ hStrings)
  obtain ⟨hStaticBytes, h⟩ := List.append_inj h
    (by simp only [Bytes.length_flatMap length_wordBytes, Array.length_toList, hStatics])
  obtain ⟨hNativeBytes, hGlobalBytes⟩ := List.append_inj h
    (by simp only [Bytes.length_flatMap fun hash : UInt64 =>
      Bytes.length_little 8 hash.toNat, hNatives])
  have hNativeHashes : first.natives = second.natives :=
    Bytes.flatMap_inj (fun _ => Bytes.length_little 8 _)
      (fun hash _ other _ hSame =>
        UInt64.toNat_inj.mp (Bytes.little_inj hash.toNat_lt other.toNat_lt hSame))
      hNatives hNativeBytes
  have hStaticWords : first.statics = second.statics :=
    Array.toList_inj.mp <| Bytes.flatMap_inj length_wordBytes (fun _ _ _ _ => wordBytes_inj)
      hStatics hStaticBytes
  have hGlobalWords : first.globalsPages.flatten = second.globalsPages.flatten :=
    Bytes.flatMap_inj length_wordBytes (fun _ _ _ _ => wordBytes_inj)
      (hFirst.globalsLength ▸ hSecond.globalsLength ▸ hGlobals) hGlobalBytes
  have hCodePages : first.codePages = second.codePages := by
    rw [hFirst.codePages, hSecond.codePages, hCodeBytes]
  have hStringPages : first.stringPages = second.stringPages := by
    rw [hFirst.stringPages, hSecond.stringPages, hStringBytes]
  have hGlobalPages : first.globalsPages = second.globalsPages := by
    rw [hFirst.globalsPages, hSecond.globalsPages, hGlobalWords]
  cases first
  cases second
  dsimp only at *
  rw [Text.utf8_inj hNameBytes, UInt32.toNat_inj.mp hNameHash, UInt32.toNat_inj.mp hHash,
    hCodePages, hCode, hStringPages, hStrings, hStaticWords, hArguments, blockWord_inj hBlock,
    hGlobalPages, hGlobals, hNativeHashes]

end Script

namespace Assembly

variable {source : NativeSource} {options : Options} {statements : List Statement} {script : Script}

/-- The pages of an assembled unit are cut from sections whose lengths its
header holds. -/
theorem Assembled.sectioned (unit : Assembled source options statements script)
    (hFit : script.SectionsFit) :
    script.Sectioned := by
  have hLimits := unit.withinLimits
  have hLengths := (⟨hLimits.code.total, hLimits.strings.total, hLimits.globals.total⟩ :
    script.code.length = script.codeLength ∧ script.strings.length = script.stringsLength ∧
      script.globalsPages.flatten.length = script.globalsLength)
  have hCut : script.codePages = Page.split script.code ∧
      script.stringPages = Page.split script.strings ∧
      script.globalsPages = Page.split script.globalsPages.flatten := by
    simp only [unit.linked, Script.code, Script.strings, link, StringPages.toPages,
      Page.flatten_split, and_self]
  refine ⟨hCut.1, hLengths.1.symm, hCut.2.1, hLengths.2.1.symm, hCut.2.2, hLengths.2.2.symm, ?_⟩
  have hStatics := hLimits.statics
  have hArguments := hLimits.arguments
  have hNatives := hLimits.natives
  have hCode := hLimits.codeLength
  have hGlobals := hLimits.globalsLength
  have hStrings := hFit.strings
  have hName := hFit.name
  have hNameHash := script.nameHash.toNat_lt
  have hHash := script.hash.toNat_lt
  have hBlock : (script.globalsBlock.map UInt8.toNat).getD 0xFFFFFFFF < 256 ^ 4 := by
    cases script.globalsBlock with
    | none => decide
    | some block =>
        have hByte := block.toNat_lt
        simp only [Option.map_some, Option.getD_some]
        omega
  intro word hWord
  simp only [Script.header, List.mem_cons, List.not_mem_nil, or_false] at hWord
  rcases hWord with rfl | rfl | rfl | rfl | rfl | rfl | rfl | rfl | rfl | rfl <;> omega

/-- The flat form of an assembled unit determines the script, whatever it was
assembled from. -/
theorem eq_of_flat_eq {firstSource secondSource : NativeSource}
    {firstOptions secondOptions : Options}
    {firstStatements secondStatements : List Statement} {first second : Script}
    (hFirst : assemble firstSource firstOptions firstStatements = .ok first)
    (hSecond : assemble secondSource secondOptions secondStatements = .ok second)
    (hFirstFits : first.SectionsFit) (hSecondFits : second.SectionsFit)
    (h : first.flat = second.flat) :
    first = second := by
  obtain ⟨firstUnit⟩ := assemble_ok hFirst
  obtain ⟨secondUnit⟩ := assemble_ok hSecond
  exact (firstUnit.sectioned hFirstFits).flat_inj (secondUnit.sectioned hSecondFits) h

/-- A unit with a static, two arguments and a global. -/
def slotUnit : List Statement := [
  .ofDirective (.segment .statics), .ofDirective (.zero 1),
  .ofDirective (.segment (.globals 3)), .ofDirective (.zero 1),
  .ofDirective (.segment .arguments), .ofDirective (.zero 2)]

def globalFirstUnit : List Statement := [
  .ofDirective (.segment (.globals 3)), .ofDirective (.zero 1),
  .ofDirective (.segment .statics), .ofDirective (.zero 1),
  .ofDirective (.segment .arguments), .ofDirective (.zero 1), .ofDirective (.zero 1)]

def slotImage : DataImage :=
  { DataImage.empty with
    statics := #[Word.zero], arguments := #[Word.zero, Word.zero], globals :=
      #[Word.zero], block := some 3 }

theorem eq_of_flat_eq_slots :
    ∃ first second, assemble NativeDatabase.empty .default slotUnit = .ok first ∧
      assemble NativeDatabase.empty .default globalFirstUnit = .ok second ∧ first = second ∧
      first.globalsBlock = some 3 ∧ first.argumentCount = 2 := by
  have hReach : 0 ≤ codeLimit := by decide
  let first : Assembled NativeDatabase.empty .default slotUnit _ :=
    ⟨⟨slotImage, [], .empty, .empty, .empty⟩, ⟨Table.empty, Array.replicate 6 none, 0⟩, .empty,
      slotImage, _, rfl, rfl, hReach, rfl, rfl, rfl⟩
  let second : Assembled NativeDatabase.empty .default globalFirstUnit _ :=
    ⟨⟨slotImage, [], .empty, .empty, .empty⟩, ⟨Table.empty, Array.replicate 7 none, 0⟩, .empty,
      slotImage, _, rfl, rfl, hReach, rfl, rfl, rfl⟩
  have hFit : (link .default slotImage .empty ⟨#[], .empty⟩).SectionsFit := ⟨by decide, by decide⟩
  exact ⟨_, _, first.assemble_eq_ok, second.assemble_eq_ok,
    eq_of_flat_eq first.assemble_eq_ok second.assemble_eq_ok hFit hFit rfl, rfl, rfl⟩

end Assembly
end ScriptBackend
