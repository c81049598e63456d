import ScriptBackend.Proofs.Assembly.CutLayout
import ScriptBackend.Proofs.Assembly.NativeIndices

/-!
The limits that a finished script keeps. Each of them is checked in a pass of
its own: capacities when the data is collected, the length of the code between
layout and encoding, the native table whenever it grows.
-/
namespace ScriptBackend

/-- Pages of a given length in all: every page but the last one is full, and the
last one is not empty. -/
structure Page.Fills {α : Type} (pages : List (List α)) (length : Nat) : Prop where
  total : pages.flatten.length = length
  full : ∀ page ∈ pages.dropLast, page.length = Page.size
  last : ∀ page, pages.getLast? = some page → 0 < page.length ∧ page.length ≤ Page.size

theorem Page.split_of_ne_nil {α : Type} {items : List α} (h : items ≠ []) :
    split items = items.take size :: split (items.drop size) := by
  rw [split, dif_neg (by simpa using h)]

theorem Page.split_nil {α : Type} : split ([] : List α) = [] := by
  rw [split]
  rfl

/-- Every page that begins before the end holds the items from its own beginning
on. -/
theorem Page.getElem?_split {α : Type} {items : List α} {page : Nat}
    (h : page * size < items.length) :
    (split items)[page]? = some ((items.drop (page * size)).take size) := by
  induction page generalizing items with
  | zero =>
      rw [Nat.zero_mul] at h
      rw [split_of_ne_nil (List.length_pos_iff.mp h), Nat.zero_mul]
      rfl
  | succ page ih =>
      rw [Nat.succ_mul] at h
      have hRest : page * size < (items.drop size).length := by
        rw [List.length_drop]
        omega
      rw [split_of_ne_nil (List.length_pos_iff.mp (Nat.lt_of_le_of_lt (Nat.zero_le _) h)),
        List.getElem?_cons_succ, ih hRest, List.drop_drop, Nat.succ_mul, Nat.add_comm size]

/-- Cutting items into pages fills all but the last one. -/
theorem Page.fills_split {α : Type} (items : List α) : Fills (split items) items.length := by
  have hTotal : ∀ items : List α, (split items).flatten.length = items.length :=
    fun items => congrArg List.length (flatten_split items)
  induction items using split.induct with
  | case1 items hEmpty =>
      obtain rfl := List.isEmpty_iff.mp hEmpty
      exact ⟨hTotal [], by simp [split_nil], by simp [split_nil]⟩
  | case2 items hItems ih =>
      have hLength : 0 < items.length := by simpa [List.length_pos_iff] using hItems
      have hSplit := split_of_ne_nil (List.length_pos_iff.mp hLength)
      have hFirst : (items.take size).length = min size items.length := List.length_take
      have hSize : 0 < size := by decide
      by_cases hRest : items.drop size = []
      · have hAlone : split items = [items.take size] := by rw [hSplit, hRest, split_nil]
        refine ⟨hTotal items, by simp [hAlone], fun page hLast => ?_⟩
        rw [hAlone, List.getLast?_singleton, Option.some.injEq] at hLast
        rw [← hLast, hFirst]
        omega
      · -- More items follow, so that the first page is full and not the last one.
        have hMore : size < items.length := by simpa using hRest
        have hPages : split (items.drop size) ≠ [] := by
          rw [split_of_ne_nil hRest]
          exact List.cons_ne_nil _ _
        refine ⟨hTotal items, fun page hPage => ?_, fun page hLast => ?_⟩
        · rw [hSplit, List.dropLast_cons_of_ne_nil hPages, List.mem_cons] at hPage
          rcases hPage with rfl | hLater
          · rw [hFirst]
            omega
          · exact ih.full page hLater
        · rw [hSplit, List.getLast?_cons_of_ne_nil hPages] at hLast
          exact ih.last page hLast

namespace Assembly

open Outcome

/-- The limits of a script. -/
structure WithinLimits (script : Script) : Prop where
  code : Page.Fills script.codePages script.codeLength
  strings : Page.Fills script.stringPages script.stringsLength
  globals : Page.Fills script.globalsPages script.globalsLength
  codeLength : script.codeLength ≤ 0xFFFFFF
  statics : script.statics.size ≤ 65536
  arguments : script.argumentCount ≤ script.statics.size
  natives : script.natives.length ≤ 65536
  distinct : ∀ first second hash, script.nativeHash? first = some hash →
    script.nativeHash? second = some hash →
    first = second
  globalsLength : script.globalsLength ≤ 2 ^ 18
  block : 0 < script.globalsLength → ∃ block, script.globalsBlock = some block ∧ block.toNat < 64
  name : script.nameHash = nameHash script.name

section

variable {source : NativeSource} {options : Options} {statements : List Statement} {script : Script}

/-- A block that is entered has an id of six bits. -/
theorem Collection.block_lt_of_add {line : Line} {collection next : Collection} {block : UInt8}
    (h : collection.add line = .ok next) (hSegment : line.segment = .globals block) :
    block.toNat < blockLimit := by
  obtain ⟨entered, hEntered, _⟩ := bind_eq_ok.mp h
  unfold enterSegment at hEntered
  rw [hSegment] at hEntered
  dsimp only at hEntered
  split at hEntered
  · cases hEntered
  · next hBlock => exact Nat.not_le.mp hBlock

/-- Globals have a block. -/
theorem Assembled.block_of_globals (unit : Assembled source options statements script)
    (hGlobals : 0 < unit.image.globals.size) :
    ∃ block, unit.image.block = some block ∧ block.toNat < blockLimit := by
  have hSources : 0 < (wordSources .globals (scopeLines statements)).length :=
    unit.holdsData.sizes .globals ▸ hGlobals
  obtain ⟨found, hFound⟩ := List.exists_mem_of_length_pos hSources
  obtain ⟨line, hLine, hWords⟩ := List.mem_flatMap.mp hFound
  split at hWords
  · next hRegion =>
      obtain ⟨block, hSegment⟩ : ∃ block, line.segment = .globals block := by
        cases hSegment : line.segment <;> simp [hSegment, Segment.region?] at hRegion ⊢
      obtain ⟨_, _, hAdd⟩ := unit.exists_add hLine
      exact ⟨block, unit.holdsData.block line hLine block hSegment,
        Collection.block_lt_of_add hAdd hSegment⟩
  · cases hWords

/-- Every native of an assembled unit has an index of 16 bits. -/
theorem Assembled.length_natives (unit : Assembled source options statements script) :
    unit.code.natives.hashes.length ≤ NativeTable.limit := by
  obtain ⟨rows, hRows, hAddresses, _, _⟩ := layoutCode_ok unit.laidOut
  obtain ⟨instructions, hEncodes, _⟩ := unit.encodes hRows hAddresses
  exact hEncodes.natives_length hRows.contiguous unit.natives_included.2

end

theorem Assembled.withinLimits {source : NativeSource} {options : Options}
    {statements : List Statement}
    {script : Script} (unit : Assembled source options statements script) :
    WithinLimits script := by
  have hDistinct : ∀ first second hash, script.nativeHash? first = some hash →
      script.nativeHash? second = some hash → first = second := by
    intro first second hash hFirst hSecond
    rw [unit.nativeHash?_eq, ← NativeTable.index?_eq_some_iff] at hFirst hSecond
    exact Option.some.inj (hFirst.symm.trans hSecond)
  have hNatives : script.natives.length ≤ 65536 := by
    rw [unit.natives_eq, NativeTable.rotated, List.length_mapIdx]
    exact unit.length_natives
  have hCode : unit.code.code.size ≤ codeLimit := unit.size_code ▸ unit.reachable
  have hStatics := unit.holdsData.staticsFit
  have hGlobals := unit.holdsData.globalsFit
  have hBlock := unit.block_of_globals
  have hLinked := unit.linked
  generalize unit.image = image at hStatics hGlobals hBlock hLinked
  generalize unit.code = code at hCode hLinked
  generalize unit.strings = strings at hLinked
  subst hLinked
  exact {
    code := Page.fills_split _
    strings := Page.fills_split _
    globals := Page.fills_split _
    codeLength := hCode
    statics := by simpa [link, staticLimit] using hStatics
    arguments := by simp [link]
    natives := hNatives
    distinct := hDistinct
    globalsLength := hGlobals
    block := hBlock
    name := rfl }

/-- Whatever is assembled keeps within all limits. This is so even where the
layout is kept in words of 32 bits: there the length of longer code is cut and
passes the check for it, but the code is not emitted. -/
theorem withinLimits_of_assemble {source : NativeSource} {options : Options}
    {statements : List Statement} {script : Script} :
    (assemble source options statements = .ok script → WithinLimits script) ∧
      (assembleCut source options statements = .ok script ↔
        assemble source options statements = .ok script) := by
  refine ⟨fun h => ?_, assembleCut_eq_ok_iff⟩
  obtain ⟨unit⟩ := assemble_ok h
  exact unit.withinLimits

theorem withinLimits_of_assemble_paged :
    ∃ script, assemble NativeDatabase.empty .default pagedUnit = .ok script ∧
      script.codeLength = 17922 ∧ WithinLimits script ∧
      assembleCut NativeDatabase.empty .default pagedUnit = .ok script := by
  obtain ⟨script, hScript, hLength⟩ := assemble_paged
  obtain ⟨hLimits, hCut⟩ := @withinLimits_of_assemble NativeDatabase.empty .default pagedUnit script
  exact ⟨script, hScript, hLength, hLimits hScript, hCut.mpr hScript⟩

end Assembly
end ScriptBackend
