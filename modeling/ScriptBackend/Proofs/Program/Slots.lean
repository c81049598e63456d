import Mathlib.Data.List.Nodup
import ScriptBackend.Program.Slots
import ScriptBackend.Proofs.Outcome
import ScriptBackend.Proofs.Program.Sizes

/-!
Where variables are. Items that follow each other fill their words without gaps
and without overlaps, and no variable outside of frames loses its place to one
in a frame.
-/
namespace ScriptBackend

open Outcome

section Consecutive

variable {α β : Type} {words : α → Nat} {start : Nat} {items : List α} {item other : α}
variable {offset otherOffset : Nat}

/-- An item lies between the start and the end of all items. -/
theorem consecutive_bounds (h : (item, offset) ∈ consecutive words start items) :
    item ∈ items ∧ start ≤ offset ∧ offset + words item ≤ start + totalWords words items := by
  induction items generalizing start with
  | nil => cases h
  | cons first rest ih =>
      rw [totalWords]
      rcases List.mem_cons.mp h with hFirst | hRest
      · cases hFirst
        exact ⟨by simp, Nat.le_refl _, by omega⟩
      · obtain ⟨hMem, hLow, hHigh⟩ := ih hRest
        exact ⟨by simp [hMem], by omega, by omega⟩

/-- Every item has an offset. -/
theorem exists_offset (start : Nat) (h : item ∈ items) :
    ∃ offset, (item, offset) ∈ consecutive words start items := by
  induction items generalizing start with
  | nil => cases h
  | cons first rest ih =>
      rcases List.mem_cons.mp h with rfl | hRest
      · exact ⟨start, List.mem_cons_self ..⟩
      · obtain ⟨offset, hOffset⟩ := ih (start + words first) hRest
        exact ⟨offset, List.mem_cons_of_mem _ hOffset⟩

/-- Every position belongs to an item. -/
theorem exists_item {position : Nat} (hLow : start ≤ position)
    (hHigh : position < start + totalWords words items) :
    ∃ item offset i, (item, offset) ∈ consecutive words start items ∧ i < words item ∧
      offset + i = position := by
  induction items generalizing start with
  | nil => exact absurd hHigh (Nat.not_lt.mpr hLow)
  | cons first rest ih =>
      rw [totalWords] at hHigh
      by_cases hFirst : position < start + words first
      · exact ⟨first, start, position - start, List.mem_cons_self .., by omega, by omega⟩
      · obtain ⟨item, offset, i, hMem, hInside, hSame⟩ := ih (Nat.not_lt.mp hFirst) (by omega)
        exact ⟨item, offset, i, List.mem_cons_of_mem _ hMem, hInside, hSame⟩

/-- No position belongs to two items. -/
theorem place_unique {i j : Nat} (hItem : (item, offset) ∈ consecutive words start items)
    (hOther : (other, otherOffset) ∈ consecutive words start items) (hInside : i < words item)
    (hOtherInside : j < words other) (hSame : offset + i = otherOffset + j) :
    item = other ∧ offset = otherOffset := by
  induction items generalizing start with
  | nil => cases hItem
  | cons first rest ih =>
      rcases List.mem_cons.mp hItem with hFirst | hRest
      · rcases List.mem_cons.mp hOther with hSecond | hLater
        · cases hFirst
          cases hSecond
          exact ⟨rfl, rfl⟩
        · cases hFirst
          have hBound := (consecutive_bounds hLater).2.1
          omega
      · rcases List.mem_cons.mp hOther with hSecond | hLater
        · cases hSecond
          have hBound := (consecutive_bounds hRest).2.1
          omega
        · exact ih hRest hLater

/-- Every position belongs to one item, and is a number of words behind its
offset. -/
theorem existsUnique_place {position : Nat} (h : position < totalWords words items) :
    ∃! place : α × Nat, ∃ offset, (place.1, offset) ∈ consecutive words 0 items ∧
      place.2 < words place.1 ∧ offset + place.2 = position := by
  obtain ⟨item, offset, i, hItem, hInside, hSame⟩ :=
    exists_item (Nat.zero_le position) (Nat.lt_of_lt_of_eq h (Nat.zero_add _).symm)
  refine ⟨(item, i), ⟨offset, hItem, hInside, hSame⟩, ?_⟩
  rintro ⟨other, j⟩ ⟨otherOffset, hOther, hOtherInside, hOtherSame⟩
  obtain ⟨rfl, rfl⟩ :=
    place_unique hOther hItem hOtherInside hInside (hOtherSame.trans hSame.symm)
  exact Prod.ext rfl (Nat.add_left_cancel (hOtherSame.trans hSame.symm))

/-- What comes second begins behind the words of what comes first. -/
theorem consecutive_append (first second : List α) (start : Nat) :
    consecutive words start (first ++ second) = consecutive words start first ++
      consecutive words (start + totalWords words first) second := by
  induction first generalizing start with
  | nil => rfl
  | cons item rest ih => rw [List.cons_append, consecutive, ih, totalWords, ← Nat.add_assoc]; rfl

/-- Where items stand one behind the other, the words of an item are found from
its offset on. -/
theorem getElem?_flatten {content : α → List β}
    (h : ∀ item ∈ items, (content item).length = words item)
    (hItem : (item, offset) ∈ consecutive words start items) {i : Nat} (hInside : i < words item) :
    (items.map content).flatten[offset - start + i]? = (content item)[i]? := by
  induction items generalizing start with
  | nil => cases hItem
  | cons first rest ih =>
      rw [List.forall_mem_cons] at h
      rw [List.map_cons, List.flatten_cons]
      rcases List.mem_cons.mp hItem with hFirst | hRest
      · cases hFirst
        rw [Nat.sub_self, Nat.zero_add, List.getElem?_append_left (by omega)]
      · have hBound := (consecutive_bounds hRest).2.1
        rw [List.getElem?_append_right (by omega), ← ih h.2 hRest, h.1]
        congr 1
        omega

/-- Contents of the given sizes are as long together as the sizes add up to. -/
theorem length_flatten {content : α → List β}
    (h : ∀ item ∈ items, (content item).length = words item) :
    (items.map content).flatten.length = totalWords words items := by
  induction items with
  | nil => rfl
  | cons first rest ih =>
      rw [List.forall_mem_cons] at h
      rw [List.map_cons, List.flatten_cons, List.length_append, ih h.2, h.1]
      rfl

/-- Items keep their order. -/
theorem map_fst_consecutive (words : α → Nat) (start : Nat) (items : List α) :
    (consecutive words start items).map Prod.fst = items := by
  induction items generalizing start with
  | nil => rfl
  | cons first rest ih => rw [consecutive, List.map_cons, ih]

/-- No item is placed twice. -/
theorem nodup_consecutive (hItems : items.Nodup) (start : Nat) :
    ((consecutive words start items).map Prod.fst).Nodup := by
  rwa [map_fst_consecutive]

end Consecutive

/-- Whether variables of a region live outside of frames. -/
def Region.isData : Region → Bool
  | .globals | .statics | .arguments => true
  | .locals | .parameters => false

/-- The variables that a function has in its frame are declared to be there. -/
structure Function.KeepsToFrame (program : Program) (function : Function) : Prop where
  parameters : ∀ id ∈ function.parameters, ∀ declared, program.vars[id]? = some declared →
    declared.storage = .placed .parameters
  locals : ∀ id ∈ blockLocalIds #[] function.body, ∀ declared, program.vars[id]? = some declared →
    declared.storage = .placed .locals

namespace Slots

section Assignment

variable {region : Region} {places : List (Nat × Nat)}
  {slots : Array (Option Slot)} {id index : Nat}

theorem size_assign : (assign region places slots).size = slots.size := by
  induction places generalizing slots with
  | nil => rfl
  | cons place rest ih => exact ih.trans (by simp)

/-- A variable without a new place keeps its old one. -/
theorem getElem?_assign_of_not_mem (h : id ∉ places.map Prod.fst) :
    (assign region places slots)[id]? = slots[id]? := by
  induction places generalizing slots with
  | nil => rfl
  | cons place rest ih =>
      rw [List.map_cons, List.mem_cons, not_or] at h
      refine (ih h.2).trans ?_
      rw [Array.getElem?_setIfInBounds, if_neg (Ne.symm h.1)]

/-- A variable with a new place has it. -/
theorem getElem?_assign_of_mem (hPlaces : (places.map Prod.fst).Nodup) (h : (id, index) ∈ places)
    (hBound : id < slots.size) :
    (assign region places slots)[id]? = some (some ⟨region, index⟩) := by
  induction places generalizing slots with
  | nil => cases h
  | cons place rest ih =>
      rw [List.map_cons, List.nodup_cons] at hPlaces
      rcases List.mem_cons.mp h with rfl | hRest
      · refine (getElem?_assign_of_not_mem hPlaces.1).trans ?_
        simp [hBound]
      · exact ih hPlaces.2 hRest (by simpa using hBound)

end Assignment

section Data

variable {program : Program} {sizes : Sizes} {region : Region} {id : Nat}

/-- The variables of a region are those that are declared to be there. -/
theorem mem_inRegion : id ∈ inRegion program region ↔
    ∃ declared, program.vars[id]? = some declared ∧ declared.storage = .placed region := by
  rw [inRegion, List.mem_filter, List.mem_range, Option.any_eq_true]
  constructor
  · intro h
    obtain ⟨_, declared, hDeclared, hStorage⟩ := h
    exact ⟨declared, hDeclared, beq_iff_eq.mp hStorage⟩
  · intro h
    obtain ⟨declared, hDeclared, hStorage⟩ := h
    exact ⟨(Array.getElem?_eq_some_iff.mp hDeclared).1, declared, hDeclared,
      beq_iff_eq.mpr hStorage⟩

theorem nodup_inRegion (program : Program) (region : Region) : (inRegion program region).Nodup :=
  List.nodup_range.filter _

theorem not_mem_inRegion {other : Region} (h : id ∈ inRegion program region)
    (hOther : region ≠ other) :
    id ∉ inRegion program other := by
  intro hBoth
  obtain ⟨declared, hDeclared, hStorage⟩ := mem_inRegion.mp h
  obtain ⟨same, hSame, hPlace⟩ := mem_inRegion.mp hBoth
  rw [hDeclared, Option.some.injEq] at hSame
  rw [← hSame, hStorage, Storage.placed.injEq] at hPlace
  exact hOther hPlace

end Data

/-- The variables outside of frames are known by their regions, and globals only
where there is a block for them. -/
structure ListsData (program : Program) (table : Slots) : Prop where
  statics_eq : table.statics = inRegion program .statics
  arguments_eq : table.arguments = inRegion program .arguments
  globals_eq : table.globals = inRegion program .globals
  fits : inRegion program .globals = [] ∨
    ∃ block, program.globalsBlock = some block ∧ table.globalWords ≤ globalsLimit

/-- The variables outside of frames have their places: the statics first, the
arguments behind them, and the globals in their block. -/
structure PlacesData (program : Program) (sizes : Sizes) (table : Slots) : Prop extends
    ListsData program table where
  staticWords_eq : table.staticWords =
    totalWords (variableWords program sizes) (inRegion program .statics)
  argumentWords_eq : table.argumentWords =
    totalWords (variableWords program sizes) (inRegion program .arguments)
  globalWords_eq : table.globalWords =
    totalWords (variableWords program sizes) (inRegion program .globals)
  statics : ∀ id offset,
    (id, offset) ∈ consecutive (variableWords program sizes) 0 (inRegion program .statics) →
    table.slots[id]? = some (some ⟨.statics, offset⟩)
  arguments : ∀ id offset, (id, offset) ∈ consecutive (variableWords program sizes)
      (totalWords (variableWords program sizes) (inRegion program .statics))
      (inRegion program .arguments) →
    table.slots[id]? = some (some ⟨.arguments, offset⟩)
  globals : ∀ id offset,
    (id, offset) ∈ consecutive (variableWords program sizes) 0 (inRegion program .globals) →
    table.slots[id]? = some (some ⟨.globals, globalId (program.globalsBlock.getD 0) offset⟩)

section Allocation

variable {program : Program} {sizes : Sizes} {table next : Slots}

/-- Globals that pass the check belong to a block and fit in it. -/
theorem checkGlobals_ok {globals : List Nat} {words : Nat}
    (h : checkGlobals program globals words = .ok ()) :
    globals = [] ∨ ∃ block, program.globalsBlock = some block ∧ words ≤ globalsLimit := by
  unfold checkGlobals at h
  cases globals with
  | nil => exact .inl rfl
  | cons first rest =>
      cases hBlock : program.globalsBlock with
      | none =>
          rw [hBlock] at h
          cases h
      | some block =>
          rw [hBlock] at h
          dsimp only at h
          split at h
          · cases h
          · next hFits => exact .inr ⟨block, rfl, Nat.not_lt.mp hFits⟩

theorem not_mem_consecutive {words : Nat → Nat} {items : List Nat} {id : Nat} (h : id ∉ items)
    (start : Nat) : id ∉ (consecutive words start items).map Prod.fst := by
  intro hMem
  obtain ⟨⟨item, offset⟩, hItem, rfl⟩ := List.mem_map.mp hMem
  exact h (consecutive_bounds hItem).1

/-- The data of a program gets its places. -/
theorem placesData_ofData (h : ofData program sizes = .ok table) :
    PlacesData program sizes table := by
  unfold ofData at h
  obtain ⟨_, _, h⟩ := bind_eq_ok.mp h
  obtain ⟨_, hFits, h⟩ := bind_eq_ok.mp h
  cases h
  have hDeclared : ∀ {region id offset start},
      (id, offset) ∈ consecutive (variableWords program sizes) start (inRegion program region) →
        id ∈ inRegion program region ∧ id < program.vars.size := by
    intro region id offset start hMem
    have hId := (consecutive_bounds hMem).1
    obtain ⟨declared, hDeclared, _⟩ := mem_inRegion.mp hId
    exact ⟨hId, (Array.getElem?_eq_some_iff.mp hDeclared).1⟩
  refine ⟨⟨rfl, rfl, rfl, checkGlobals_ok hFits⟩, rfl, rfl, rfl, ?_, ?_, ?_⟩
  · intro id offset hMem
    obtain ⟨hId, hBound⟩ := hDeclared hMem
    dsimp only
    rw [getElem?_assign_of_not_mem, getElem?_assign_of_not_mem]
    · exact getElem?_assign_of_mem (nodup_consecutive (nodup_inRegion _ _) _) hMem
        (by simpa using hBound)
    · exact not_mem_consecutive (not_mem_inRegion hId (by decide)) _
    · rw [List.map_map]
      exact not_mem_consecutive (not_mem_inRegion hId (by decide)) _
  · intro id offset hMem
    obtain ⟨hId, hBound⟩ := hDeclared hMem
    dsimp only
    rw [getElem?_assign_of_not_mem]
    · exact getElem?_assign_of_mem (nodup_consecutive (nodup_inRegion _ _) _) hMem
        (by simpa [size_assign] using hBound)
    · rw [List.map_map]
      exact not_mem_consecutive (not_mem_inRegion hId (by decide)) _
  · intro id offset hMem
    obtain ⟨hId, hBound⟩ := hDeclared hMem
    refine getElem?_assign_of_mem ?_ ?_ (by simpa [size_assign] using hBound)
    · rw [List.map_map]
      exact nodup_consecutive (nodup_inRegion _ _) _
    · exact List.mem_map.mpr ⟨(id, offset), hMem, rfl⟩

/-- The frame of a function takes no place from the data. -/
theorem PlacesData.addFrame {function : Function} (h : PlacesData program sizes table)
    (hKeeps : function.KeepsToFrame program)
    (hNext : Slots.addFrame program sizes table function = .ok next) :
    PlacesData program sizes next := by
  obtain ⟨_, _, hNext⟩ := bind_eq_ok.mp hNext
  obtain ⟨_, _, hNext⟩ := bind_eq_ok.mp hNext
  obtain ⟨_, _, hNext⟩ := bind_eq_ok.mp hNext
  cases hNext
  have hSame : ∀ {region id offset start}, region.isData = true →
      (id, offset) ∈ consecutive (variableWords program sizes) start (inRegion program region) →
      id ∉ function.parameters ∧ id ∉ (frameOf program sizes function).localIds.toList := by
    intro region id offset start hData hMem
    obtain ⟨declared, hDeclared, hStorage⟩ := mem_inRegion.mp (consecutive_bounds hMem).1
    refine ⟨fun hParameter => ?_, fun hLocal => ?_⟩
    · have hOther := hKeeps.parameters id hParameter declared hDeclared
      rw [hStorage, Storage.placed.injEq] at hOther
      subst hOther
      cases hData
    · have hOther := hKeeps.locals id (Array.mem_toList_iff.mp hLocal) declared hDeclared
      rw [hStorage, Storage.placed.injEq] at hOther
      subst hOther
      cases hData
  have hKept : ∀ {region id offset start}, region.isData = true →
      (id, offset) ∈ consecutive (variableWords program sizes) start (inRegion program region) →
      (assign .locals (consecutive (variableWords program sizes)
          (frameOf program sizes function).localOffset
          (frameOf program sizes function).localIds.toList)
        (assign .parameters (consecutive (variableWords program sizes) 0 function.parameters)
          table.slots))[id]? = table.slots[id]? := by
    intro region id offset start hData hMem
    obtain ⟨hParameter, hLocal⟩ := hSame hData hMem
    rw [getElem?_assign_of_not_mem (not_mem_consecutive hLocal _),
      getElem?_assign_of_not_mem (not_mem_consecutive hParameter _)]
  exact { h with
    statics := fun id offset hMem => (hKept rfl hMem).trans (h.statics id offset hMem)
    arguments := fun id offset hMem => (hKept rfl hMem).trans (h.arguments id offset hMem)
    globals := fun id offset hMem => (hKept rfl hMem).trans (h.globals id offset hMem) }

/-- Frames leave the slots of data alone. -/
theorem PlacesData.addFrames {functions : List Function} (h : PlacesData program sizes table)
    (hKeeps : ∀ function ∈ functions, function.KeepsToFrame program)
    (hNext : functions.foldlM (Slots.addFrame program sizes) table = .ok next) :
    PlacesData program sizes next := by
  induction functions generalizing table with
  | nil =>
      cases hNext
      exact h
  | cons first rest ih =>
      rw [List.forall_mem_cons] at hKeeps
      obtain ⟨middle, hMiddle, hRest⟩ := bind_eq_ok.mp hNext
      exact ih (h.addFrame hKeeps.1 hMiddle) hKeeps.2 hRest

/-- In a program whose functions keep to their frames, the data has its places. -/
theorem placesData_ofProgram
    (hKeeps : ∀ function ∈ program.functions, function.KeepsToFrame program)
    (h : ofProgram program sizes = .ok table) : PlacesData program sizes table := by
  obtain ⟨start, hStart, h⟩ := bind_eq_ok.mp h
  rw [← Array.foldlM_toList] at h
  exact (placesData_ofData hStart).addFrames
    (fun function hFunction => hKeeps function (Array.mem_toList_iff.mp hFunction)) h

/-- Allocating a frame adds it to the others, and changes nothing about the
lists of variables. -/
theorem ListsData.addFrame {function : Function} (h : ListsData program table)
    (hNext : Slots.addFrame program sizes table function = .ok next) :
    ListsData program next ∧ next.frames = table.frames.push (frameOf program sizes function) := by
  obtain ⟨_, _, hNext⟩ := bind_eq_ok.mp hNext
  obtain ⟨_, _, hNext⟩ := bind_eq_ok.mp hNext
  obtain ⟨_, _, hNext⟩ := bind_eq_ok.mp hNext
  cases hNext
  exact ⟨⟨h.statics_eq, h.arguments_eq, h.globals_eq, h.fits⟩, rfl⟩

/-- Frames leave the lists of data as they are and are listed in the order of
their functions. -/
theorem ListsData.addFrames {functions : List Function} (h : ListsData program table)
    (hNext : functions.foldlM (Slots.addFrame program sizes) table = .ok next) :
    ListsData program next ∧
      next.frames.toList = table.frames.toList ++ functions.map (frameOf program sizes) := by
  induction functions generalizing table with
  | nil =>
      cases hNext
      exact ⟨h, (List.append_nil _).symm⟩
  | cons first rest ih =>
      obtain ⟨middle, hMiddle, hRest⟩ := bind_eq_ok.mp hNext
      obtain ⟨hLists, hFrame⟩ := h.addFrame hMiddle
      obtain ⟨hAll, hFrames⟩ := ih hLists hRest
      refine ⟨hAll, ?_⟩
      rw [hFrames, hFrame]
      simp

/-- Every program that is allocated has the lists of its variables and the
frames of its functions. -/
theorem listsData_ofProgram (h : ofProgram program sizes = .ok table) :
    ListsData program table ∧
    table.frames.toList = program.functions.toList.map (frameOf program sizes) := by
  obtain ⟨start, hStart, h⟩ := bind_eq_ok.mp h
  rw [← Array.foldlM_toList] at h
  have hNone : start.frames = #[] := by
    obtain ⟨_, _, hStart⟩ := bind_eq_ok.mp hStart
    obtain ⟨_, _, hStart⟩ := bind_eq_ok.mp hStart
    cases hStart
    rfl
  obtain ⟨hLists, hFrames⟩ := (placesData_ofData hStart).toListsData.addFrames h
  rw [hNone, List.nil_append] at hFrames
  exact ⟨hLists, hFrames⟩

/-- The frame at the position of a function is its own. -/
theorem eq_frameOf {id : Nat} {function : Function} {frame : Frame}
    (hFrames : table.frames.toList = program.functions.toList.map (frameOf program sizes))
    (hFunction : program.functions[id]? = some function) (hFrame : table.frame id = .ok frame) :
    frame = frameOf program sizes function := by
  unfold Slots.frame at hFrame
  split at hFrame
  · next found hFound =>
      cases hFrame
      rw [← Array.getElem?_toList, hFrames, List.getElem?_map,
        Array.getElem?_toList, hFunction] at hFound
      exact (Option.some.inj hFound).symm
  · cases hFrame

end Allocation

end Slots
end ScriptBackend
