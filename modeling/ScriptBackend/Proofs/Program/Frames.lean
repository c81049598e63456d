import ScriptBackend.Proofs.Program.Slots
import ScriptBackend.Proofs.Program.Statements

/-!
The frames of functions. Parameters stand one behind the other at the beginning
of a frame, locals behind the reserved words. The table of slots is one for the
whole program; where no variable is in two frames, every function finds its own
variables where its frame has them.
-/
namespace ScriptBackend

open Outcome

/-! Locals in source order -/

def Stmt.declared? : Stmt → Option Nat
  | .declare id => some id
  | _ => none

/-- The locals that statements declare, in their order. -/
def declaredIds (statements : List Stmt) : List Nat :=
  statements.filterMap Stmt.declared?

@[simp] theorem declaredIds_append (first second : List Stmt) :
    declaredIds (first ++ second) = declaredIds first ++ declaredIds second :=
  List.filterMap_append

theorem declaredIds_cons (first : Stmt) (rest : List Stmt) :
    declaredIds (first :: rest) = first.declared?.toList ++ declaredIds rest := by
  cases h : first.declared? <;> simp [declaredIds, h]

mutual

/-- The locals of a statement are found in the order in which its parts declare
them. -/
theorem Stmt.toList_localIds (found : Array Nat) :
    ∀ s : Stmt, (s.localIds found).toList = found.toList ++ declaredIds s.parts
  | .declare id => by simp [Stmt.localIds, Stmt.parts, declaredIds, Stmt.declared?]
  | .branch arms otherwise => by
      rw [Stmt.localIds, toList_blockLocalIds, toList_armLocalIds, Stmt.parts, declaredIds_cons,
        declaredIds_append]
      simp [Stmt.declared?]
  | .loop condition body => by
      rw [Stmt.localIds, toList_blockLocalIds, Stmt.parts, declaredIds_cons]
      rfl
  | .countUp limit counter body => by
      rw [Stmt.localIds, toList_blockLocalIds, Stmt.parts, declaredIds_cons]
      rfl
  | .select scrutinee cases => by
      rw [Stmt.localIds, toList_caseLocalIds, Stmt.parts, declaredIds_cons]
      rfl
  | .assign .. | .breakOut | .continueLoop | .goto _ | .label _ | .ret _ | .evaluate _ => by
      simp [Stmt.localIds, Stmt.parts, declaredIds, Stmt.declared?]

theorem toList_blockLocalIds (found : Array Nat) :
    ∀ statements : List Stmt, (blockLocalIds found statements).toList =
      found.toList ++ declaredIds (Stmt.blockParts statements)
  | [] => by simp [blockLocalIds, Stmt.blockParts, declaredIds]
  | first :: rest => by
      rw [blockLocalIds, toList_blockLocalIds, Stmt.toList_localIds, Stmt.blockParts,
        declaredIds_append, List.append_assoc]

theorem toList_armLocalIds (found : Array Nat) :
    ∀ arms : List (Expr × List Stmt), (armLocalIds found arms).toList =
      found.toList ++ declaredIds (Stmt.armsParts arms)
  | [] => by simp [armLocalIds, Stmt.armsParts, declaredIds]
  | (_, body) :: rest => by
      rw [armLocalIds, toList_armLocalIds, toList_blockLocalIds, Stmt.armsParts, declaredIds_append,
        List.append_assoc]

theorem toList_caseLocalIds (found : Array Nat) :
    ∀ cases : List (Option Int32 × List Stmt), (caseLocalIds found cases).toList =
      found.toList ++ declaredIds (Stmt.casesParts cases)
  | [] => by simp [caseLocalIds, Stmt.casesParts, declaredIds]
  | (_, body) :: rest => by
      rw [caseLocalIds, toList_caseLocalIds, toList_blockLocalIds, Stmt.casesParts,
        declaredIds_append, List.append_assoc]

end

/-- The locals of a function, collected in source order from any depth. -/
def Function.locals (function : Function) : List Nat :=
  declaredIds (Stmt.blockParts function.body)

/-- The variables of a function that its frame holds. -/
def Function.frameIds (function : Function) : List Nat :=
  function.parameters ++ function.locals

/-- The variables that functions have in their frames, each as often as it is a
parameter or declared. -/
def Program.frameIds (program : Program) : List Nat :=
  program.functions.toList.flatMap Function.frameIds

namespace Slots

/-- Variables whose slots are in a region, one behind the other without gaps,
from a start to a finish. -/
def Tiles (table : Slots) (words : Nat → Nat) (region : Region) : List Nat → Nat → Nat → Prop
  | [], start, finish => start = finish
  | id :: rest, start, finish =>
    table.slots[id]? = some (some ⟨region, start⟩) ∧
    Tiles table words region rest (start + words id) finish

section Tiling

variable {table : Slots} {words : Nat → Nat} {region : Region} {ids : List Nat}
  {start finish id : Nat}

/-- Slots given out one behind the other tile the words that they take. -/
theorem tiles_of_consecutive
    (h : ∀ id offset, (id, offset) ∈ consecutive words start ids →
      table.slots[id]? = some (some ⟨region, offset⟩)) :
    Tiles table words region ids start (start + totalWords words ids) := by
  induction ids generalizing start with
  | nil => exact (Nat.add_zero start).symm
  | cons first rest ih =>
      refine ⟨h first start (List.mem_cons_self ..), ?_⟩
      rw [totalWords, ← Nat.add_assoc]
      exact ih fun id offset hMem => h id offset (List.mem_cons_of_mem _ hMem)

/-- Tiles lead upwards, since no variable takes less than no words. -/
theorem Tiles.start_le (h : Tiles table words region ids start finish) : start ≤ finish := by
  induction ids generalizing start with
  | nil => exact Nat.le_of_eq h
  | cons first rest ih => exact Nat.le_trans (Nat.le_add_right _ _) (ih h.2)

/-- A variable of a tiling has its slot there, and its words lie between the
start and the finish. -/
theorem Tiles.slot (h : Tiles table words region ids start finish) (hId : id ∈ ids) :
    ∃ offset, table.slots[id]? = some (some ⟨region, offset⟩) ∧ start ≤ offset ∧
      offset + words id ≤ finish := by
  induction ids generalizing start with
  | nil => cases hId
  | cons first rest ih =>
      obtain ⟨hFirst, hRest⟩ := h
      rcases List.mem_cons.mp hId with rfl | hLater
      · exact ⟨start, hFirst, Nat.le_refl _, hRest.start_le⟩
      · obtain ⟨offset, hSlot, hLow, hHigh⟩ := ih hRest hLater
        exact ⟨offset, hSlot, Nat.le_trans (Nat.le_add_right _ _) hLow, hHigh⟩

end Tiling

/-- The frame of a function with the slots of its variables in it. -/
structure PlacesFrame (program : Program) (sizes : Sizes) (table : Slots) (function : Function) :
    Prop where
  parameters : Tiles table (variableWords program sizes) .parameters function.parameters 0
    (frameOf program sizes function).parameterWords
  locals : Tiles table (variableWords program sizes) .locals function.locals
    (frameOf program sizes function).localOffset (frameOf program sizes function).scratchOffset

section Frames

variable {program : Program} {sizes : Sizes} {table next : Slots} {function : Function}

theorem toList_localIds_frameOf (program : Program) (sizes : Sizes) (function : Function) :
    (frameOf program sizes function).localIds.toList = function.locals := by
  rw [frameOf, toList_blockLocalIds]
  rfl

/-- The scratch words of a frame lie behind its locals. -/
theorem scratchOffset_frameOf (program : Program) (sizes : Sizes) (function : Function) :
    (frameOf program sizes function).scratchOffset =
      (frameOf program sizes function).localOffset +
        totalWords (variableWords program sizes) function.locals :=
  congrArg (fun ids => (frameOf program sizes function).localOffset +
    totalWords (variableWords program sizes) ids) (toList_localIds_frameOf program sizes function)

/-- Variables that pass the check are declared in the program. -/
theorem checkDeclared_ok {ids : List Nat} (h : checkDeclared program ids = .ok ()) :
    ∀ id ∈ ids, id < program.vars.size := by
  induction ids with
  | nil => simp
  | cons first rest ih =>
      unfold checkDeclared at h
      split at h
      · next hFirst => exact List.forall_mem_cons.mpr ⟨hFirst, ih h⟩
      · cases h

/-- What the allocation of frames has done for some functions. -/
structure Allocated (program : Program) (sizes : Sizes)
    (functions : List Function) (table : Slots) : Prop where
  size_eq : table.slots.size = program.vars.size
  frames_eq : table.frames.toList = functions.map (frameOf program sizes)
  placed : ∀ function ∈ functions, PlacesFrame program sizes table function
  /-- Only variables of frames have slots in frames. -/
  own : ∀ id region index, table.slots[id]? = some (some ⟨region, index⟩) → region.isData = false →
    id ∈ functions.flatMap Function.frameIds

/-- The frame at the position of a function is its own. -/
theorem Allocated.eq_frameOf {id : Nat} {frame : Frame}
    (h : Allocated program sizes program.functions.toList table)
    (hFunction : program.functions[id]? = some function) (hFrame : table.frame id = .ok frame) :
    frame = frameOf program sizes function :=
  Slots.eq_frameOf h.frames_eq hFunction hFrame

/-- A region stays tiled when the slots of its variables stay as they are. -/
theorem Tiles.congr {words : Nat → Nat} {region : Region} {ids : List Nat} {start finish : Nat}
    (h : Tiles table words region ids start finish)
    (hSame : ∀ id ∈ ids, next.slots[id]? = table.slots[id]?) :
    Tiles next words region ids start finish := by
  induction ids generalizing start with
  | nil => exact h
  | cons first rest ih =>
      rw [List.forall_mem_cons] at hSame
      exact ⟨hSame.1.trans h.1, ih h.2 hSame.2⟩

/-- A variable has its slot from the assignment or from before it. -/
theorem slot_of_assign {region : Region} {places : List (Nat × Nat)} {slots : Array (Option Slot)}
    {id : Nat} {slot : Slot} (h : (assign region places slots)[id]? = some (some slot)) :
    (id ∈ places.map Prod.fst ∧ slot.region = region) ∨ slots[id]? = some (some slot) := by
  induction places generalizing slots with
  | nil => exact .inr h
  | cons place rest ih =>
      rcases ih h with ⟨hMem, hRegion⟩ | hBefore
      · exact .inl ⟨List.mem_cons_of_mem _ hMem, hRegion⟩
      · rw [Array.getElem?_setIfInBounds] at hBefore
        split at hBefore
        · next hSame =>
            split at hBefore
            · cases hBefore
              exact .inl ⟨by simp [hSame], rfl⟩
            · cases hBefore
        · exact .inr hBefore

/-- Before the first function no variable has a slot in a frame. -/
theorem allocated_ofData (h : ofData program sizes = .ok table) :
    Allocated program sizes [] table := by
  unfold ofData at h
  obtain ⟨_, _, h⟩ := bind_eq_ok.mp h
  obtain ⟨_, _, h⟩ := bind_eq_ok.mp h
  cases h
  refine ⟨by simp [size_assign], rfl, by simp, fun id region index hSlot hRegion => ?_⟩
  rcases slot_of_assign hSlot with ⟨_, rfl⟩ | hSlot
  · cases hRegion
  rcases slot_of_assign hSlot with ⟨_, rfl⟩ | hSlot
  · cases hRegion
  rcases slot_of_assign hSlot with ⟨_, rfl⟩ | hSlot
  · cases hRegion
  · rw [Array.getElem?_replicate] at hSlot
    split at hSlot <;> cases hSlot

/-- The frame of a function whose variables are all different. -/
theorem placesFrame_assign {slots : Array (Option Slot)} (hSize : slots.size = program.vars.size)
    (hOnce : function.frameIds.Nodup) (hDeclared : ∀ id ∈ function.frameIds, id < program.vars.size)
    (hNext : next.slots = assign .locals (consecutive (variableWords program sizes)
        (frameOf program sizes function).localOffset function.locals)
      (assign .parameters (consecutive (variableWords program sizes) 0
        function.parameters) slots)) :
    PlacesFrame program sizes next function := by
  obtain ⟨hParameters, hLocals, hApart⟩ := List.nodup_append'.mp hOnce
  obtain ⟨hParameterIds, hLocalIds⟩ := List.forall_mem_append.mp hDeclared
  refine ⟨?_, ?_⟩
  · have hSlots : ∀ id offset,
        (id, offset) ∈ consecutive (variableWords program sizes) 0 function.parameters →
        next.slots[id]? = some (some ⟨.parameters, offset⟩) := by
      intro id offset hMem
      have hId := (consecutive_bounds hMem).1
      rw [hNext, getElem?_assign_of_not_mem
        (not_mem_consecutive (List.disjoint_left.mp hApart hId) _)]
      exact getElem?_assign_of_mem (nodup_consecutive hParameters _) hMem
        (hSize ▸ hParameterIds id hId)
    have hTiles := tiles_of_consecutive hSlots
    rwa [Nat.zero_add] at hTiles
  · rw [scratchOffset_frameOf]
    refine tiles_of_consecutive fun id offset hMem => ?_
    rw [hNext]
    exact getElem?_assign_of_mem (nodup_consecutive hLocals _) hMem
      (by rw [size_assign, hSize]; exact hLocalIds id (consecutive_bounds hMem).1)

/-- The frame of a function that shares no variable with those before it. -/
theorem Allocated.addFrame {functions : List Function} (h : Allocated program sizes functions table)
    (hOnce : ((functions ++ [function]).flatMap Function.frameIds).Nodup)
    (hNext : Slots.addFrame program sizes table function = .ok next) :
    Allocated program sizes (functions ++ [function]) next := by
  obtain ⟨_, hParameters, hNext⟩ := bind_eq_ok.mp hNext
  obtain ⟨_, hLocals, hNext⟩ := bind_eq_ok.mp hNext
  obtain ⟨_, _, hNext⟩ := bind_eq_ok.mp hNext
  cases hNext
  rw [List.flatMap_append, List.flatMap_singleton, List.nodup_append'] at hOnce
  obtain ⟨_, hOwn, hApart⟩ := hOnce
  have hDeclared : ∀ id ∈ function.frameIds, id < program.vars.size :=
    List.forall_mem_append.mpr ⟨checkDeclared_ok hParameters,
      toList_localIds_frameOf program sizes function ▸ checkDeclared_ok hLocals⟩
  refine ⟨by simp [size_assign, h.size_eq], by simp [h.frames_eq], fun other hOther => ?_,
    fun id region index hSlot hRegion => ?_⟩
  · rcases List.mem_append.mp hOther with hBefore | hLast
    · -- the slots of a function before this one stay as they are
      have hSame : ∀ id ∈ other.frameIds, id ∉ function.frameIds := fun id hId hMem =>
        hApart (List.mem_flatMap.mpr ⟨other, hBefore, hId⟩) hMem
      obtain ⟨hOtherParameters, hOtherLocals⟩ := h.placed other hBefore
      refine ⟨hOtherParameters.congr fun id hId => ?_, hOtherLocals.congr fun id hId => ?_⟩
      all_goals
        have hFresh : id ∉ function.frameIds := hSame id (by simp [Function.frameIds, hId])
        rw [Function.frameIds, List.mem_append, not_or] at hFresh
        dsimp only
        rw [toList_localIds_frameOf, getElem?_assign_of_not_mem (not_mem_consecutive hFresh.2 _),
          getElem?_assign_of_not_mem (not_mem_consecutive hFresh.1 _)]
    · rw [List.mem_singleton.mp hLast]
      refine placesFrame_assign h.size_eq hOwn hDeclared ?_
      rw [toList_localIds_frameOf]
  · rw [List.flatMap_append, List.flatMap_singleton, List.mem_append]
    rcases slot_of_assign hSlot with ⟨hMem, _⟩ | hSlot
    · rw [map_fst_consecutive, toList_localIds_frameOf] at hMem
      exact .inr (List.mem_append_right _ hMem)
    rcases slot_of_assign hSlot with ⟨hMem, _⟩ | hSlot
    · rw [map_fst_consecutive] at hMem
      exact .inr (List.mem_append_left _ hMem)
    · exact .inl (h.own id region index hSlot hRegion)

/-- Frames are added one by one, and a later frame leaves the earlier ones
alone, since no variable is held by two of them. -/
theorem Allocated.addFrames {before rest : List Function} (h : Allocated program sizes before table)
    (hOnce : ((before ++ rest).flatMap Function.frameIds).Nodup)
    (hNext : rest.foldlM (Slots.addFrame program sizes) table = .ok next) :
    Allocated program sizes (before ++ rest) next := by
  induction rest generalizing before table with
  | nil =>
      cases hNext
      rwa [List.append_nil]
  | cons first others ih =>
      obtain ⟨middle, hMiddle, hRest⟩ := bind_eq_ok.mp hNext
      rw [List.append_cons] at hOnce ⊢
      have hFirst : ((before ++ [first]).flatMap Function.frameIds).Nodup := by
        rw [List.flatMap_append, List.nodup_append'] at hOnce
        exact hOnce.1
      exact ih (h.addFrame hFirst hMiddle) hOnce hRest

/-- In a program that has no variable in two frames, or twice in one, every
function finds its variables in its own frame, and no others are in frames. -/
theorem allocated_ofProgram (hOnce : program.frameIds.Nodup)
    (h : ofProgram program sizes = .ok table) :
    Allocated program sizes program.functions.toList table := by
  obtain ⟨start, hStart, h⟩ := bind_eq_ok.mp h
  rw [← Array.foldlM_toList] at h
  exact (allocated_ofData hStart).addFrames hOnce h

end Frames
end Slots
end ScriptBackend
