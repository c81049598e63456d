import ScriptBackend.Proofs.Lowering.FrameAccesses
import ScriptBackend.Proofs.Machine.OneArray

/-!
Places that members and elements of variables are found at. Their addresses,
their stores and their loads are lowered apart, in forms for single words and
for many; here all of them are seen to be about the same words.
-/
namespace ScriptBackend.Lowering

open ScriptBackend.Assembly

/-- What the evaluation of an index does: the word that it pushes, the memory
that it leaves, and the positions of the words that it loads and stores. -/
structure Reading where
  word : Memory → Word
  after : Memory → Memory
  touches : Memory → Nat → Prop

/-- A step from a value to a part of it. -/
inductive Descent where
  | member (offset : Nat)
  | element (index : Reading) (size : Nat)

namespace Descent

/-- The memory once all indices are evaluated, those of the last descent first. -/
def after : List Descent → Memory → Memory
  | [], memory => memory
  | .member _ :: rest, memory => after rest memory
  | .element index _ :: rest, memory => after rest (index.after memory)

def indices : List Descent → Memory → List Word
  | [], _ => []
  | .member _ :: rest, memory => indices rest memory
  | .element index _ :: rest, memory => index.word memory :: indices rest (index.after memory)

/-- Whether the evaluation of an index loads or stores the word at a position. -/
def touches : List Descent → Memory → Nat → Prop
  | [], _, _ => False
  | .member _ :: rest, memory, i => touches rest memory i
  | .element index _ :: rest, memory, i =>
    index.touches memory i ∨ touches rest (index.after memory) i

/-- How many words behind the beginning of a value its part begins: the offsets
of members, and one word and the elements in front for each element. -/
def distance : List Descent → Memory → UInt64
  | [], _ => 0
  | .member offset :: rest, memory => distance rest memory + UInt64.ofNat offset
  | .element index size :: rest, memory =>
    distance rest (index.after memory) + (1 + (index.word memory).bits * UInt64.ofNat size)

/-- Only the indices matter to the distance. -/
theorem distance_congr (descents : List Descent) {memory other : Memory}
    (h : indices descents memory = indices descents other) :
    distance descents memory = distance descents other := by
  induction descents generalizing memory other with
  | nil => rfl
  | cons descent rest ih =>
      cases descent with
      | member offset => rw [distance, distance, ih h]
      | element index size =>
          obtain ⟨hIndex, hRest⟩ := List.cons.inj h
          rw [distance, distance, ih hRest, hIndex]

end Descent

/-- The way to a place: the slot of a variable, whether the variable is a
reference, and the descents to the place, the last one first. -/
structure Route where
  slot : Slot
  isReference : Bool
  descents : List Descent

namespace Route

variable (machine : Machine) (route : Route)

/-- The address of the variable, or the address that it holds if it is a
reference. -/
def start (memory : Memory) : Word :=
  let own := addressOf (machine.position route.slot)
  if route.isReference then memory own.position else own

def after (memory : Memory) : Memory :=
  Descent.after route.descents memory

/-- The address of the place. -/
def address (memory : Memory) : Word :=
  ⟨(route.start machine (route.after memory)).bits + Descent.distance route.descents memory * 8⟩

/-- The memory once words are stored in the place. -/
def stored (memory : Memory) (words : List Word) : Memory :=
  written (route.after memory) (route.address machine memory).position words

def descend (descent : Descent) : Route :=
  { route with descents := descent :: route.descents }

/-- Whether a word is loaded or stored on the way to the place: by an index, or
as the address that a reference holds. -/
def touches (memory : Memory) (i : Nat) : Prop :=
  Descent.touches route.descents memory i ∨
    route.isReference = true ∧ i = (addressOf (machine.position route.slot)).position

/-- The words on the way to the place are at allowed positions, and so are as
many of its own words as counted. -/
structure KeepsTo (allowed : Nat → Prop) (memory : Memory) (size : Nat) : Prop where
  way : ∀ i, route.touches machine memory i → allowed i
  place : ∀ i, (route.address machine memory).position ≤ i →
    i < (route.address machine memory).position + size → allowed i

variable {machine route}

theorem address_root (slot : Slot) (isReference : Bool) (memory : Memory) :
    address machine ⟨slot, isReference, []⟩ memory =
      start machine ⟨slot, isReference, []⟩ memory := by
  rw [address, Descent.distance, UInt64.zero_mul, UInt64.add_zero, after, Descent.after]

/-- A member is reached from the address of the whole by its offset, counted in
words. -/
theorem address_member (memory : Memory) {offset : Nat} (h : offset < 0x80000000) :
    (route.descend (.member offset)).address machine memory =
      (route.address machine memory).moved (Int32.ofNat offset) := by
  rw [Word.moved_ofNat _ h]
  simp only [address, descend, after, start, Descent.after, Descent.distance, UInt64.add_mul,
    UInt64.add_assoc]

/-- An element is reached by the index, which may change the memory before the
array is looked at. -/
theorem address_element (memory : Memory) (index : Reading) (size : Nat) :
    (route.descend (.element index size)).address machine memory =
      (route.address machine (index.after memory)).item (index.word memory) size := by
  simp only [address, descend, after, start, Descent.after, Descent.distance, Word.item,
    UInt64.add_mul, UInt64.one_mul, UInt64.add_assoc]

/-- A place stays where it is while the indices stay and the address that a
reference holds does. -/
theorem address_congr {memory other : Memory}
    (hIndices : Descent.indices route.descents memory = Descent.indices route.descents other)
    (hHeld : route.isReference = true →
      route.start machine (route.after memory) = route.start machine (route.after other)) :
    route.address machine memory = route.address machine other := by
  have hStart :
      route.start machine (route.after memory) = route.start machine (route.after other) := by
    cases hReference : route.isReference with
    | true => exact hHeld hReference
    | false => simp [start, hReference]
  rw [address, address, hStart, Descent.distance_congr _ hIndices]

namespace KeepsTo

variable {allowed : Nat → Prop} {memory : Memory} {size : Nat}

/-- The address alone needs none of the words of the place. -/
theorem locating (h : ∀ i, route.touches machine memory i → allowed i) :
    route.KeepsTo machine allowed memory 0 :=
  ⟨h, fun i hFrom hTo => (Nat.not_lt_of_le hFrom (by simpa using hTo)).elim⟩

/-- A place of one word is kept to when that word may be accessed. -/
theorem single (h : route.KeepsTo machine allowed memory 1) :
    allowed (route.address machine memory).position :=
  h.place _ (Nat.le_refl _) (Nat.lt_succ_self _)

/-- A place behind a reference is kept to only if the reference itself may be
read. -/
theorem held (h : route.KeepsTo machine allowed memory size)
    (hReference : route.isReference = true) :
    allowed (addressOf (machine.position route.slot)).position :=
  h.way _ (.inr ⟨hReference, rfl⟩)

/-- The way to a member is that to its base. -/
theorem member {offset : Nat}
    (h : (route.descend (.member offset)).KeepsTo machine allowed memory size) :
    route.KeepsTo machine allowed memory 0 :=
  locating h.way

/-- The way to an element goes over the index and then to the array. -/
theorem index {reading : Reading} {item : Nat}
    (h : (route.descend (.element reading item)).KeepsTo machine allowed memory size) :
    ∀ i, reading.touches memory i → allowed i :=
  fun i hIndex => h.way i (.inl (.inl hIndex))

/-- To reach an element, the array must be reached first, in the memory that the
index leaves. -/
theorem element {reading : Reading} {item : Nat}
    (h : (route.descend (.element reading item)).KeepsTo machine allowed memory size) :
    route.KeepsTo machine allowed (reading.after memory) 0 :=
  locating fun i hTouched => h.way i (hTouched.imp_left .inr)

end KeepsTo

end Route

namespace Machine

/-- Whether a word of memory is a scratch word of the frame. -/
def IsScratch (machine : Machine) (frame : Frame) (position : Nat) : Prop :=
  machine.bases.frame + frame.scratchOffset ≤ position ∧
    position < machine.bases.frame + frame.scratchOffset + frame.scratchWords

namespace Execution

variable {machine : Machine} (ways : machine.Execution) (environment : Environment)

/-- An index whose evaluation pushes a word and changes no memory but scratch
words. -/
structure Reads (position : Expr) (reading : Reading) : Prop where
  runs : ∀ {n m : Nat} {code : Code}, (environment.value position).run n = .ok (code, m) →
    ∀ (stack : List Word) (memory : Memory), (∀ i, reading.touches memory i → ways.allowed i) →
      ways.runs code ⟨stack, memory⟩ ⟨reading.word memory :: stack, reading.after memory⟩
  keeps : ∀ (memory : Memory) (i : Nat), ¬ machine.IsScratch environment.frame i →
    reading.after memory i = memory i

/-- Expressions made of members and elements of a variable that is no constant,
with the ways to their places. Sizes are those that words can count, and members
are not so far behind that their distance is negative as a number of 32 bits. -/
inductive Leads : Expr → Route → Prop
  | root {info : Info} {id : Nat} {declared : Variable} {slot : Slot}
      (kept : info.isConstant = false) (declaration : environment.declaration id = .ok declared)
      (storage : declared.storage ≠ .constant) (placed : environment.place id = .ok slot)
      (near : slot.index < 2 ^ 63)
      (size_eq : environment.sizes.of info.ty = environment.sizes.of declared.ty.target)
      (small : environment.sizes.of info.ty < wordLimit) :
      Leads (.var info id) ⟨slot, declared.ty.isRef, []⟩
  | member {info : Info} {base : Expr} {field : String} {offset : Nat} {route : Route}
      (base_leads : Leads base route) (placed : environment.memberOffset base.ty field = .ok offset)
      (near : offset < 0x80000000) (small : environment.sizes.of info.ty < wordLimit) :
      Leads (.member info base field) (route.descend (.member offset))
  | element {info : Info} {array position : Expr} {reading : Reading} {route : Route}
      (array_leads : Leads array route) (reads : ways.Reads environment position reading)
      (small : environment.sizes.of info.ty < wordLimit) :
      Leads (.index info array position)
        (route.descend (.element reading (environment.sizes.of info.ty)))

variable {ways environment} {e : Expr} {route : Route}

namespace Leads

/-- A variable that is no constant leads to its slot. -/
theorem ofVariable {id : Nat} {declared : Variable} {slot : Slot}
    (hDeclared : environment.declaration id = .ok declared)
    (hStorage : declared.storage ≠ .constant)
    (hPlaced : environment.place id = .ok slot) (hNear : slot.index < 2 ^ 63)
    (hSmall : environment.sizes.of declared.ty.target < wordLimit) :
    ways.Leads environment (.ofVariable environment.program id) ⟨slot, declared.ty.isRef, []⟩ := by
  have hVariable :
      Expr.ofVariable environment.program id = .var ⟨declared.ty.target, false, true⟩ id := by
    rw [Expr.ofVariable, declaration_ok hDeclared]
    simp [hStorage]
  rw [hVariable]
  exact .root rfl hDeclared hStorage hPlaced hNear rfl hSmall

theorem isStored (h : ways.Leads environment e route) : isStored e = true := by
  cases h with
  | root kept =>
      rw [Lowering.isStored, kept]
      rfl
  | member => rfl
  | element => rfl

theorem small (h : ways.Leads environment e route) : environment.sizes.of e.ty < wordLimit := by
  cases h <;> assumption

/-- Only scratch words change while indices are evaluated. -/
theorem after_eq (h : ways.Leads environment e route) (memory : Memory) {i : Nat}
    (hScratch : ¬ machine.IsScratch environment.frame i) : route.after memory i = memory i := by
  induction h generalizing memory with
  | root => rfl
  | member _ _ _ _ ih => exact ih memory
  | element _ reads _ ih => exact (ih _).trans (reads.keeps memory i hScratch)

/-- The value of a place is never known when code is made. -/
theorem unknown (h : ways.Leads environment e route) :
    knownWords? environment.toSetting e = none := by
  unfold knownWords?
  split
  · next hConstant =>
      cases h with
      | root kept => cases kept.symm.trans hConstant
      | member => rfl
      | element => rfl
  · rfl

/-- Places are read through the addresses that they are stored through. -/
theorem storedAddress_eq (h : ways.Leads environment e route) (constant : Expr → Gen Code) :
    storedAddress environment constant e = Lowering.address environment constant e := by
  induction h with
  | root => rw [storedAddress, Lowering.address]
  | member base_leads _ _ _ ih =>
      simp only [storedAddress, Lowering.address, base_leads.isStored, if_true, ih]
  | element array_leads _ _ ih =>
      simp only [storedAddress, Lowering.address, array_leads.isStored, if_true, ih]

end Leads

/-! Addresses -/

section Code

variable {id : Nat} {declared : Variable} {slot : Slot} {n m : Nat} {code : Code} {memory : Memory}

theorem localLoad_eq {region : Region} (h : Region.isInFrame region = true) (index : Nat) :
    (counted "LOCAL_LOAD" [index]).content =
      (counted (Region.mnemonic region ++ suffix .load) [index]).content := by
  rw [mnemonic_of_isInFrame h]
  rfl

/-- The address that a reference holds is loaded. -/
theorem heldAddress (hDeclared : environment.declaration id = .ok declared)
    (hPlaced : environment.place id = .ok slot) (hReference : declared.ty.isRef = true)
    (hNear : slot.index < 2 ^ 63)
    (hKeeps : ways.allowed (addressOf (machine.position slot)).position) (stack : List Word) :
    ways.runs [counted "LOCAL_LOAD" [slot.index]] ⟨stack, memory⟩
      ⟨Route.start machine ⟨slot, true, []⟩ memory :: stack, memory⟩ := by
  have hFrame := (place_ok hDeclared hPlaced).2 hReference
  exact ways.slot (localLoad_eq hFrame slot.index) hNear rfl fun _ => hKeeps

/-- The address of a variable is its slot, or the word in it if the variable is
a reference. -/
theorem variableAddress (hDeclared : environment.declaration id = .ok declared)
    (hPlaced : environment.place id = .ok slot) (hNear : slot.index < 2 ^ 63)
    (h : environment.variableAddress id = .ok code) {size : Nat}
    (hKeeps : Route.KeepsTo machine ⟨slot, declared.ty.isRef, []⟩ ways.allowed memory size)
    (stack : List Word) :
    ways.runs code ⟨stack, memory⟩
      ⟨Route.start machine ⟨slot, declared.ty.isRef, []⟩ memory :: stack, memory⟩ := by
  obtain ⟨_, hSame, h⟩ := Outcome.bind_eq_ok.mp h
  cases hSame.symm.trans hDeclared
  obtain ⟨_, hSame, h⟩ := Outcome.bind_eq_ok.mp h
  cases hSame.symm.trans hPlaced
  cases hReference : declared.ty.isRef with
  | true =>
      rw [if_pos hReference] at h
      cases h
      exact heldAddress hDeclared hPlaced hReference hNear (hKeeps.held hReference) stack
  | false =>
      rw [if_neg (by simp [hReference])] at h
      cases h
      have hContent : (counted (Region.mnemonic slot.region) [slot.index]).content =
          (counted (Region.mnemonic slot.region ++ suffix .locate) [slot.index]).content := by
        rw [suffix, String.append_empty]
      exact ways.slot hContent hNear rfl fun hKind => (hKind rfl).elim

/-- The code of an address leaves the address of the place on the stack. -/
theorem Leads.address (h : ways.Leads environment e route)
    (hCode : (environment.address e).run n = .ok (code, m))
    (hKeeps : route.KeepsTo machine ways.allowed memory 0) (stack : List Word) :
    ways.runs code ⟨stack, memory⟩ ⟨route.address machine memory :: stack, route.after memory⟩ := by
  induction h generalizing n m code stack memory with
  | root _ declaration _ placed near =>
      obtain ⟨hAddress, _⟩ := run_lift_eq_ok.mp hCode
      have hRun := variableAddress declaration placed near hAddress hKeeps stack
      rwa [← Route.address_root] at hRun
  | member _ placed near _ ih =>
      obtain ⟨_, hOffset, hCode⟩ := run_lift_bind_eq_ok.mp hCode
      cases hOffset.symm.trans placed
      obtain ⟨base, _, hBase, hCode⟩ := run_bind_eq_ok.mp hCode
      obtain ⟨rfl, _⟩ := run_pure_eq_ok.mp hCode
      rw [Route.address_member memory near]
      exact ways.append (ih hBase hKeeps.member stack) (ways.atOffset (by omega))
  | @element info array position reading route _ reads small ih =>
      obtain ⟨_, hMeasured, hCode⟩ := run_lift_bind_eq_ok.mp hCode
      obtain rfl := Sizes.of_eq_of_measure hMeasured
      obtain ⟨index, _, hIndex, hCode⟩ := run_bind_eq_ok.mp hCode
      obtain ⟨base, _, hBase, hCode⟩ := run_bind_eq_ok.mp hCode
      obtain ⟨rfl, _⟩ := run_pure_eq_ok.mp hCode
      have hSize : environment.sizes.of info.ty < 2 ^ 32 := small
      have hPushed := reads.runs hIndex stack memory hKeeps.index
      have hArray := ih hBase hKeeps.element (reading.word memory :: stack)
      rw [Route.address_element]
      exact ways.append (ways.append hPushed hArray)
        (@Execution.item machine ways _ .locate _ _ _ _ _ _ rfl (by omega) rfl
          fun hKind => (hKind rfl).elim)

/-! Stores -/

/-- A single word goes to a variable. -/
theorem variableStore (hDeclared : environment.declaration id = .ok declared)
    (hPlaced : environment.place id = .ok slot) (hNear : slot.index < 2 ^ 63)
    (h : environment.variableStore id = .ok code)
    (hKeeps : Route.KeepsTo machine ⟨slot, declared.ty.isRef, []⟩ ways.allowed memory 1)
    (word : Word) (stack : List Word) :
    ways.runs code ⟨word :: stack, memory⟩
      ⟨stack, written memory (Route.start machine ⟨slot, declared.ty.isRef, []⟩ memory).position
        [word]⟩ := by
  have hPlace := hKeeps.single
  rw [Route.address_root] at hPlace
  obtain ⟨_, hSame, h⟩ := Outcome.bind_eq_ok.mp h
  cases hSame.symm.trans hDeclared
  obtain ⟨_, hSame, h⟩ := Outcome.bind_eq_ok.mp h
  cases hSame.symm.trans hPlaced
  dsimp only at h
  cases hReference : declared.ty.isRef with
  | true =>
      rw [if_pos hReference] at h
      cases h
      rw [hReference] at hPlace
      refine ways.cons (heldAddress hDeclared hPlaced hReference hNear (hKeeps.held hReference)
        (word :: stack)) ?_
      exact ways.access (motion?_plain .store) rfl rfl fun _ => hPlace
  | false =>
      rw [if_neg (by simp [hReference])] at h
      cases h
      rw [hReference] at hPlace
      exact @Execution.slot machine ways _ .store _ _ slot rfl hNear rfl fun _ => hPlace

/-- The code of a store takes the words of a value from the stack to the place. -/
theorem Leads.store (h : ways.Leads environment e route)
    (hCode : (Lowering.store environment e).run n = .ok (code, m)) {words : List Word}
    (hLength : words.length = environment.sizes.of e.ty)
    (hKeeps : route.KeepsTo machine ways.allowed memory words.length) (stack : List Word) :
    ways.runs code ⟨words.reverse ++ stack, memory⟩ ⟨stack, route.stored machine memory words⟩ := by
  have hSmall := h.small
  unfold Lowering.store at hCode
  obtain ⟨_, hMeasured, hCode⟩ := run_lift_bind_eq_ok.mp hCode
  obtain rfl := Sizes.of_eq_of_measure hMeasured
  split at hCode
  · obtain ⟨place, _, hPlace, hCode⟩ := run_bind_eq_ok.mp hCode
    obtain ⟨rfl, _⟩ := run_pure_eq_ok.mp hCode
    have hAddress := h.address hPlace (.locating hKeeps.way)
      (countWord words.length :: (words.reverse ++ stack))
    rw [← hLength] at hSmall ⊢
    exact ways.append (ways.cons (ways.pushCount words.length) hAddress)
      (ways.storeMany rfl hSmall hKeeps.place)
  · next hOne =>
      rw [Decidable.not_not] at hOne
      rw [hOne] at hLength
      obtain ⟨word, rfl⟩ := List.length_eq_one_iff.mp hLength
      have hPlace := hKeeps.single
      cases h with
      | root _ declaration _ placed near =>
          obtain ⟨hStore, _⟩ := run_lift_eq_ok.mp hCode
          rw [Route.stored, Route.address_root]
          exact variableStore declaration placed near hStore hKeeps word stack
      | member base_leads placed near =>
          obtain ⟨_, hOffset, hCode⟩ := run_lift_bind_eq_ok.mp hCode
          cases hOffset.symm.trans placed
          obtain ⟨base, _, hBase, hCode⟩ := run_bind_eq_ok.mp hCode
          obtain ⟨rfl, _⟩ := run_pure_eq_ok.mp hCode
          rw [Route.address_member memory near] at hPlace
          rw [Route.stored, Route.address_member memory near]
          exact ways.append (base_leads.address hBase hKeeps.member (word :: stack))
            (@Execution.behind machine ways _ .store _ _ _ _ _ rfl (by omega) rfl fun _ => hPlace)
      | @element info array position reading route array_leads reads =>
          obtain ⟨index, _, hIndex, hCode⟩ := run_bind_eq_ok.mp hCode
          obtain ⟨base, _, hBase, hCode⟩ := run_bind_eq_ok.mp hCode
          obtain ⟨rfl, _⟩ := run_pure_eq_ok.mp hCode
          have hSize : environment.sizes.of info.ty = 1 := hOne
          have hPushed := reads.runs hIndex (word :: stack) memory hKeeps.index
          have hArray := array_leads.address hBase hKeeps.element
            (reading.word memory :: word :: stack)
          rw [Route.address_element, hSize] at hPlace
          rw [Route.stored, Route.address_element, hSize]
          exact ways.append (ways.append hPushed hArray)
            (@Execution.item machine ways _ .store _ _ _ _ _ _ rfl (by omega) rfl fun _ => hPlace)

/-! Loads -/

/-- Many words are loaded from an address that is behind their count. -/
theorem countedLoad {address : Word} {next : Memory} {size : Nat} (hSmall : size < wordLimit)
    (h : ∀ stack : List Word, ways.runs code ⟨stack, memory⟩ ⟨address :: stack, next⟩)
    (statement : Statement) (hContent : statement.content = (plain "LOAD_N").content)
    (hKeeps : ∀ i, address.position ≤ i → i < address.position + size → ways.allowed i)
    (stack : List Word) :
    ways.runs (counted "PUSH_CONST" [size] :: code ++ [statement]) ⟨stack, memory⟩
      ⟨(wordsAt next address.position size).reverse ++ stack, next⟩ :=
  ways.append (ways.cons (ways.pushCount size) (h (countWord size :: stack)))
    (ways.loadMany hContent hSmall hKeeps)

/-- A variable is loaded from its slot, or from where the word in it points. -/
theorem variableLoad (hDeclared : environment.declaration id = .ok declared)
    (hPlaced : environment.place id = .ok slot) (hNear : slot.index < 2 ^ 63)
    (hSmall : environment.sizes.of declared.ty.target < wordLimit)
    (h : environment.variableLoad id = .ok code)
    (hKeeps : Route.KeepsTo machine ⟨slot, declared.ty.isRef, []⟩ ways.allowed memory
      (environment.sizes.of declared.ty.target)) (stack : List Word) :
    ways.runs code ⟨stack, memory⟩
      ⟨(wordsAt memory (Route.start machine ⟨slot, declared.ty.isRef, []⟩ memory).position
        (environment.sizes.of declared.ty.target)).reverse ++ stack, memory⟩ := by
  have hPlace := hKeeps.place
  rw [Route.address_root] at hPlace
  obtain ⟨_, _, hSame, hSameSlot, hLoads⟩ := variableLoad_loads h
  cases hSame.symm.trans hDeclared
  cases hSameSlot.symm.trans hPlaced
  cases hLoads with
  | through single isRef =>
      rw [single, isRef] at hPlace
      rw [single, wordsAt_one, isRef]
      refine ways.cons (heldAddress hDeclared hPlaced isRef hNear (hKeeps.held isRef) stack) ?_
      exact ways.access (motion?_plain .load) rfl rfl
        fun _ => hPlace _ (Nat.le_refl _) (Nat.lt_succ_self _)
  | word single isValue =>
      rw [single, isValue] at hPlace
      rw [single, wordsAt_one, isValue]
      exact @Execution.slot machine ways _ .load _ _ slot rfl hNear rfl
        fun _ => hPlace _ (Nat.le_refl _) (Nat.lt_succ_self _)
  | words several address_code =>
      exact countedLoad hSmall (variableAddress hDeclared hPlaced hNear address_code hKeeps)
        (commented declared.name (plain "LOAD_N")) rfl hPlace stack

/-- The code of a value leaves the words of the place on the stack. -/
theorem Leads.value (h : ways.Leads environment e route)
    (hCode : (environment.value e).run n = .ok (code, m))
    (hKeeps : route.KeepsTo machine ways.allowed memory (environment.sizes.of e.ty))
    (stack : List Word) :
    ways.runs code ⟨stack, memory⟩
      ⟨(wordsAt (route.after memory) (route.address machine memory).position
        (environment.sizes.of e.ty)).reverse ++ stack, route.after memory⟩ := by
  have hSmall := h.small
  have hUnknown := h.unknown
  rw [Environment.value, Lowering.value.eq_def, hUnknown] at hCode
  cases h with
  | @root info id declared slot _ declaration storage placed near size_eq =>
      obtain ⟨_, hSame, hCode⟩ := run_lift_bind_eq_ok.mp hCode
      cases hSame.symm.trans declaration
      rw [if_neg storage] at hCode
      obtain ⟨hLoad, _⟩ := run_lift_eq_ok.mp hCode
      have hSize : environment.sizes.of (Expr.var info id).ty =
          environment.sizes.of declared.ty.target := size_eq
      rw [hSize] at hKeeps hSmall ⊢
      rw [Route.address_root]
      exact variableLoad declaration placed near hSmall hLoad hKeeps stack
  | @member info base field offset route base_leads placed near =>
      simp only [base_leads.isStored, if_true, base_leads.storedAddress_eq] at hCode
      obtain ⟨_, hMeasured, hCode⟩ := run_lift_bind_eq_ok.mp hCode
      obtain rfl := Sizes.of_eq_of_measure hMeasured
      obtain ⟨_, hOffset, hCode⟩ := run_lift_bind_eq_ok.mp hCode
      cases hOffset.symm.trans placed
      obtain ⟨source, _, hBase, hCode⟩ := run_bind_eq_ok.mp hCode
      have hSize : (Expr.member info base field).ty = info.ty := rfl
      have hPlace := hKeeps.place
      rw [Route.address_member memory near, hSize] at hPlace ⊢
      split at hCode
      · next hOne =>
          obtain ⟨rfl, _⟩ := run_pure_eq_ok.mp hCode
          rw [hOne] at hPlace
          rw [hOne, wordsAt_one]
          exact ways.append (base_leads.address hBase hKeeps.member stack)
            (@Execution.behind machine ways _ .load _ _ _ _ _ rfl (by omega) rfl
              fun _ => hPlace _ (Nat.le_refl _) (Nat.lt_succ_self _))
      · obtain ⟨rfl, _⟩ := run_pure_eq_ok.mp hCode
        have hMember := fun stack => ways.append (base_leads.address hBase hKeeps.member stack)
          (@Execution.atOffset machine ways _ _ _ offset (by omega))
        exact countedLoad hSmall hMember _ rfl hPlace stack
  | @element info array position reading route array_leads reads =>
      simp only [array_leads.isStored, if_true, array_leads.storedAddress_eq] at hCode
      obtain ⟨_, hMeasured, hCode⟩ := run_lift_bind_eq_ok.mp hCode
      obtain rfl := Sizes.of_eq_of_measure hMeasured
      obtain ⟨index, _, hIndex, hCode⟩ := run_bind_eq_ok.mp hCode
      obtain ⟨source, _, hBase, hCode⟩ := run_bind_eq_ok.mp hCode
      have hSize : (Expr.index info array position).ty = info.ty := rfl
      have hLimit : environment.sizes.of info.ty < 2 ^ 32 := hSmall
      have hPlace := hKeeps.place
      rw [Route.address_element, hSize] at hPlace ⊢
      have hArray : ∀ stack, ways.runs (index ++ source) ⟨stack, memory⟩
          ⟨route.address machine (reading.after memory) :: reading.word memory :: stack,
            route.after (reading.after memory)⟩ := fun stack =>
        ways.append (reads.runs hIndex stack memory hKeeps.index)
          (array_leads.address hBase hKeeps.element (reading.word memory :: stack))
      split at hCode
      · next hOne =>
          obtain ⟨rfl, _⟩ := run_pure_eq_ok.mp hCode
          rw [hOne] at hPlace
          rw [hOne, wordsAt_one]
          exact ways.append (hArray stack)
            (@Execution.item machine ways _ .load _ _ _ _ _ _ rfl (by omega) rfl
              fun _ => hPlace _ (Nat.le_refl _) (Nat.lt_succ_self _))
      · obtain ⟨rfl, _⟩ := run_pure_eq_ok.mp hCode
        have hItem := fun stack => ways.append (hArray stack)
          (@Execution.item machine ways (counted "ARRAY" [environment.sizes.of info.ty]) .locate
            _ _ _ _ _ _ rfl (by omega) rfl fun hKind => (hKind rfl).elim)
        have hLoad := countedLoad hSmall hItem (plain "LOAD_N") rfl hPlace stack
        simp only [List.cons_append, List.append_assoc, List.nil_append] at hLoad ⊢
        exact hLoad

/-- A stored value is read back if the indices are the same then, a reference
still holds the address, and the indices are not spilled over the place. -/
theorem Leads.read_back (h : ways.Leads environment e route) {words : List Word}
    (hLength : words.length = environment.sizes.of e.ty) {next : Memory}
    (hNext : route.stored machine memory words = next)
    (hIndices : Descent.indices route.descents memory = Descent.indices route.descents next)
    (hHeld : route.isReference = true →
      route.start machine (route.after memory) = route.start machine (route.after next))
    (hKept : ∀ i, (route.address machine memory).position ≤ i →
      i < (route.address machine memory).position + words.length → route.after next i = next i)
    (hCode : (environment.value e).run n = .ok (code, m))
    (hKeeps : route.KeepsTo machine ways.allowed next words.length) (stack : List Word) :
    ways.runs code ⟨stack, next⟩ ⟨words.reverse ++ stack, route.after next⟩ := by
  rw [hLength] at hKeeps
  have hRun := h.value hCode hKeeps stack
  have hWords : wordsAt next (route.address machine memory).position words.length = words := by
    rw [← hNext]
    exact wordsAt_written _ _ words
  rwa [← Route.address_congr hIndices hHeld, ← hLength, wordsAt_congr hKept, hWords] at hRun

/-! Indices -/

/-- A constant is an index. -/
theorem Reads.known {position : Expr} {word : Datum}
    (h : knownWords? environment.toSetting position = some [word]) :
    ways.Reads environment position
      ⟨fun _ => machine.word word, fun memory => memory, fun _ _ => False⟩ where
  runs := fun {_ _ _} hCode stack memory _ => by
    rw [Environment.value, Lowering.value.eq_def, h] at hCode
    obtain ⟨rfl, _⟩ := run_pure_eq_ok.mp hCode
    exact ways.pushData [word]
  keeps := fun _ _ _ => rfl

/-- A place of one word is an index. -/
theorem Leads.reads (h : ways.Leads environment e route) (hOne : environment.sizes.of e.ty = 1)
    {reading : Reading}
    (hWord : ∀ memory,
      reading.word memory = route.after memory (route.address machine memory).position)
    (hAfter : ∀ memory, reading.after memory = route.after memory)
    (hTouches : ∀ memory i, route.touches machine memory i ∨
      i = (route.address machine memory).position → reading.touches memory i) :
    ways.Reads environment e reading where
  runs := fun {_ _ _} hCode stack memory hAllowed => by
    have hKeeps : route.KeepsTo machine ways.allowed memory 1 :=
      ⟨fun i hTouched => hAllowed i (hTouches memory i (.inl hTouched)), fun i hFrom hTo =>
        hAllowed i (hTouches memory i (.inr (Nat.le_antisymm (Nat.le_of_lt_succ hTo) hFrom)))⟩
    rw [← hOne] at hKeeps
    have hRun := h.value hCode hKeeps stack
    rwa [hOne, wordsAt_one, ← hWord, ← hAfter] at hRun
  keeps := fun memory _ hScratch => by
    rw [hAfter]
    exact h.after_eq memory hScratch

end Code

end Execution

end Machine

namespace ArrayMachine

variable (machine : ArrayMachine) (environment : Environment)

/-- Expressions lead to places wherever the operand stack begins. -/
def Leads (e : Expr) (route : Route) : Prop :=
  ∀ base, (machine.execution base).Leads environment e route

/-- Whether the words on the way to a place, and as many of its own as counted,
are in use below a base. -/
abbrev Below (base : Nat) (route : Route) (memory : Memory) (size : Nat) : Prop :=
  route.KeepsTo machine.motions (· < base) memory size

/-- Code of addresses, stores and values of a place agree on where it is, as
long as neither the words on the way to the place nor its own are free words, or
words that are on the stack to be stored. -/
structure Agrees (e : Expr) (route : Route) : Prop where
  located : ∀ {n m : Nat} {code : Code}, (environment.address e).run n = .ok (code, m) →
    ∀ (base : Nat) (stack : List Word) (memory : Memory), machine.Below base route memory 0 →
      machine.Drives base code ⟨stack, memory⟩
        ⟨route.address machine.motions memory :: stack, route.after memory⟩
  stored : ∀ {n m : Nat} {code : Code}, (store environment e).run n = .ok (code, m) →
    ∀ (words : List Word), words.length = environment.sizes.of e.ty →
      ∀ (base : Nat) (stack : List Word) (memory : Memory),
        machine.Below base route memory words.length →
          machine.Drives base code ⟨words.reverse ++ stack, memory⟩
            ⟨stack, route.stored machine.motions memory words⟩
  loaded : ∀ {n m : Nat} {code : Code}, (environment.value e).run n = .ok (code, m) →
    ∀ (base : Nat) (stack : List Word) (memory : Memory),
      machine.Below base route memory (environment.sizes.of e.ty) →
        machine.Drives base code ⟨stack, memory⟩
          ⟨(wordsAt (route.after memory) (route.address machine.motions memory).position
            (environment.sizes.of e.ty)).reverse ++ stack, route.after memory⟩
  kept : ∀ (memory : Memory) (i : Nat), ¬ machine.motions.IsScratch environment.frame i →
    route.after memory i = memory i
  read_back : ∀ {n m n' m' : Nat} {code loading : Code},
    (store environment e).run n = .ok (code, m) →
    (environment.value e).run n' = .ok (loading, m') →
    ∀ (words : List Word), words.length = environment.sizes.of e.ty →
      ∀ (base : Nat) (stack : List Word) (memory next : Memory),
        route.stored machine.motions memory words = next →
        machine.Below base route memory words.length → machine.Below base route next words.length →
        Descent.indices route.descents memory = Descent.indices route.descents next →
        (route.isReference = true → route.start machine.motions (route.after memory) =
          route.start machine.motions (route.after next)) →
        (∀ i, (route.address machine.motions memory).position ≤ i →
          i < (route.address machine.motions memory).position + words.length →
            route.after next i = next i) →
        machine.Drives base (code ++ loading) ⟨words.reverse ++ stack, memory⟩
          ⟨words.reverse ++ stack, route.after next⟩

/-- For every array, the address of a place is that of the variable, or the one
that a reference holds, with the distance of the place behind it. A store
changes the words there and besides them scratch words and free words alone, and
a load pushes the words there. So a value that is stored is read back if the
store leaves the indices as they are and the address that a reference holds, and
if the evaluation of the indices does not change the place. -/
theorem places_agree {machine : ArrayMachine} {environment : Environment} {e : Expr} {route : Route}
    (h : machine.Leads environment e route) : machine.Agrees environment e route where
  located := fun hCode base stack _ hBelow => (h base).address hCode hBelow stack
  stored := fun hCode _ hLength base stack _ hBelow => (h base).store hCode hLength hBelow stack
  loaded := fun hCode base stack _ hBelow => (h base).value hCode hBelow stack
  kept := fun memory _ hScratch => (h 0).after_eq memory hScratch
  read_back := by
    intro n m n' m' code loading hCode hLoading words hLength base stack memory next hNext hBelow
      hBelowNext hIndices hHeld hKept
    have hStored := (h base).store hCode hLength hBelow stack
    rw [hNext] at hStored
    exact (machine.execution base).append hStored
      ((h base).read_back hLength hNext hIndices hHeld hKept hLoading hBelowNext stack)

/-- A machine with its frame and its statics at fixed positions, which makes
floats integers. -/
def counting : ArrayMachine where
  bases := ⟨0x10000, 0x100, fun id => 0x1000 + id⟩
  names := fun _ => .zero
  texts := fun _ => .zero
  others := fun statement array =>
    match statement.content with
    | .instruction "F2I" [] => do
      let (word, rest) ← array.pop?
      return rest.push (.ofInt word.toFloat.toInt32.toInt)
    | _ => none

/-- Inside of a function with a reference to structs and with counts among the
statics. -/
def pointedEnvironment : Environment where
  program := ⟨"p", none, none, #[⟨"S", [⟨"h", .int, none⟩, ⟨"v", .vector, none⟩]⟩], #[],
    #[⟨"r", .ref (.array (.struct 0) 4), .placed .parameters, none⟩,
      ⟨"b", .array .int 2, .placed .statics, none⟩], #[], #[]⟩
  sizes := ⟨#[⟨"S", [⟨"h", .int, none⟩, ⟨"v", .vector, none⟩]⟩], #[4], #[true]⟩
  slots := ⟨#[some ⟨.parameters, 0⟩, some ⟨.statics, 0⟩], #[], [1], [], [], 3, 0, 0⟩
  natives := NativeDatabase.empty
  frame := ⟨1, 0, 0, 0, #[]⟩

def countPlace : Expr :=
  .elementOf (.ofVariable pointedEnvironment.program 1) (.ofInt 1)

def vectorPlace : Expr :=
  .memberOf pointedEnvironment.program
    (.elementOf (.ofVariable pointedEnvironment.program 0) countPlace) "v"

def pointedAddress : Code :=
  [counted "PUSH_CONST" [1], counted "STATIC" [0], counted "ARRAY_LOAD" [1],
    counted "LOCAL_LOAD" [0], counted "ARRAY" [4], counted "IOFFSET_CONST" [1]]

/-- The count is two, and the reference holds an address below the frame. -/
def pointedMemory : Memory := fun i =>
  if i = 0x102 then .ofInt 2 else if i = 0x10000 then addressOf 0x2000 else .zero

/-- Reading the count, which is the third word of the statics. -/
def countReading : Reading :=
  ⟨fun memory => memory 0x102, fun memory => memory, fun _ i => i = 0x102⟩

def vectorRoute : Route :=
  ⟨⟨.parameters, 0⟩, true, [.member 1, .element countReading 4]⟩

theorem leads_vectorPlace : counting.Leads pointedEnvironment vectorPlace vectorRoute := by
  intro base
  have hCounts :=
    @Machine.Execution.Leads.ofVariable _ (counting.execution base) pointedEnvironment 1
    ⟨"b", .array .int 2, .placed .statics, none⟩ ⟨.statics, 0⟩ rfl (by decide) rfl (by decide)
    (by decide)
  have hOne := @Machine.Execution.Reads.known _ (counting.execution base) pointedEnvironment
    (.ofInt 1) (.int 1) rfl
  have hCount : (counting.execution base).Leads pointedEnvironment countPlace
      ⟨⟨.statics, 0⟩, false,
        [.element ⟨fun _ => .ofInt 1, fun memory => memory, fun _ _ => False⟩ 1]⟩ :=
    .element hCounts hOne (by decide)
  have hPosition :
      Word.position ⟨(addressOf 0x100).bits + (0 + (1 + (Word.ofInt 1).bits * 1)) * 8⟩ = 0x102 := by
    decide
  have hReads : (counting.execution base).Reads pointedEnvironment countPlace countReading := by
    refine hCount.reads rfl (fun memory => congrArg memory hPosition.symm) (fun _ => rfl) ?_
    rintro memory i ((hIndex | ⟨hReference, -⟩) | hPlace)
    · exact hIndex.elim False.elim False.elim
    · cases hReference
    · exact hPlace.trans hPosition
  have hStructs :=
    @Machine.Execution.Leads.ofVariable _ (counting.execution base) pointedEnvironment
    0 ⟨"r", .ref (.array (.struct 0) 4), .placed .parameters, none⟩ ⟨.parameters, 0⟩ rfl (by decide)
    rfl (by decide) (by decide)
  have hStruct : (counting.execution base).Leads pointedEnvironment
      (.elementOf (.ofVariable pointedEnvironment.program 0) countPlace) _ :=
    .element hStructs hReads (by decide)
  have hOffset : pointedEnvironment.memberOffset (.struct 0) "v" = .ok 1 := by decide +kernel
  have hSize : pointedEnvironment.sizes.of vectorPlace.ty = 3 := by decide +kernel
  exact .member hStruct hOffset (by decide) (lt_of_eq_of_lt hSize (by decide))

/-- The words that are stored, as the last ones in use. -/
def pointedArray (x y z : Word) : WordArray :=
  ⟨written pointedMemory 0x10003 [x, y, z], 0x10006⟩

theorem holds_pointedArray (x y z : Word) :
    (pointedArray x y z).Holds 0x10003 ⟨[z, y, x], pointedMemory⟩ where
  top_eq := rfl
  below := fun _ hBelow => written_of_lt hBelow _
  stacked := wordsAt_written _ _ [x, y, z]

/-- The vector of the third struct is stored and read back. -/
theorem places_agree_pointed :
    counting.Leads pointedEnvironment vectorPlace vectorRoute ∧
      (pointedEnvironment.address vectorPlace).run 0 = .ok (pointedAddress, 0) ∧
      (store pointedEnvironment vectorPlace).run 0 =
        .ok (counted "PUSH_CONST" [3] :: pointedAddress ++ [plain "STORE_N"], 0) ∧
      (pointedEnvironment.value vectorPlace).run 0 =
        .ok (counted "PUSH_CONST" [3] :: pointedAddress ++ [plain "LOAD_N"], 0) ∧
      (∃ last, counting.Runs pointedAddress ⟨pointedMemory, 0x10003⟩ last ∧
        last.Holds 0x10003 ⟨[addressOf 0x200A], pointedMemory⟩) ∧
      ∀ x y z : Word, ∃ last,
        counting.Runs (counted "PUSH_CONST" [3] :: pointedAddress ++ [plain "STORE_N"] ++
          (counted "PUSH_CONST" [3] :: pointedAddress ++ [plain "LOAD_N"]))
            (pointedArray x y z) last ∧
        last.Holds 0x10003 ⟨[z, y, x], written pointedMemory 0x200A [x, y, z]⟩ := by
  have hSize : pointedEnvironment.sizes.of vectorPlace.ty = 3 := by decide +kernel
  have hCode : (pointedEnvironment.address vectorPlace).run 0 = .ok (pointedAddress, 0) := by
    decide +kernel
  have hStoring : (store pointedEnvironment vectorPlace).run 0 =
      .ok (counted "PUSH_CONST" [3] :: pointedAddress ++ [plain "STORE_N"], 0) := by decide +kernel
  have hLoading : (pointedEnvironment.value vectorPlace).run 0 =
      .ok (counted "PUSH_CONST" [3] :: pointedAddress ++ [plain "LOAD_N"], 0) := by decide +kernel
  obtain ⟨hLocated, _, _, _, hBack⟩ := places_agree leads_vectorPlace
  have hAddress : vectorRoute.address counting.motions pointedMemory = addressOf 0x200A := by
    decide +kernel
  have hBelow : ∀ memory, vectorRoute.address counting.motions memory = addressOf 0x200A →
      counting.Below 0x10003 vectorRoute memory 3 := by
    intro memory hPlace
    have hPosition : (addressOf 0x200A).position = 0x200A := position_addressOf (by decide)
    refine ⟨?_, fun i _ hTo => ?_⟩
    · rintro i (hIndex | ⟨-, hHeld⟩)
      · have hCount : i = 0x102 := hIndex.elim id False.elim
        omega
      · have hOwn : (addressOf 0x10000).position = 0x10000 := position_addressOf (by decide)
        exact lt_of_eq_of_lt (hHeld.trans hOwn) (by decide)
    · rw [hPlace, hPosition] at hTo
      omega
  refine ⟨leads_vectorPlace, hCode, hStoring, hLoading, ?_, fun x y z => ?_⟩
  · have hDrives := hLocated hCode 0x10003 [] pointedMemory (.locating (hBelow _ hAddress).way)
    rw [hAddress] at hDrives
    exact hDrives _ (WordArray.holds_self ⟨pointedMemory, 0x10003⟩)
  · have hStored : vectorRoute.stored counting.motions pointedMemory [x, y, z] =
        written pointedMemory 0x200A [x, y, z] := by
      rw [Route.stored, hAddress, position_addressOf (by decide)]
      rfl
    have hIndices : ∀ memory, Descent.indices vectorRoute.descents memory = [memory 0x102] :=
      fun _ => rfl
    have hHeld : ∀ memory, vectorRoute.start counting.motions memory = memory 0x10000 :=
      fun memory => congrArg memory (position_addressOf (by decide))
    have hStart : vectorRoute.start counting.motions (written pointedMemory 0x200A [x, y, z]) =
        vectorRoute.start counting.motions pointedMemory := by
      rw [hHeld, hHeld]
      exact written_of_ge (by simp)
    have hSame : vectorRoute.address counting.motions (written pointedMemory 0x200A [x, y, z]) =
        addressOf 0x200A := by
      rw [← hAddress]
      refine Route.address_congr ?_ fun _ => hStart
      rw [hIndices, hIndices]
      rfl
    have hDrives := hBack hStoring hLoading [x, y, z] hSize.symm 0x10003 [] pointedMemory _ hStored
      (hBelow _ hAddress) (hBelow _ hSame) (by rw [hIndices, hIndices]; rfl)
      (fun _ => hStart.symm) fun _ _ _ => rfl
    exact hDrives _ (holds_pointedArray x y z)

/-- Inside of a function with a reference to a struct whose second member is far
behind its first one. -/
def farEnvironment : Environment where
  program := ⟨"p", none, none,
    #[⟨"S", [⟨"a", .array .int 0x7FFFFFFF, none⟩, ⟨"b", .int, none⟩]⟩], #[],
    #[⟨"r", .ref (.struct 0), .placed .parameters, none⟩], #[], #[]⟩
  sizes := ⟨#[⟨"S", [⟨"a", .array .int 0x7FFFFFFF, none⟩, ⟨"b", .int, none⟩]⟩], #[0x80000001],
    #[true]⟩
  slots := ⟨#[some ⟨.parameters, 0⟩], #[], [], [], [], 0, 0, 0⟩
  natives := NativeDatabase.empty
  frame := ⟨1, 0, 0, 0, #[]⟩

def farMember : Expr :=
  .memberOf farEnvironment.program (.ofVariable farEnvironment.program 0) "b"

/-- Inside of a function with a reference and a single item, behind which the
scratch words are. -/
def crowdedEnvironment : Environment where
  program := ⟨"p", none, none, #[], #[],
    #[⟨"K", .vector, .constant,
        some (.ofComponents (.ofFloat ⟨0x3F800000⟩) (.ofFloat ⟨0⟩) (.ofFloat ⟨0⟩))⟩,
      ⟨"r", .ref .int, .placed .locals, none⟩, ⟨"a", .array .int 1, .placed .locals, none⟩], #[],
        #[]⟩
  sizes := ⟨#[], #[], #[]⟩
  slots := ⟨#[none, some ⟨.locals, 2⟩, some ⟨.locals, 3⟩], #[], [], [], [], 0, 0, 0⟩
  natives := NativeDatabase.empty
  frame := ⟨0, 3, 0, 3, #[1, 2]⟩

/-- The reference holds its own address, and a value to store is the last word
in use. -/
def circularArray : WordArray :=
  ⟨fun i => if i = 0x10002 then addressOf 0x10002 else if i = 0x10008 then .ofInt 5 else .zero,
    0x10009⟩

/-- One, as the first component of a constant vector. -/
def spilledIndex : Expr :=
  .converted (.memberOf crowdedEnvironment.program (.ofVariable crowdedEnvironment.program 0) "x")
    .int

/-- The code of the index, which copies the vector to the scratch words. -/
def spilledCode : Code :=
  [.ofInstruction "PUSH_CONST" [.float ⟨0x3F800000⟩, .float ⟨0⟩, .float ⟨0⟩],
    counted "PUSH_CONST" [3], counted "LOCAL" [5], commented "scratch" (plain "STORE_N"),
    counted "LOCAL" [5], counted "IOFFSET_CONST_LOAD" [0], plain "F2I"]

/-- The item behind the only one, which is the first scratch word. -/
def spilledPlace : Expr :=
  .elementOf (.ofVariable crowdedEnvironment.program 2) spilledIndex

/-- A frame that is zero, and a value to store as the last word in use. -/
def zeroArray : WordArray :=
  ⟨fun i => if i = 0x10008 then .ofInt 7 else .zero, 0x10009⟩

theorem drives_f2i (base : Nat) (stack : List Word) (memory : Memory) :
    counting.Drives base [plain "F2I"] ⟨.ofFloat ⟨0x3F800000⟩ :: stack, memory⟩
      ⟨.ofInt 1 :: stack, memory⟩ := by
  intro array hHolds
  obtain ⟨rest, hPop, hRest⟩ := hHolds.pop
  have hOther : counting.motions.motion? (plain "F2I").content = none := Machine.motion?_plain .f2i
  have hStep : counting.pass? ⟨array, none⟩ (plain "F2I") =
      some ⟨rest.push (.ofInt 1), none⟩ := by
    rw [pass?, if_pos (.inl rfl), execute?, hOther]
    have hOne : (Word.ofFloat ⟨0x3F800000⟩).toFloat.toInt32.toInt = 1 := by decide +kernel
    have hOthers : counting.others (plain "F2I") array = some (rest.push (.ofInt 1)) := by
      rw [← hOne]
      exact Option.bind_eq_some_iff.mpr ⟨_, hPop, rfl⟩
    exact congrArg (Option.map _) hOthers
  refine ⟨_, ?_, hRest.push (.ofInt 1)⟩
  rw [runs_iff, List.foldlM_cons, hStep]
  rfl

/-- The index is one wherever the operand stack begins behind the frame. -/
theorem drives_spilledCode {base : Nat} (hBase : 0x10008 ≤ base) (stack : List Word)
    (memory : Memory) :
    counting.Drives base spilledCode ⟨stack, memory⟩
      ⟨.ofInt 1 :: stack, written memory 0x10005 [.ofFloat ⟨0x3F800000⟩, .zero, .zero]⟩ := by
  let ways := counting.execution base
  have hPosition : (addressOf 0x10005).position = 0x10005 := position_addressOf (by decide)
  have hFirst : ((addressOf 0x10005).moved (Int32.ofNat 0)).position = 0x10005 := by decide +kernel
  have hPush : ways.runs [.ofInstruction "PUSH_CONST" [.float ⟨0x3F800000⟩, .float ⟨0⟩, .float ⟨0⟩]]
      ⟨stack, memory⟩ ⟨[.zero, .zero, .ofFloat ⟨0x3F800000⟩] ++ stack, memory⟩ :=
    ways.pushData [.float ⟨0x3F800000⟩, .float ⟨0⟩, .float ⟨0⟩]
  have hLocal : ∀ (stack : List Word) (memory : Memory), ways.runs [counted "LOCAL" [5]]
      ⟨stack, memory⟩ ⟨addressOf 0x10005 :: stack, memory⟩ := fun stack memory =>
    @Machine.Execution.slot _ ways _ .locate ⟨stack, memory⟩ _ ⟨.locals, 5⟩ rfl (by decide) rfl
      fun hKind => (hKind rfl).elim
  have hStored := @Machine.Execution.storeMany _ ways (commented "scratch" (plain "STORE_N"))
    (addressOf 0x10005) stack memory [.ofFloat ⟨0x3F800000⟩, .zero, .zero] rfl (by decide)
    fun i _ hTo => by
      rw [hPosition] at hTo
      exact Nat.lt_of_lt_of_le hTo hBase
  rw [hPosition] at hStored
  have hLoad := @Machine.Execution.behind _ ways (counted "IOFFSET_CONST_LOAD" [0]) .load
    (addressOf 0x10005) stack (written memory 0x10005 [.ofFloat ⟨0x3F800000⟩, .zero, .zero]) _ 0 rfl
    (by decide) rfl fun _ => Nat.lt_of_lt_of_le (lt_of_eq_of_lt hFirst (by decide)) hBase
  dsimp only at hLoad
  rw [hFirst, written_self] at hLoad
  exact ways.cons hPush (ways.cons (ways.pushCount 3) (ways.cons (hLocal _ _) (ways.cons hStored
    (ways.cons (hLocal _ _) (ways.cons hLoad (drives_f2i base stack _))))))

/-- Inside of a function with a reference to a vector. -/
def freeEnvironment : Environment where
  program :=
    ⟨"p", none, none, #[], #[], #[⟨"r", .ref .vector, .placed .parameters, none⟩], #[], #[]⟩
  sizes := ⟨#[], #[], #[]⟩
  slots := ⟨#[some ⟨.parameters, 0⟩], #[], [], [], [], 0, 0, 0⟩
  natives := NativeDatabase.empty
  frame := ⟨1, 0, 0, 0, #[]⟩

/-- The reference holds the address of the first free word. -/
def freeArray : WordArray :=
  ⟨fun i => if i = 0x10000 then addressOf 0x10003 else .ofInt i, 0x10003⟩

/-- Where the exceptions of the agreement come from. A member whose offset is
negative as a number of 32 bits is looked for in front of its struct. A value
that is stored through a reference into the reference itself is not read back,
nor is one in the scratch words that the index, which is one at any time, is
spilled to. Free words are overwritten before they are loaded. -/
theorem places_disagree :
    (farEnvironment.memberOffset (.struct 0) "b" = .ok 0x80000000 ∧
      ∃ code, (farEnvironment.address farMember).run 0 = .ok (code, 0) ∧
        ∀ (machine : ArrayMachine) (array : WordArray),
          (addressOf (machine.bases.frame + 0)).position < array.top →
          ∃ (last : WordArray) (address : Word), machine.Runs code array last ∧
            last.Holds array.top ⟨[address], array.words⟩ ∧
            address ≠ ⟨(Route.start machine.motions ⟨⟨.parameters, 0⟩, true, []⟩ array.words).bits +
              0x80000000 * 8⟩) ∧
    (∃ storing loading,
      (store crowdedEnvironment (.ofVariable crowdedEnvironment.program 1)).run 0 =
        .ok (storing, 0) ∧
      (crowdedEnvironment.value (.ofVariable crowdedEnvironment.program 1)).run 0 =
        .ok (loading, 0) ∧
      circularArray.pop?.map Prod.fst = some (.ofInt 5) ∧
      ((counting.run? (storing ++ loading) circularArray).bind WordArray.pop?).map Prod.fst =
        some .zero) ∧
    (∃ index storing loading,
      (crowdedEnvironment.value spilledIndex).run 0 = .ok (index, 0) ∧
      (∀ (base : Nat) (stack : List Word) (memory : Memory), 0x10008 ≤ base →
        ∃ next, counting.Drives base index ⟨stack, memory⟩ ⟨.ofInt 1 :: stack, next⟩) ∧
      (store crowdedEnvironment spilledPlace).run 0 = .ok (storing, 0) ∧
      (crowdedEnvironment.value spilledPlace).run 0 = .ok (loading, 0) ∧
      zeroArray.pop?.map Prod.fst = some (.ofInt 7) ∧
      ((counting.run? (storing ++ loading) zeroArray).bind WordArray.pop?).map Prod.fst =
        some (.ofFloat ⟨0x3F800000⟩)) ∧
    ∃ code,
      (freeEnvironment.value (.ofVariable freeEnvironment.program 0)).run 0 = .ok (code, 0) ∧
      wordsAt freeArray.words 0x10003 3 = [.ofInt 0x10003, .ofInt 0x10004, .ofInt 0x10005] ∧
      (counting.run? code freeArray).map (fun last => wordsAt last.words 0x10003 3) =
        some [.ofInt 3, addressOf 0x10003, .ofInt 0x10005] := by
  refine ⟨?_, ?_, ?_, ?_⟩
  · have hOffset : farEnvironment.memberOffset (.struct 0) "b" = .ok 0x80000000 := by decide +kernel
    have hCode : (farEnvironment.address farMember).run 0 =
        .ok ([counted "LOCAL_LOAD" [0], counted "IOFFSET_CONST" [0x80000000]], 0) := by
          decide +kernel
    refine ⟨hOffset, _, hCode, fun machine array hHeld => ?_⟩
    let ways := machine.execution array.top
    have hLoad :=
      @Machine.Execution.slot _ ways (counted "LOCAL_LOAD" [0]) .load ⟨[], array.words⟩ _
      ⟨.parameters, 0⟩ rfl (by decide) rfl fun _ => hHeld
    have hMove := @Machine.Execution.behind _ ways (counted "IOFFSET_CONST" [0x80000000]) .locate
      (Route.start machine.motions ⟨⟨.parameters, 0⟩, true, []⟩ array.words) [] array.words _
      0x80000000 rfl (by decide) rfl fun hKind => (hKind rfl).elim
    obtain ⟨last, hRuns, hLast⟩ := ways.cons hLoad hMove array array.holds_self
    refine ⟨last, _, hRuns, hLast, fun hSame => ?_⟩
    have hDistance := (UInt64.add_right_inj _).mp (congrArg Word.bits hSame)
    revert hDistance
    decide
  · have hStoring : (store crowdedEnvironment (.ofVariable crowdedEnvironment.program 1)).run 0 =
        .ok ([counted "LOCAL_LOAD" [2], commented "r" (plain "STORE")], 0) := by decide +kernel
    have hLoading : (crowdedEnvironment.value (.ofVariable crowdedEnvironment.program 1)).run 0 =
        .ok ([counted "LOCAL_LOAD" [2], commented "r" (plain "LOAD")], 0) := by decide +kernel
    exact ⟨_, _, hStoring, hLoading, rfl, by decide +kernel⟩
  · have hIndex : (crowdedEnvironment.value spilledIndex).run 0 = .ok (spilledCode, 0) := by
      decide +kernel
    have hStoring : (store crowdedEnvironment spilledPlace).run 0 =
        .ok (spilledCode ++ [counted "LOCAL" [3], counted "ARRAY_STORE" [1]], 0) := by
          decide +kernel
    have hLoading : (crowdedEnvironment.value spilledPlace).run 0 =
        .ok (spilledCode ++ [counted "LOCAL" [3], counted "ARRAY_LOAD" [1]], 0) := by decide +kernel
    exact ⟨_, _, _, hIndex, fun _ stack memory hBase => ⟨_, drives_spilledCode hBase stack memory⟩,
      hStoring, hLoading, rfl, by decide +kernel⟩
  · have hCode : (freeEnvironment.value (.ofVariable freeEnvironment.program 0)).run 0 =
        .ok ([counted "PUSH_CONST" [3], counted "LOCAL_LOAD" [0], commented "r" (plain "LOAD_N")],
          0) := by decide +kernel
    exact ⟨_, hCode, rfl, by decide +kernel⟩

end ArrayMachine
end ScriptBackend.Lowering
