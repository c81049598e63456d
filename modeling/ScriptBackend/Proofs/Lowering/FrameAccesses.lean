import ScriptBackend.Proofs.Lowering.Data
import ScriptBackend.Proofs.Lowering.FrameCode
import ScriptBackend.Proofs.Lowering.SuitedCode

/-!
The code of a function keeps to its frame, by induction on the rules. What an
expression says about the type of a place is used only to tell how far the words
of a part reach.
-/
namespace ScriptBackend.Lowering

open ScriptBackend.Assembly Outcome

section Free

variable {environment : Environment} {function : Function} {typed : Prop} {code : Code}

/-- Code that touches no variable keeps to any frame. -/
theorem frameCode_of_free (h : ∀ statement ∈ code, isFree statement = true) :
    FrameCode environment function typed none code := by
  induction code with
  | nil => exact .nil
  | cons statement rest ih =>
      rw [List.forall_mem_cons] at h
      exact .append (.free h.1) (ih h.2)

theorem isFree_pushRun (run : List Datum) : isFree (pushRun run) = true := by
  unfold pushRun
  split <;> rfl

theorem frameCode_pushData (words : List Datum) :
    FrameCode environment function typed none (pushData words) := by
  refine frameCode_of_free fun statement hStatement => ?_
  obtain ⟨run, _, rfl⟩ := List.mem_map.mp hStatement
  exact isFree_pushRun run

theorem frameCode_dropWords (count : Nat) :
    FrameCode environment function typed none (dropWords count) := by
  refine frameCode_of_free fun statement hStatement => ?_
  rw [List.eq_of_mem_replicate hStatement]
  rfl

theorem frameCode_componentConversion (ty : Ty) :
    FrameCode environment function typed none (componentConversion ty) := by
  unfold componentConversion
  split
  · exact .nil
  · exact .free rfl

theorem frameCode_widening (family : Family) (operand : Ty) :
    FrameCode environment function typed none (family.widening operand) := by
  unfold Family.widening
  refine .append ?_ ?_
  all_goals
    split
    · exact .free rfl
    · exact .nil

theorem frameCode_conversion {sizes : Sizes} {source target : Ty}
    (h : conversion sizes source target = .ok code) :
    FrameCode environment function typed none code := by
  refine frameCode_of_free ?_
  unfold conversion at h
  split at h
  iterate 4
    cases h
    simp [isFree, plain, Statement.ofInstruction, freeMnemonics]
  obtain ⟨rfl, _⟩ := unchanged_ok h
  simp

theorem frameCode_decision (op : BinaryOp) (finish : String) :
    FrameCode environment function typed none (decision op finish) := by
  refine frameCode_of_free ?_
  unfold decision
  split <;> simp [isFree, plain, naming, Statement.ofInstruction, freeMnemonics]

theorem isFree_operation {op : BinaryOp} {left right : Ty} {family : Family} {mnemonic : String}
    (h : operation op left right = .ok (family, mnemonic)) : isFree (plain mnemonic) = true := by
  obtain ⟨opcode, hOpcode, rfl⟩ := exists_opcode_of_operation h
  cases family <;> cases op <;> cases hOpcode <;> decide

theorem isFree_negation (ty : Ty) : isFree (plain ((Family.ofTy ty).letter ++ "NEG")) = true := by
  cases Family.ofTy ty <;> decide

theorem isFree_nativeCall {setting : Setting} {native : NativeSignature} {call : Statement}
    (h : nativeCall setting native = .ok call) : isFree call = true := by
  obtain ⟨_, _, _, rfl⟩ := nativeCall_ok h
  rfl

end Free

/-! Parts of values -/

/-- A member of a value lies in the words of the value. -/
theorem IsMember.bounds {structs : Array Struct} {ty part : Ty} {offset : Nat}
    (h : IsMember (.ofStructs structs) ty offset part) (hFinite : ∀ id, Acc (Nested structs) id) :
    offset + (Sizes.ofStructs structs).of part ≤ (Sizes.ofStructs structs).of ty := by
  cases h with
  | component inside => exact inside
  | field found =>
      obtain ⟨struct, hStruct, hField⟩ := Option.bind_eq_some_iff.mp found
      rw [Sizes.of_struct (fun id _ => hFinite id) hStruct]
      exact Nat.le_trans (fieldOffset?_bounds hField).2 (Nat.le_of_eq (Nat.zero_add _))

/-- A member that has an offset has the type of the field. -/
theorem isMember_of_memberOffset {setting : Setting} {info : Info} {base : Expr} {field : String}
    {offset : Nat} (hSizes : setting.sizes = .ofStructs setting.program.structs)
    (hPlace : (Expr.member info base field).NamesPlace setting.program)
    (h : setting.memberOffset base.ty field = .ok offset) :
    IsMember setting.sizes base.ty offset info.ty := by
  have hTy : info.ty = (Expr.memberOf setting.program base field).ty := hPlace
  unfold Setting.memberOffset at h
  split at h
  · next hVector =>
      rw [hVector, hTy, Expr.ty_memberOf_vector hVector]
      split at h <;> first | (cases h; exact .component (by decide)) | cases h
  · next id hBase =>
      obtain ⟨_, _, h⟩ := bind_eq_ok.mp h
      split at h
      · next place part hFound =>
          cases h
          rw [hSizes] at hFound
          obtain ⟨struct, hStruct, hField⟩ := Option.bind_eq_some_iff.mp hFound
          obtain ⟨declared, hDeclared, rfl⟩ := fieldOffset?_type hField
          have hSame : setting.program.structs[id]?.bind (·.field? field) = some declared :=
            Option.bind_eq_some_iff.mpr ⟨struct, hStruct, hDeclared⟩
          rw [hTy, Expr.ty_memberOf_struct hBase hSame, hBase, hSizes]
          exact .field hFound
      · cases h
  · cases h

namespace Spot

variable {environment : Environment} {function : Function} {spot : Spot}

/-- A member of a value that lies in range lies in range. -/
theorem IsSafe.member (h : spot.IsSafe environment function)
    (hSizes : environment.sizes = .ofStructs environment.program.structs)
    (hFinite : ∀ id, Acc (Nested environment.program.structs) id) {offset : Nat} {ty : Ty}
    (hMember : IsMember environment.sizes spot.ty offset ty) :
    (spot.member offset ty).IsSafe environment function := by
  rintro _ ⟨start, hStart, rfl⟩
  obtain ⟨origin, whole, hValue, hLow, hHigh⟩ := h start hStart
  have hBounds : offset + environment.sizes.of ty ≤ environment.sizes.of spot.ty := by
    rw [hSizes] at hMember ⊢
    exact hMember.bounds hFinite
  refine ⟨origin, whole, hValue, by omega, ?_⟩
  show start + offset + environment.sizes.of ty ≤ _
  omega

/-- The elements of an array that lies in range lie in range. -/
theorem IsSafe.element (h : spot.IsSafe environment function) {item : Ty} {length : Nat}
    (hArray : spot.ty = .array item length) :
    (spot.element environment.sizes item length).IsSafe environment function := by
  rintro _ ⟨start, hStart, i, hInside, rfl⟩
  obtain ⟨origin, whole, hValue, hLow, hHigh⟩ := h start hStart
  have hSize : environment.sizes.of spot.ty = 1 + environment.sizes.of item * length := by
    rw [hArray]
    rfl
  have hItem : i * environment.sizes.of item + environment.sizes.of item ≤
      environment.sizes.of item * length := by
    rw [← Nat.succ_mul, Nat.mul_comm]
    exact Nat.mul_le_mul_left _ hInside
  refine ⟨origin, whole, hValue, by omega, ?_⟩
  show start + 1 + i * environment.sizes.of item + environment.sizes.of item ≤ _
  omega

end Spot

section Places

variable {environment : Environment} {function : Function} {typed : Prop} {code : Code} {id : Nat}

/-- What the code of a function relies on: variables that have slots in frames
are in its own, and types have the sizes of the program. -/
structure OwnsFrame (environment : Environment) (function : Function) : Prop where
  sizes_eq : environment.sizes = .ofStructs environment.program.structs
  own : ∀ info id region first, function.Uses environment.program (.var info id) →
    environment.slots.slots[id]? = some (some ⟨region, first⟩) → Region.isInFrame region = true →
    id ∈ function.frameIds

theorem slot_ok {slots : Slots} {program : Program} {slot : Slot}
    (h : slots.slot program id = .ok slot) :
    slots.slots[id]? = some (some slot) := by
  unfold Slots.slot at h
  split at h
  · next found hFound =>
      cases h
      exact Option.join_eq_some_iff.mp hFound
  · cases h

theorem declaration_ok {setting : Setting} {declared : Variable}
    (h : setting.declaration id = .ok declared) : setting.program.vars[id]? = some declared := by
  unfold Setting.declaration at h
  split at h
  · next found hFound =>
      cases h
      exact hFound
  · cases h

/-- A place has a slot, and references have theirs in a frame. -/
theorem place_ok {setting : Setting} {declared : Variable} {slot : Slot}
    (hDeclared : setting.declaration id = .ok declared) (h : setting.place id = .ok slot) :
    setting.slots.slots[id]? = some (some slot) ∧
      (declared.ty.isRef = true → Region.isInFrame slot.region = true) := by
  obtain ⟨found, hFound, h⟩ := bind_eq_ok.mp h
  rw [hDeclared] at hFound
  cases hFound
  obtain ⟨placed, hPlaced, h⟩ := bind_eq_ok.mp h
  split at h
  · cases h
  · next hAllowed =>
      cases h
      exact ⟨slot_ok hPlaced, fun hRef => by simpa [hRef] using hAllowed⟩

/-- A variable that the code of a function finds in a frame is a value of its
own frame. -/
theorem OwnsFrame.value (h : OwnsFrame environment function) {info : Info} {declared : Variable}
    {slot : Slot} (hUsed : function.Uses environment.program (.var info id))
    (hDeclared : environment.declaration id = .ok declared)
    (hSlot : environment.slots.slots[id]? = some (some slot))
    (hFrame : Region.isInFrame slot.region = true) :
    FrameValue environment function slot.index declared.ty :=
  .variable (h.own info id slot.region slot.index hUsed hSlot hFrame) hSlot
    (declaration_ok hDeclared)

theorem target_of_isRef_eq_false {ty : Ty} (h : ty.isRef = false) : ty.target = ty := by
  cases ty <;> first | rfl | cases h

theorem mnemonic_of_isInFrame {region : Region} (h : Region.isInFrame region = true) :
    Region.mnemonic region = "LOCAL" := by
  cases region <;> first | rfl | cases h

/-- The address of a variable. In the frame its spot begins at the variable's
own first word. -/
theorem frameCode_variableAddress (hOwns : OwnsFrame environment function) {info : Info}
    {declared : Variable} (hUsed : function.Uses environment.program (.var info id))
    (hDeclared : environment.declaration id = .ok declared)
    (h : environment.variableAddress id = .ok code) (ty : Ty)
    (hTy : typed → ty = declared.ty.target) :
    ∃ spot : Spot, spot.ty = ty ∧ FrameCode environment function typed (some spot) code ∧
      (typed → spot.IsSafe environment function) := by
  obtain ⟨found, hFound, h⟩ := bind_eq_ok.mp h
  rw [hDeclared] at hFound
  cases hFound
  obtain ⟨slot, hSlot, h⟩ := bind_eq_ok.mp h
  obtain ⟨hPlaced, hReference⟩ := place_ok hDeclared hSlot
  split at h
  · next hRef =>
      cases h
      exact ⟨⟨ty, ∅⟩, rfl, .reference ty
        (hOwns.value hUsed hDeclared hPlaced (hReference hRef)) hRef, fun _ =>
          Spot.isSafe_outside ty⟩
  · next hValue =>
      cases h
      rw [target_of_isRef_eq_false (Bool.eq_false_iff.mpr hValue)] at hTy
      cases hFrame : Region.isInFrame slot.region with
      | false =>
          exact ⟨⟨ty, ∅⟩, rfl, .outside ty slot.index hFrame, fun _ => Spot.isSafe_outside ty⟩
      | true =>
          have hOwn := hOwns.value hUsed hDeclared hPlaced hFrame
          rw [mnemonic_of_isInFrame hFrame]
          refine ⟨⟨ty, {slot.index}⟩, rfl, .variable hOwn hTy, fun hTyped => ?_⟩
          rw [hTy hTyped]
          exact Spot.isSafe_value hOwn

/-- A variable of the frame is loaded from its own words. -/
theorem frameCode_variableLoad (hOwns : OwnsFrame environment function) {info : Info}
    (hUsed : function.Uses environment.program (.var info id))
    (h : environment.variableLoad id = .ok code) :
    FrameCode environment function typed none code := by
  obtain ⟨declared, slot, hDeclared, hSlot, hLoads⟩ := variableLoad_loads h
  obtain ⟨hPlaced, hReference⟩ := place_ok hDeclared hSlot
  cases hLoads with
  | through single isRef =>
      have hOwn := hOwns.value hUsed hDeclared hPlaced (hReference isRef)
      have hThrough : FrameCode environment function typed none
          ([counted "LOCAL_LOAD" [slot.index]] ++ [plain "LOAD"]) :=
        .through (.reference declared.ty.target hOwn isRef) (fun _ => Spot.isSafe_outside _) single
          (.inl rfl)
      exact .comment declared.name hThrough
  | word single isValue =>
      rw [target_of_isRef_eq_false isValue] at single
      cases hFrame : Region.isInFrame slot.region with
      | false =>
          refine .free ?_
          revert hFrame
          cases slot.region <;> intro hFrame <;> first | rfl | cases hFrame
      | true =>
          have hWord : FrameCode environment function typed none
              [counted "LOCAL_LOAD" [slot.index]] :=
            .word (hOwns.value hUsed hDeclared hPlaced hFrame) (fun _ => single) (.inl rfl)
          rw [mnemonic_of_isInFrame hFrame]
          exact hWord.commented declared.name
  | words several address_code =>
      obtain ⟨spot, hTy, hCode, hSafe⟩ :=
        frameCode_variableAddress hOwns hUsed hDeclared address_code declared.ty.target fun _ => rfl
      have hWords := FrameCode.words hCode hSafe (.inl rfl)
      rw [hTy] at hWords
      exact .comment declared.name hWords

/-- A variable of the frame is stored to its own word. -/
theorem frameCode_variableStore (hOwns : OwnsFrame environment function) {info : Info}
    (hUsed : function.Uses environment.program (.var info id))
    (hTyped : typed → function.IsTyped environment.program)
    (hOne : environment.sizes.of info.ty = 1) (h : environment.variableStore id = .ok code) :
    FrameCode environment function typed none code := by
  obtain ⟨declared, hDeclared, h⟩ := bind_eq_ok.mp h
  obtain ⟨slot, hSlot, h⟩ := bind_eq_ok.mp h
  obtain ⟨hPlaced, hReference⟩ := place_ok hDeclared hSlot
  dsimp only at h
  split at h
  · next hRef =>
      cases h
      have hOwn := hOwns.value hUsed hDeclared hPlaced (hReference hRef)
      have hThrough : FrameCode environment function typed none
          ([counted "LOCAL_LOAD" [slot.index]] ++ [plain "STORE"]) :=
        .through (.reference info.ty hOwn hRef) (fun _ => Spot.isSafe_outside _) hOne (.inr rfl)
      exact .comment declared.name hThrough
  · next hValue =>
      cases h
      cases hFrame : Region.isInFrame slot.region with
      | false =>
          refine .free ?_
          revert hFrame
          cases slot.region <;> intro hFrame <;> first | rfl | cases hFrame
      | true =>
          have hSingle : typed → environment.sizes.of declared.ty = 1 := by
            intro h
            have hSame : info.ty = declared.ty.target :=
              (hTyped h).places _ hUsed declared (declaration_ok hDeclared)
            rwa [hSame, target_of_isRef_eq_false (Bool.eq_false_iff.mpr hValue)] at hOne
          have hWord : FrameCode environment function typed none
              [counted "LOCAL_STORE" [slot.index]] :=
            .word (hOwns.value hUsed hDeclared hPlaced hFrame) hSingle (.inr rfl)
          rw [mnemonic_of_isInFrame hFrame]
          exact hWord.commented declared.name

end Places

/-! Expressions -/

def Task.expressions : Task → List Expr
  | .value e | .node e | .operand _ _ e | .source e | .stored e | .place e => [e]
  | .arguments _ passed => passed

/-- Code that pushes the address of a value of a type. -/
def FramePlace (environment : Environment) (function : Function) (typed : Prop)
    (ty : Ty) (code : Code) : Prop :=
  ∃ spot : Spot, spot.ty = ty ∧ FrameCode environment function typed (some spot) code ∧
    (typed → spot.IsSafe environment function)

/-- Code that keeps to the frame in a task. -/
def Task.KeepsFrame (environment : Environment) (function : Function) (typed : Prop) (code : Code) :
    Task → Prop
  | .source e | .stored e | .place e => FramePlace environment function typed e.ty code
  | _ => FrameCode environment function typed none code

section Expressions

variable {environment : Environment} {function : Function} {typed : Prop} {code index : Code}

/-- An address is made without an access to the place that it leads to. -/
theorem FramePlace.pass {ty : Ty} (h : FramePlace environment function typed ty code) :
    FrameCode environment function typed none code := by
  obtain ⟨spot, _, hCode, hSafe⟩ := h
  exact .address hCode hSafe

/-- Many words are loaded from or stored to a place at once, as many as the type
of the place has. -/
theorem FramePlace.words {ty : Ty} {mnemonic : String}
    (h : FramePlace environment function typed ty code)
    (hMany : mnemonic = "LOAD_N" ∨ mnemonic = "STORE_N") :
    FrameCode environment function typed none
      (counted "PUSH_CONST" [environment.sizes.of ty] :: code ++ [plain mnemonic]) := by
  obtain ⟨spot, rfl, hCode, hSafe⟩ := h
  exact .words hCode hSafe hMany

variable {info : Info} {base array position : Expr} {field mnemonic : String} {offset : Nat}

/-- A member lies inside of the value that it is part of, so adding its offset
stays in the frame. -/
theorem FramePlace.member (hOwns : OwnsFrame environment function)
    (hTyped : typed → function.IsTyped environment.program)
    (hUsed : function.Uses environment.program (.member info base field))
    (hOffset : environment.memberOffset base.ty field = .ok offset)
    (h : FramePlace environment function typed base.ty code) :
    FramePlace environment function typed info.ty (code ++ atOffset offset) := by
  obtain ⟨spot, hTy, hCode, hSafe⟩ := h
  have hInside : typed → IsMember environment.sizes spot.ty offset info.ty := fun h =>
    hTy ▸ isMember_of_memberOffset hOwns.sizes_eq ((hTyped h).places _ hUsed) hOffset
  exact ⟨spot.member offset info.ty, rfl, .member hCode hInside, fun h =>
    (hSafe h).member hOwns.sizes_eq (hTyped h).finite (hInside h)⟩

/-- A member of one word is loaded or stored at its offset by one instruction. -/
theorem FramePlace.memberWord (hOwns : OwnsFrame environment function)
    (hTyped : typed → function.IsTyped environment.program)
    (hUsed : function.Uses environment.program (.member info base field))
    (hOffset : environment.memberOffset base.ty field = .ok offset)
    (hOne : environment.sizes.of info.ty = 1)
    (hDirect : mnemonic = "IOFFSET_CONST_LOAD" ∨ mnemonic = "IOFFSET_CONST_STORE")
    (h : FramePlace environment function typed base.ty code) :
    FrameCode environment function typed none (code ++ [counted mnemonic [offset]]) := by
  obtain ⟨spot, hTy, hCode, hSafe⟩ := h
  have hInside : typed → IsMember environment.sizes spot.ty offset info.ty := fun h =>
    hTy ▸ isMember_of_memberOffset hOwns.sizes_eq ((hTyped h).places _ hUsed) hOffset
  exact .memberWord hCode hInside (fun h =>
    (hSafe h).member hOwns.sizes_eq (hTyped h).finite (hInside h))
    hOne hDirect

/-- The length of the array that an element is taken of. -/
theorem exists_length (hTyped : typed → function.IsTyped environment.program)
    (hUsed : function.Uses environment.program (.index info array position)) :
    ∃ length, typed → array.ty = .array info.ty length := by
  by_cases h : typed
  · obtain ⟨length, hArray⟩ := (hTyped h).places _ hUsed
    exact ⟨length, fun _ => hArray⟩
  · exact ⟨0, fun hTrue => absurd hTrue h⟩

/-- An element lies inside of its array, given that the index is checked by the
instruction that uses it. -/
theorem FramePlace.element (hTyped : typed → function.IsTyped environment.program)
    (hUsed : function.Uses environment.program (.index info array position))
    (hPosition : FrameCode environment function typed none index)
    (h : FramePlace environment function typed array.ty code) :
    FramePlace environment function typed info.ty
      (index ++ code ++ [counted "ARRAY" [environment.sizes.of info.ty]]) := by
  obtain ⟨spot, hTy, hCode, hSafe⟩ := h
  obtain ⟨length, hArray⟩ := exists_length hTyped hUsed
  rw [← hTy] at hArray
  exact ⟨spot.element environment.sizes info.ty length, rfl,
      .element hPosition hCode hArray, fun h =>
    (hSafe h).element (hArray h)⟩

/-- An element of one word is loaded or stored by one instruction, which adds
the index. -/
theorem FramePlace.elementWord (hTyped : typed → function.IsTyped environment.program)
    (hUsed : function.Uses environment.program (.index info array position))
    (hOne : environment.sizes.of info.ty = 1)
    (hDirect : mnemonic = "ARRAY_LOAD" ∨ mnemonic = "ARRAY_STORE")
    (hPosition : FrameCode environment function typed none index)
    (h : FramePlace environment function typed array.ty code) :
    FrameCode environment function typed none (index ++ code ++ [counted mnemonic [1]]) := by
  obtain ⟨spot, hTy, hCode, hSafe⟩ := h
  obtain ⟨length, hArray⟩ := exists_length hTyped hUsed
  rw [← hTy] at hArray
  exact .elementWord hPosition hCode hArray (fun h => (hSafe h).element (hArray h)) hOne hDirect

/-- A variable of the frame has its address there. One that holds an address
leads out of the frame. -/
theorem FramePlace.variable (hOwns : OwnsFrame environment function)
    (hTyped : typed → function.IsTyped environment.program) {id : Nat}
    (hUsed : function.Uses environment.program (.var info id))
    (h : environment.variableAddress id = .ok code) :
    FramePlace environment function typed info.ty code := by
  obtain ⟨declared, hDeclared, _⟩ := bind_eq_ok.mp h
  exact frameCode_variableAddress hOwns hUsed hDeclared h info.ty fun h =>
    (hTyped h).places _ hUsed declared (declaration_ok hDeclared)

/-- The code of expressions that belong to a function keeps to its frame. -/
theorem Emits.keepsFrame {task : Task} {n m : Nat} (h : Emits environment task n code m)
    (hOwns : OwnsFrame environment function) (hTyped : typed → function.IsTyped environment.program)
    (hUsed : ∀ e ∈ task.expressions, function.Uses environment.program e) :
    task.KeepsFrame environment function typed code := by
  have hChild : ∀ {e child : Expr}, (∀ other ∈ [e], function.Uses environment.program other) →
      child ∈ e.children → ∀ other ∈ [child], function.Uses environment.program other :=
    fun hUsed hInside other hOther => by
      rw [List.mem_singleton.mp hOther]
      exact .part (hUsed _ (List.mem_singleton_self _)) hInside
  have hSelf : ∀ {e : Expr}, (∀ other ∈ [e], function.Uses environment.program other) →
      function.Uses environment.program e := fun hUsed => hUsed _ (List.mem_singleton_self _)
  induction h with
  | known n words_eq => exact frameCode_pushData _
  | computed unknown node ih => exact ih hUsed
  | literal n word_eq => exact frameCode_pushData _
  | vector x_code y_code z_code x_ih y_ih z_ih =>
      exact ((FrameCode.append (x_ih (hChild hUsed (by simp [Expr.children])))
        (frameCode_componentConversion _)).append
          (.append (y_ih (hChild hUsed (by simp [Expr.children])))
          (frameCode_componentConversion _))).append
            (.append (z_ih (hChild hUsed (by simp [Expr.children])))
              (frameCode_componentConversion _))
  | constant declaration storage initialized inlined ih =>
      refine ih fun e hE => ?_
      rw [List.mem_singleton.mp hE]
      exact .constant (hSelf hUsed) (declaration_ok declaration) storage initialized
  | «variable» n declaration storage load => exact frameCode_variableLoad hOwns (hSelf hUsed) load
  | functionRef n named => exact .free rfl
  | neg operand_code ih =>
      exact .append (ih (hChild hUsed (by simp [Expr.children]))) (.free (isFree_negation _))
  | not operand_code ih => exact .append (ih (hChild hUsed (by simp [Expr.children]))) (.free rfl)
  | shortCircuit short left_code right_code left_ih right_ih =>
      exact ((FrameCode.append (left_ih (hChild hUsed (by simp [Expr.children])))
        (frameCode_decision _ _)).append (right_ih (hChild hUsed (by simp [Expr.children])))).append
          (.free rfl)
  | binary long chosen left_code right_code left_ih right_ih =>
      exact ((FrameCode.append (left_ih (hChild hUsed (by simp [Expr.children])))
        (frameCode_widening _ _)).append
          (.append (right_ih (hChild hUsed (by simp [Expr.children])))
          (frameCode_widening _ _))).append (.free (isFree_operation chosen))
  | memberWord single placed base_code ih =>
      exact (ih (hChild hUsed (by simp [Expr.children]))).memberWord hOwns hTyped
        (hSelf hUsed) placed single (.inl rfl)
  | memberWords several placed base_code ih =>
      have hPlace : FramePlace environment function typed _ _ :=
        (ih (hChild hUsed (by simp [Expr.children]))).member hOwns hTyped (hSelf hUsed) placed
      exact hPlace.words (.inl rfl)
  | indexWord single position_code array_code position_ih array_ih =>
      exact (array_ih (hChild hUsed (by simp [Expr.children]))).elementWord hTyped
        (hSelf hUsed) single (.inl rfl) (position_ih (hChild hUsed (by simp [Expr.children])))
  | indexWords several position_code array_code position_ih array_ih =>
      have hPlace : FramePlace environment function typed _ _ :=
        (array_ih (hChild hUsed (by simp [Expr.children]))).element hTyped (hSelf hUsed)
          (position_ih (hChild hUsed (by simp [Expr.children])))
      simpa [Task.KeepsFrame] using hPlace.words (.inl rfl)
  | call declared typed' count arguments_code ih =>
      exact .append (ih fun e hE => .part (hSelf hUsed) hE) (.free rfl)
  | callNative declared count arguments_code call_eq ih =>
      exact .append (ih fun e hE => .part (hSelf hUsed) hE) (.free (isFree_nativeCall call_eq))
  | callThrough typed' count arguments_code target_code arguments_ih target_ih =>
      exact (FrameCode.append (arguments_ih fun e hE =>
        .part (hSelf hUsed) (List.mem_cons_of_mem _ hE))
        (target_ih (hChild hUsed (List.mem_cons_self ..)))).append (.free rfl)
  | convert operand_code change_eq ih =>
      exact .append (ih (hChild hUsed (by simp [Expr.children]))) (frameCode_conversion change_eq)
  | chain same left_code right_code left_ih right_ih =>
      exact (FrameCode.append (left_ih (hChild hUsed (by simp [Expr.children])))
        (frameCode_decision _ _)).append (right_ih (hChild hUsed (by simp [Expr.children])))
  | operand other value_code ih => exact ih hUsed
  | stored kept base_code ih => exact ih hUsed
  | spilled unkept room base_code ih =>
      exact ⟨_, rfl, .spilled (ih hUsed) room, fun _ => Spot.isSafe_value (.scratch room)⟩
  | storedMember placed base_code ih =>
      exact (ih (hChild hUsed (by simp [Expr.children]))).member hOwns hTyped (hSelf hUsed) placed
  | storedIndex position_code array_code position_ih array_ih =>
      exact (array_ih (hChild hUsed (by simp [Expr.children]))).element hTyped (hSelf hUsed)
        (position_ih (hChild hUsed (by simp [Expr.children])))
  | storedVariable n address => exact .variable hOwns hTyped (hSelf hUsed) address
  | placeMember placed base_code ih =>
      exact (ih (hChild hUsed (by simp [Expr.children]))).member hOwns hTyped (hSelf hUsed) placed
  | placeIndex position_code array_code position_ih array_ih =>
      exact (array_ih (hChild hUsed (by simp [Expr.children]))).element hTyped (hSelf hUsed)
        (position_ih (hChild hUsed (by simp [Expr.children])))
  | placeVariable n address => exact .variable hOwns hTyped (hSelf hUsed) address
  | noArguments parameters n => exact .nil
  | byAddress passes first_code rest_code first_ih rest_ih =>
      rw [Task.expressions, List.forall_mem_cons] at hUsed
      have hFirst : FramePlace environment function typed _ _ :=
        first_ih (by simpa [Task.expressions] using hUsed.1)
      exact .append hFirst.pass (rest_ih hUsed.2)
  | byValue passes first_code rest_code first_ih rest_ih =>
      rw [Task.expressions, List.forall_mem_cons] at hUsed
      exact .append (first_ih (by simpa [Task.expressions] using hUsed.1)) (rest_ih hUsed.2)

end Expressions

/-! Statements -/

/-- What the code of statements relies on: their expressions belong to the
function, and the locals that they declare are its own. -/
structure UsesOf (environment : Environment) (function : Function) (statements : List Stmt) :
    Prop where
  expressions : ∀ s ∈ statements, ∀ e ∈ s.expressions environment.program,
    function.Uses environment.program e
  locals : ∀ id ∈ declaredIds statements, id ∈ function.locals

section Statements

variable {environment : Environment} {function : Function} {typed : Prop} {code : Code} {n m : Nat}

/-- Code that makes a value stays inside of the frame: whatever it loads and
stores is a parameter, a local or a scratch word of the function. -/
theorem Emits.keepsFrame_value {e : Expr} (h : Emits environment (.value e) n code m)
    (hOwns : OwnsFrame environment function) (hTyped : typed → function.IsTyped environment.program)
    (hUsed : function.Uses environment.program e) :
    FrameCode environment function typed none code :=
  h.keepsFrame hOwns hTyped fun _ hOther => List.mem_singleton.mp hOther ▸ hUsed

/-- Code that makes an address leaves it on top, and the address lies in the
frame if the place is one of the function. -/
theorem Emits.keepsFrame_place {e : Expr} (h : Emits environment (.place e) n code m)
    (hOwns : OwnsFrame environment function) (hTyped : typed → function.IsTyped environment.program)
    (hUsed : function.Uses environment.program e) :
    FramePlace environment function typed e.ty code :=
  h.keepsFrame hOwns hTyped fun _ hOther => List.mem_singleton.mp hOther ▸ hUsed

/-- Storing a value writes to the place of the target only. -/
theorem Stores.keepsFrame {target : Expr} (h : Stores environment target n code m)
    (hOwns : OwnsFrame environment function) (hTyped : typed → function.IsTyped environment.program)
    (hUsed : function.Uses environment.program target) :
    FrameCode environment function typed none code := by
  cases h with
  | words several place => exact (place.keepsFrame_place hOwns hTyped hUsed).words (.inr rfl)
  | «variable» n single stored => exact frameCode_variableStore hOwns hUsed hTyped single stored
  | member single placed place =>
      exact (place.keepsFrame_place hOwns hTyped (.part hUsed (by simp [Expr.children]))).memberWord
        hOwns hTyped hUsed placed single (.inr rfl)
  | index single position_code place =>
      exact (place.keepsFrame_place hOwns hTyped
        (.part hUsed (by simp [Expr.children]))).elementWord hTyped hUsed single (.inr rfl)
        (position_code.keepsFrame_value hOwns hTyped (.part hUsed (by simp [Expr.children])))

/-- The source of an assignment is stored itself, or is a part of what is stored. -/
theorem uses_source {target source : Expr} {op : Option BinaryOp}
    (h : function.Uses environment.program (assignedValue target op source)) :
    function.Uses environment.program source := by
  cases op with
  | none => exact h
  | some op => exact .part h (by simp [assignedValue, Expr.combined, Expr.children])

/-- An assignment reads and writes what its two sides name, and nothing else of
the frame. -/
theorem Assigns.keepsFrame {target source : Expr} {op : Option BinaryOp}
    (h : Assigns environment target op source n code m)
    (hOwns : OwnsFrame environment function) (hTyped : typed → function.IsTyped environment.program)
    (hTarget : function.Uses environment.program target)
    (hValue : function.Uses environment.program (assignedValue target op source)) :
    FrameCode environment function typed none code := by
  cases h with
  | text fills chosen source_code target_code =>
      obtain ⟨spot, hTy, hCode, hSafe⟩ := target_code.keepsFrame_place hOwns hTyped hTarget
      have hText := FrameCode.text hCode hSafe chosen
      rw [hTy] at hText
      rw [List.append_assoc]
      exact .append (source_code.keepsFrame_value hOwns hTyped (uses_source hValue)) hText
  | value other source_code stores =>
      exact .append (source_code.keepsFrame_value hOwns hTyped hValue)
        (stores.keepsFrame hOwns hTyped hTarget)

/-- The declaration of a local writes to the words of that local only. -/
theorem Declares.keepsFrame {id : Nat} (h : Declares environment id n code m)
    (hOwns : OwnsFrame environment function) (hTyped : typed → function.IsTyped environment.program)
    (hVariable : function.Uses environment.program (.ofVariable environment.program id))
    (hLocal : id ∈ function.locals) : FrameCode environment function typed none code := by
  have hOwn : id ∈ function.frameIds := List.mem_append_right _ hLocal
  cases h with
  | reference declaration placed isRef initialized target_code =>
      have hDeclared := declaration_ok declaration
      have hStore : FrameCode environment function typed none _ :=
        .word (.variable hOwn (slot_ok placed) hDeclared) (fun _ => Sizes.of_isRef isRef) (.inr rfl)
      exact .append (target_code.keepsFrame_place hOwns hTyped
        (.initializer hLocal hDeclared initialized)).pass hStore
  | initialized declaration isValue initialized assigns =>
      exact assigns.keepsFrame hOwns hTyped hVariable
        (.initializer hLocal (declaration_ok declaration) initialized)
  | defaults n declaration placed isValue uninitialized words_eq =>
      refine .defaults _ (.variable hOwn (slot_ok placed) (declaration_ok declaration)) fun h => ?_
      exact @length_initialWords _ _ _ hOwns.sizes_eq none (fun id _ =>
        (hTyped h).finite id) words_eq

theorem UsesOf.mono {statements inner : List Stmt} (h : UsesOf environment function statements)
    (hInner : inner ⊆ statements) : UsesOf environment function inner where
  expressions := fun s hS => h.expressions s (hInner hS)
  locals := fun id hId => by
    obtain ⟨s, hS, hDeclared⟩ := List.mem_filterMap.mp hId
    exact h.locals id (List.mem_filterMap.mpr ⟨s, hInner hS, hDeclared⟩)

theorem frameCode_selection (values : List (Option Int32)) (labels : List String)
    (finish : String) :
    FrameCode environment function typed none (selection values labels finish) :=
  frameCode_of_free (by simp [selection, isFree, naming, Statement.ofInstruction, freeMnemonics])

theorem frameCode_armEnd (number : Nat) (finish last : String) (position : Nat)
    (rest : List (Expr × List Stmt)) :
    FrameCode environment function typed none (armEnd number finish last position rest) := by
  unfold armEnd
  refine .append ?_ ?_
  all_goals
    split <;> first | exact .nil | exact .free rfl

def Part.conditions : Part → List Expr
  | .arms _ _ _ _ branches => branches.map Prod.fst
  | _ => []

/-- The code of a body keeps to the frame of the function. -/
theorem Generates.keepsFrame {targets : Targets} {part : Part}
    (h : Generates environment targets part n code m)
    (hOwns : OwnsFrame environment function) (hTyped : typed → function.IsTyped environment.program)
    (hUses : UsesOf environment function part.parts)
    (hTests : ∀ e ∈ part.conditions, function.Uses environment.program e) :
    FrameCode environment function typed none code := by
  have hOwn : ∀ {s : Stmt} {inner : List Stmt}, UsesOf environment function (s :: inner) →
      ∀ e ∈ s.expressions environment.program, function.Uses environment.program e :=
    fun hUses => hUses.expressions _ (List.mem_cons_self ..)
  have hInner : ∀ {s : Stmt} {inner : List Stmt}, UsesOf environment function (s :: inner) →
      UsesOf environment function inner := fun hUses => hUses.mono (List.subset_cons_self _ _)
  have hNone : ∀ e ∈ ([] : List Expr), function.Uses environment.program e := by simp
  have hJump : ∀ label, FrameCode environment function typed none [naming "J" label] :=
    fun _ => .free rfl
  have hLabel : ∀ label, FrameCode environment function typed none [.ofLabel label] :=
    fun _ => .free rfl
  have hExit : ∀ label, FrameCode environment function typed none [naming "JZ" label] :=
    fun _ => .free rfl
  have hLast : ∀ label, FrameCode environment function typed none [naming "ILT_JZ" label] :=
    fun _ => .free rfl
  induction h with
  | declare declares =>
      exact declares.keepsFrame hOwns hTyped (hOwn hUses _ (by simp [Stmt.expressions]))
        (hUses.locals _ (by simp [Part.parts, Stmt.parts, declaredIds, Stmt.declared?]))
  | @assign targets target source op n m code assigns =>
      have hValue : function.Uses environment.program target ∧
          function.Uses environment.program (assignedValue target op source) := by
        cases op with
        | none => exact ⟨hOwn hUses _ (by simp [Stmt.expressions]), hOwn hUses _ (by
            simp [Stmt.expressions, assignedValue])⟩
        | some op => exact ⟨hOwn hUses _ (by simp [Stmt.expressions]), hOwn hUses _ (by
            simp [Stmt.expressions, assignedValue])⟩
      exact assigns.keepsFrame hOwns hTyped hValue.1 hValue.2
  | @branch targets arms otherwise n middle m tested rest arms_code otherwise_code
        arms_ih otherwise_ih =>
      have hArms := arms_ih ((hInner hUses).mono (List.subset_append_left _ _))
        (hOwn (s := .branch arms otherwise) hUses)
      have hOtherwise := otherwise_ih ((hInner hUses).mono (List.subset_append_right _ _)) hNone
      refine (FrameCode.append hArms ?_).append (hLabel _)
      split
      · exact .nil
      · exact .append (hLabel _) hOtherwise
  | loop condition_code body_code body_ih =>
      have hTest :=
        condition_code.keepsFrame_value hOwns hTyped (hOwn hUses _ (by simp [Stmt.expressions]))
      have hBody := body_ih (hInner hUses) hNone
      simpa using (hLabel _).append (hTest.append ((hExit _).append (hBody.append
        ((hJump _).append (hLabel _)))))
  | countUp reset_code counter_code limit_code body_code advance_code body_ih =>
      have hReset := reset_code.keepsFrame hOwns hTyped (hOwn hUses _ (by simp [Stmt.expressions]))
        (hOwn hUses _ (by simp [Stmt.expressions, assignedValue]))
      have hCount :=
        counter_code.keepsFrame_value hOwns hTyped (hOwn hUses _ (by simp [Stmt.expressions]))
      have hLimit :=
        limit_code.keepsFrame_value hOwns hTyped (hOwn hUses _ (by simp [Stmt.expressions]))
      have hBody := body_ih (hInner hUses) hNone
      have hAdvance :=
        advance_code.keepsFrame hOwns hTyped (hOwn hUses _ (by simp [Stmt.expressions]))
        (hOwn hUses _ (by simp [Stmt.expressions, assignedValue]))
      simpa using hReset.append ((hLabel _).append ((hCount.append hLimit).append ((hLast _).append
        (hBody.append ((hLabel _).append (hAdvance.append ((hJump _).append (hLabel _))))))))
  | select scrutinee_code cases_code cases_ih =>
      have hValue := scrutinee_code.keepsFrame_value hOwns hTyped
        (hOwn hUses _ (by simp [Stmt.expressions]))
      have hCases := cases_ih (hInner hUses) hNone
      exact ((hValue.append (frameCode_selection _ _ _)).append hCases).append (hLabel _)
  | breakOut n target => exact hJump _
  | continueLoop n target => exact hJump _
  | goto targets name n => exact hJump _
  | label targets name n => exact hLabel _
  | ret targets n => exact .leave
  | retValue value_code =>
      exact .append (value_code.keepsFrame_value hOwns hTyped
        (hOwn hUses _ (by simp [Stmt.expressions]))) .leave
  | evaluate value_code =>
      exact .append (value_code.keepsFrame_value hOwns hTyped
        (hOwn hUses _ (by simp [Stmt.expressions]))) (frameCode_dropWords _)
  | nil targets n => exact .nil
  | cons first_code rest_code first_ih rest_ih =>
      exact .append (first_ih (hUses.mono (List.subset_append_left _ _)) hNone)
        (rest_ih (hUses.mono (List.subset_append_right _ _)) hNone)
  | noArms targets number finish last position n => exact .nil
  | arm condition_code body_code rest_code body_ih rest_ih =>
      rw [Part.conditions, List.map_cons, List.forall_mem_cons] at hTests
      have hTest := condition_code.keepsFrame_value hOwns hTyped hTests.1
      have hBody := body_ih (hUses.mono (List.subset_append_left _ _)) hNone
      have hRest := rest_ih (hUses.mono (List.subset_append_right _ _)) hTests.2
      simpa using hTest.append ((hExit _).append (hBody.append
        ((frameCode_armEnd _ _ _ _ _).append hRest)))
  | noCases targets labels n => exact .nil
  | case body_code rest_code body_ih rest_ih =>
      have hBody := body_ih (hUses.mono (List.subset_append_left _ _)) hNone
      have hRest := rest_ih (hUses.mono (List.subset_append_right _ _)) hNone
      exact ((hLabel _).append hBody).append hRest

end Statements
end ScriptBackend.Lowering
