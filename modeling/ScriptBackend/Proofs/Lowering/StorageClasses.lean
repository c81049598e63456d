import ScriptBackend.Proofs.Lowering.CompiledData
import ScriptBackend.Proofs.Lowering.Places

/-!
One initializer in every storage class. A static holds the words of its
initializer in the script, a local gets them from the code of its declaration,
and a constant is replaced by code that pushes them. These are the same words,
unless a type of floats is initialized with an integer, which becomes a float in
a static only.
-/
namespace ScriptBackend

open Assembly Lowering Outcome

/-- A variable of a program begins with the value of an expression. -/
def Program.BeginsWith (program : Program) (id : Nat) (storage : Storage) (ty : Ty)
    (e : Expr) : Prop :=
  ∃ name, program.vars[id]? = some ⟨name, ty, storage, some e⟩

/-- Whether the values of a type are single words or vectors, and no addresses
of other values. -/
def Ty.isPlain : Ty → Bool
  | .int | .float | .bool | .string | .vector | .handle _ | .functionPointer _ => true
  | _ => false

theorem Ty.isRef_of_isPlain {ty : Ty} (h : ty.isPlain = true) : ty.isRef = false := by
  cases ty <;> first | rfl | cases h

theorem Ty.target_of_isPlain {ty : Ty} (h : ty.isPlain = true) : ty.target = ty := by
  cases ty <;> first | rfl | cases h

namespace Lowering

theorem fillsTextLabel_of_isPlain {ty : Ty} (h : ty.isPlain = true) (source : Ty) :
    fillsTextLabel ty source = false := by
  cases ty <;> first | rfl | cases h

/-- A plain type takes a few words, which a count can hold. -/
theorem size_of_isPlain {ty : Ty} (h : ty.isPlain = true) (sizes : Sizes) :
    0 < sizes.of ty ∧ sizes.of ty < wordLimit := by
  have hOne : 0 < 1 ∧ 1 < wordLimit := by decide
  have hThree : 0 < 3 ∧ 3 < wordLimit := by decide
  cases ty <;> first | exact hOne | exact hThree | cases h

/-- A plain type is measured without looking at structs. -/
theorem measure_of_isPlain {ty : Ty} (h : ty.isPlain = true) (sizes : Sizes) :
    sizes.measure ty = .ok (sizes.of ty) := by
  have hFits : sizes.fits ty = true := by
    cases ty <;> first | rfl | cases h
  rw [Sizes.measure, Sizes.guarded, if_pos hFits]
  rfl

section Known

variable {environment : Environment} {e : Expr} {words : List Datum} {id : Nat}
  {declared : Variable}

/-- The code of a constant pushes the words of its initializer, whether the use
of the constant counts as known or is replaced by the initializer. -/
theorem value_constant (hDeclared : environment.declaration id = .ok declared)
    (hStorage : declared.storage = .constant)
    (hInitializer : declared.initializer = some e)
    (hKnown : knownWords? environment.toSetting e = some words)
    (info : Info) (n : Nat) :
    (environment.value (.var info id)).run n = .ok (pushData words, n) := by
  have hVariable := declaration_ok hDeclared
  cases hUse : knownWords? environment.toSetting (.var info id) with
  | some found =>
      have hSame := fold?_of_constant hVariable hInitializer (fold?_of_known hUse)
      cases hSame.symm.trans (fold?_of_known hKnown)
      exact value_known hUse _ n
  | none =>
      have hSize : environment.program.vars.size ≠ 0 :=
        Nat.ne_zero_of_lt (Array.getElem?_eq_some_iff.mp hVariable).1
      obtain ⟨depth, hDepth⟩ := Nat.exists_eq_add_one_of_ne_zero hSize
      rw [Environment.value, value.eq_def, hUse]
      refine run_lift_bind_eq_ok.mpr ⟨declared, hDeclared, ?_⟩
      rw [if_pos hStorage, hInitializer, Environment.initializerCode, hDepth]
      exact value_known hKnown _ n

/-- A variable of a plain type outside of constants can be stored to. -/
theorem exists_store {slot : Slot} (hDeclared : environment.declaration id = .ok declared)
    (hPlain : declared.ty.isPlain = true) (hPlaced : environment.place id = .ok slot) (n : Nat) :
    ∃ code, (store environment (.ofVariable environment.program id)).run n = .ok (code, n) := by
  have hTarget : (Expr.ofVariable environment.program id).ty = declared.ty := by
    rw [← Ty.target_of_isPlain hPlain, Expr.ofVariable, declaration_ok hDeclared]
    rfl
  have hMeasured := measure_of_isPlain hPlain environment.sizes
  rw [← hTarget] at hMeasured
  have hVariable : ∃ info, Expr.ofVariable environment.program id = .var info id := ⟨_, rfl⟩
  obtain ⟨info, hVariable⟩ := hVariable
  rw [hVariable] at hMeasured ⊢
  suffices hStore : ∃ code, (if environment.sizes.of (Expr.var info id).ty ≠ 1 then do
      let code ← environment.address (.var info id)
      return counted "PUSH_CONST" [environment.sizes.of (Expr.var info id).ty] :: code ++
        [plain "STORE_N"]
    else liftM (environment.variableStore id) : Gen Code).run n = .ok (code, n) by
    obtain ⟨code, hStore⟩ := hStore
    exact ⟨code, run_lift_bind_eq_ok.mpr ⟨_, hMeasured, hStore⟩⟩
  split
  · have hAddress : ∃ code, environment.variableAddress id = .ok code := by
      by_cases hReference : declared.ty.isRef = true
      · exact ⟨_, bind_eq_ok.mpr ⟨_, hDeclared, bind_eq_ok.mpr ⟨_, hPlaced, if_pos hReference⟩⟩⟩
      · exact ⟨_, bind_eq_ok.mpr ⟨_, hDeclared, bind_eq_ok.mpr ⟨_, hPlaced, if_neg hReference⟩⟩⟩
    obtain ⟨code, hAddress⟩ := hAddress
    exact ⟨_, run_bind_eq_ok.mpr ⟨code, n, run_lift_eq_ok.mpr ⟨hAddress, rfl⟩, rfl⟩⟩
  · have hStore : ∃ code, environment.variableStore id = .ok code := by
      by_cases hReference : declared.ty.isRef = true
      · exact ⟨_, bind_eq_ok.mpr ⟨_, hDeclared, bind_eq_ok.mpr ⟨_, hPlaced, if_pos hReference⟩⟩⟩
      · exact ⟨_, bind_eq_ok.mpr ⟨_, hDeclared, bind_eq_ok.mpr ⟨_, hPlaced, if_neg hReference⟩⟩⟩
    obtain ⟨code, hStore⟩ := hStore
    exact ⟨code, run_lift_eq_ok.mpr ⟨hStore, rfl⟩⟩

/-- The code of the declaration of a local pushes the words of its initializer
and stores them. -/
theorem declare_known {slot : Slot} (hDeclared : environment.declaration id = .ok declared)
    (hPlain : declared.ty.isPlain = true) (hInitializer : declared.initializer = some e)
    (hSlot : environment.slots.slot environment.program id = .ok slot)
    (hKnown : knownWords? environment.toSetting e = some words) {n m : Nat} {storing : Code}
    (hStore : (store environment (.ofVariable environment.program id)).run n = .ok (storing, m)) :
    (declare environment id).run n = .ok (pushData words ++ storing, m) := by
  have hTarget : (Expr.ofVariable environment.program id).ty = declared.ty := by
    rw [← Ty.target_of_isPlain hPlain, Expr.ofVariable, declaration_ok hDeclared]
    rfl
  refine run_lift_bind_eq_ok.mpr ⟨declared, hDeclared, run_lift_bind_eq_ok.mpr ⟨slot, hSlot, ?_⟩⟩
  rw [if_neg (by simp [Ty.isRef_of_isPlain hPlain]), hInitializer]
  dsimp only
  rw [assign, hTarget, if_neg (by simp [fillsTextLabel_of_isPlain hPlain])]
  exact run_bind_eq_ok.mpr ⟨_, n, value_known hKnown _ n,
    run_bind_eq_ok.mpr ⟨storing, m, hStore, rfl⟩⟩

end Known

/-- The words of an initializer are those of the expression, if it has no
integer for a type of floats. -/
theorem fold?_of_initializerWords {setting : Setting} {ty : Ty} {e : Expr} {words : List Datum}
    (h : initializerWords setting ty e = .ok words)
    (hFloats : ty.holdsFloats = true → ∀ found, fold? setting.program e = some found →
      ∀ word ∈ found, ∀ value, word ≠ .int value) : fold? setting.program e = some words := by
  unfold initializerWords at h
  split at h
  · cases h
  · next found hFound =>
      dsimp only at h
      split at h
      · cases h
      · split at h
        · next hFloat =>
            cases h
            have hSame : ∀ word ∈ found, (word.float?.map Datum.float).getD word = id word := by
              intro word hWord
              cases word with
              | int value => exact absurd rfl (hFloats hFloat found hFound _ hWord value)
              | _ => rfl
            rw [hFound, List.map_congr_left hSame, List.map_id]
        · cases h
          exact hFound

namespace Machine

/-- The names of functions stand for the addresses at which the functions begin
in a script. -/
def Resolves (machine : Machine) {source : NativeSource} {options : Options}
    {statements : List Statement}
    {script : Script} (unit : Assembled source options statements script) : Prop :=
  ∀ name address, unit.BeginsAt name address → machine.names name = Word.ofInt address

/-- Words are what a declaration with some type and initializer means in a
frame: the code of the declaration of a local leaves them in its slot, and the
code of a constant pushes them. -/
structure MeansWords (machine : Machine) (environment : Environment) (ty : Ty) (e : Expr)
    (words : List Word) : Prop where
  local_stored : ∀ id index n, environment.program.BeginsWith id (.placed .locals) ty e →
    environment.slots.slot environment.program id = .ok ⟨.locals, index⟩ →
    machine.bases.frame + index < addressLimit →
    ∃ code, (declare environment id).run n = .ok (code, n) ∧ ∀ stack memory,
      machine.Runs code ⟨stack, memory⟩ ⟨stack, written memory (machine.bases.frame + index) words⟩
  constant_pushed : ∀ id info n, environment.program.BeginsWith id .constant ty e →
    ∃ code, (environment.value (.var info id)).run n = .ok (code, n) ∧ ∀ stack memory,
      machine.Runs code ⟨stack, memory⟩ ⟨words.reverse ++ stack, memory⟩

variable {machine : Machine} {environment : Environment} {ty : Ty} {e : Expr} {words : List Datum}

theorem declaration_of_beginsWith {setting : Setting} {id : Nat} {storage : Storage}
    (h : setting.program.BeginsWith id storage ty e) :
    ∃ name, setting.declaration id = .ok ⟨name, ty, storage, some e⟩ := by
  obtain ⟨name, h⟩ := h
  exact ⟨name, by rw [Setting.declaration, h]⟩

/-- A known initializer means its words. -/
theorem meansWords_of_known (hPlain : ty.isPlain = true)
    (hKnown : knownWords? environment.toSetting e = some words)
    (hLength : words.length = environment.sizes.of ty) :
    machine.MeansWords environment ty e (words.map machine.word) where
  local_stored := fun id index n hLocal hSlot hNear => by
    obtain ⟨name, hDeclared⟩ := declaration_of_beginsWith hLocal
    have hPlaced : environment.place id = .ok ⟨.locals, index⟩ := by
      rw [Setting.place, hDeclared, hSlot]
      simp [Bind.bind, Except.bind, Ty.isRef_of_isPlain hPlain]
      rfl
    obtain ⟨storing, hStore⟩ := exists_store hDeclared hPlain hPlaced n
    refine ⟨_, declare_known hDeclared hPlain rfl hSlot hKnown hStore, fun stack memory => ?_⟩
    have hTarget : ty.target = ty := Ty.target_of_isPlain hPlain
    have hIndex : index < 2 ^ 63 := by
      unfold addressLimit at hNear
      omega
    have hLeads := @Execution.Leads.ofVariable machine machine.plainly environment id _ _ hDeclared
      (by simp) hPlaced hIndex (hTarget.symm ▸ (size_of_isPlain hPlain environment.sizes).2)
    have hTyped : (Expr.ofVariable environment.program id).ty = ty := by
      rw [← hTarget, Expr.ofVariable, declaration_ok hDeclared]
      rfl
    have hCount : (words.map machine.word).length =
        environment.sizes.of (Expr.ofVariable environment.program id).ty := by
          rw [List.length_map, hTyped, hLength]
    have hStored := @Execution.Leads.store machine machine.plainly _ _ _ _ _ _ memory hLeads hStore
      _ hCount ⟨fun _ _ => trivial, fun _ _ _ => trivial⟩ stack
    have hPosition : (Route.address machine ⟨⟨.locals, index⟩, ty.isRef, []⟩ memory).position =
        machine.bases.frame + index := by
      rw [Route.address_root, Route.start, Ty.isRef_of_isPlain hPlain]
      exact position_addressOf hNear
    rw [Route.stored, hPosition] at hStored
    exact Runs.append (machine.plainly.pushData words) hStored
  constant_pushed := fun id info n hConstant => by
    obtain ⟨name, hDeclared⟩ := declaration_of_beginsWith hConstant
    exact ⟨_, value_constant hDeclared rfl rfl hKnown info n, fun stack memory =>
      machine.plainly.pushData words⟩

/-- What a word becomes in a script is the word that the machine has for it. -/
theorem word_of_becomes {source : NativeSource} {options : Options}
    {statements : List Statement} {script : Script}
    {unit : Assembled source options statements script}
    (hResolves : machine.Resolves unit) {word : Datum}
    {stored : Word} (h : word.Becomes unit stored) : machine.word word = stored := by
  cases word with
  | int value => exact h.symm
  | float value => exact h.symm
  | text value => cases h
  | address name =>
      obtain ⟨address, hBegins, rfl⟩ := h
      exact hResolves name address hBegins

end Machine
end Lowering

/-- As many words of the statics as counted from an index on. -/
def Script.staticsAt (script : Script) (index count : Nat) : List Word :=
  (script.statics.extract index (index + count)).toList

theorem Script.word?_statics (script : Script) {slot : Slot}
    (hRegion : slot.region = .statics) (i : Nat) :
    script.word? slot i = script.statics[slot.index + i]? := by
  simp only [word?, Slot.offset, hRegion]

theorem Script.length_staticsAt (script : Script) {index count : Nat}
    (h : index + count ≤ script.statics.size) : (script.staticsAt index count).length = count := by
  rw [staticsAt, Array.length_toList, Array.size_extract]
  omega

/-- Where the words of a static stand, the script has what the machine has for
them. -/
theorem staticsAt_eq {machine : Machine} {source : NativeSource} {options : Options}
    {statements : List Statement}
    {script : Script} {unit : Assembled source options statements script}
    (hResolves : machine.Resolves unit)
    {slot : Slot} (hRegion : slot.region = .statics) {words : List Datum}
    (hStored : ∀ i word, words[i]? = some word →
      ∃ stored, script.word? slot i = some stored ∧ word.Becomes unit stored) :
    script.staticsAt slot.index words.length = words.map machine.word := by
  have hEach : ∀ i (hi : i < words.length), script.statics[slot.index + i]? =
      some (machine.word words[i]) := by
    intro i hi
    obtain ⟨stored, hAt, hBecomes⟩ := hStored i words[i] (List.getElem?_eq_getElem hi)
    rw [← script.word?_statics hRegion, hAt, Machine.word_of_becomes hResolves hBecomes]
  refine List.ext_getElem? fun i => ?_
  rw [Script.staticsAt, Array.getElem?_toList, Array.getElem?_extract, List.getElem?_map]
  by_cases hi : i < words.length
  · have hInside := (Array.getElem?_eq_some_iff.mp (hEach i hi)).1
    rw [if_pos (by omega), hEach i hi, List.getElem?_eq_getElem hi, Option.map_some]
  · rw [if_neg (by omega), List.getElem?_eq_none (by omega), Option.map_none]

/-- A declaration means the same in every storage class. When a static of a
plain type is initialized with a constant expression, which has no integer among
its words if the type holds floats, the static has the words in the script that
the declaration of a local of the same type and initializer leaves in its slot,
and that a constant of the same type and initializer pushes. -/
theorem storageClasses_agree {natives : NativeSource} {options : Options}
    {program : Program} {script : Script} (h : compileToScript natives options program = .ok script)
    (hFrames : ∀ function ∈ program.functions, function.KeepsToFrame program)
    (hNames : ∀ function ∈ program.functions, '.' ∉ function.name.toList)
    (hSized : ∀ (id : Nat) declared region, program.vars[id]? = some declared →
      declared.storage = .placed region → region.isData = true →
      declared.ty.HasSize program.structs)
    {static : Nat} {ty : Ty} {e : Expr}
    (hStatic : program.BeginsWith static (.placed .statics) ty e)
    (hPlain : ty.isPlain = true) (hConstant : e.isConstant = true)
    (hFloats : ty.holdsFloats = true → ∀ words, fold? program e = some words →
      ∀ word ∈ words, ∀ value, word ≠ .int value) :
    ∃ setting statements, Setting.ofProgram natives program = .ok setting ∧
      compileToAssembly natives program = .ok statements ∧
      ∃ (assembled : Assembled setting.natives options statements script) (index : Nat),
        setting.slots.slot program static = .ok ⟨.statics, index⟩ ∧
        index + setting.sizes.of ty ≤ script.statics.size ∧
        ∀ (machine : Machine) (frame : Frame), machine.Resolves assembled →
          machine.MeansWords ⟨setting, frame⟩ ty e
            (script.staticsAt index (setting.sizes.of ty)) := by
  obtain ⟨name, hDeclared⟩ := hStatic
  obtain ⟨slots, hSlots, unit, hCompiled, ⟨assembled⟩⟩ := exists_assembled_of_compileToScript h
  let setting : Setting := ⟨program, .ofStructs program.structs, slots, natives⟩
  have hSetting : Setting.ofProgram natives program = .ok setting :=
    bind_eq_ok.mpr ⟨slots, hSlots, rfl⟩
  have hPlaces : setting.PlacesVariables :=
    ⟨Slots.placesData_ofProgram hFrames hSlots, rfl, hNames, hSized⟩
  have hAgrees := hPlaces.dataAgrees assembled
  obtain ⟨⟨region, index⟩, words, hSlot, hRegion, hWords, hLength, hStored⟩ :=
    hAgrees.stored static _ .statics hDeclared rfl rfl
  cases hRegion
  have hKnown : knownWords? setting e = some words := by
    rw [knownWords?, if_pos hConstant]
    exact fold?_of_initializerWords hWords hFloats
  refine ⟨setting, unit.statements, hSetting, hCompiled, assembled, index, ?_, ?_,
    fun machine frame hResolves => ?_⟩
  · rw [Slots.slot, hSlot]
    rfl
  · have hSome := (size_of_isPlain hPlain setting.sizes).1
    obtain ⟨last, hLast⟩ := Nat.exists_eq_add_one_of_ne_zero (Nat.ne_of_gt hSome)
    have hInWords : last < words.length := by
      rw [hLength, hLast]
      exact Nat.lt_succ_self last
    obtain ⟨stored, hAt, _⟩ := hStored last _ (List.getElem?_eq_getElem hInWords)
    rw [script.word?_statics rfl] at hAt
    have hInside := (Array.getElem?_eq_some_iff.mp hAt).1
    dsimp only at hInside
    omega
  · rw [← hLength, staticsAt_eq hResolves rfl hStored]
    exact Machine.meansWords_of_known hPlain hKnown hLength

/-- A float as the initializer of a static, a local and a constant. -/
def alikeProgram : Program :=
  ⟨"alike", none, none, #[], #[],
    #[⟨"s", .float, .placed .statics, some (.ofFloat ⟨0x40000000⟩)⟩,
      ⟨"l", .float, .placed .locals, some (.ofFloat ⟨0x40000000⟩)⟩,
      ⟨"C", .float, .constant, some (.ofFloat ⟨0x40000000⟩)⟩],
    #[⟨"MAIN", [], .void, [.declare 1]⟩], #[]⟩

theorem compileToScript_alike :
    ∃ script, compileToScript NativeDatabase.empty .default alikeProgram = .ok script :=
  exists_of_isOk (by decide +kernel)

/-- A machine with the addresses that functions have in a script. -/
def alikeMachine {source : NativeSource} {options : Options}
    {statements : List Statement} {script : Script}
    (unit : Assembled source options statements script) : Machine where
  bases := ⟨0x10000, 0x100, fun id => 0x1000 + id⟩
  names := fun name =>
    match unit.layout.labels.find? name with
    | some address => Word.ofInt address
    | none => .zero
  texts := fun _ => .zero
  others := fun _ _ => none

/-- The local is set to the word that the static has, and the constant pushes it. -/
theorem storageClasses_agree_float :
    ∃ script setting statements,
      compileToScript NativeDatabase.empty .default alikeProgram = .ok script ∧
      Setting.ofProgram NativeDatabase.empty alikeProgram = .ok setting ∧
      ∃ (assembled : Assembled setting.natives .default statements script)
        (index : Nat) (word : Word),
        setting.slots.slot alikeProgram 0 = .ok ⟨.statics, index⟩ ∧
        script.staticsAt index 1 = [word] ∧ setting.slots.slot alikeProgram 1 = .ok ⟨.locals, 2⟩ ∧
        (∃ code, (declare ⟨setting, default⟩ 1).run 0 = .ok (code, 0) ∧ ∀ stack memory,
          (alikeMachine assembled).Runs code ⟨stack, memory⟩
            ⟨stack, written memory 0x10002 [word]⟩) ∧
        ∃ code,
          (Environment.value ⟨setting, default⟩ (.ofVariable alikeProgram 2)).run 0 =
            .ok (code, 0) ∧
          ∀ stack memory, (alikeMachine assembled).Runs code ⟨stack, memory⟩
            ⟨word :: stack, memory⟩ := by
  obtain ⟨script, h⟩ := compileToScript_alike
  have hFunction : ∀ function ∈ alikeProgram.functions,
      function = ⟨"MAIN", [], .void, [.declare 1]⟩ := by
    simp [alikeProgram]
  have hWords : ∀ words, fold? alikeProgram (.ofFloat ⟨0x40000000⟩) = some words →
      words = [.float ⟨0x40000000⟩] := by
    intro words hWords
    cases hWords
    rfl
  have hStatic : alikeProgram.BeginsWith 0 (.placed .statics) .float (.ofFloat ⟨0x40000000⟩) :=
    ⟨"s", rfl⟩
  have hLocal : alikeProgram.BeginsWith 1 (.placed .locals) .float (.ofFloat ⟨0x40000000⟩) :=
    ⟨"l", rfl⟩
  have hConstant : alikeProgram.BeginsWith 2 .constant .float (.ofFloat ⟨0x40000000⟩) := ⟨"C", rfl⟩
  obtain ⟨setting, statements, hSetting, _, assembled, index, hSlot, hInside, hMeans⟩ :=
    storageClasses_agree h
      (fun function hMem => by
        rw [hFunction function hMem]
        refine ⟨by simp, fun id hId declared hDeclared => ?_⟩
        obtain rfl : id = 1 := by simpa [blockLocalIds, Stmt.localIds] using hId
        cases hDeclared
        rfl)
      (fun function hMem => by
        rw [hFunction function hMem]
        decide)
      (fun id declared region hDeclared _ _ => by
        have hEach := Array.mem_of_getElem? hDeclared
        simp only [alikeProgram, List.mem_toArray, List.mem_cons,
          List.not_mem_nil, or_false] at hEach
        rcases hEach with rfl | rfl | rfl <;> simp [Ty.HasSize, Ty.struct?])
      hStatic rfl rfl
      (fun _ words hFold word hWord value => by
        rw [hWords words hFold, List.mem_singleton] at hWord
        simp [hWord])
  have hPlace : setting.slots.slot alikeProgram 1 = .ok ⟨.locals, 2⟩ := by
    have hAll : ((Setting.ofProgram NativeDatabase.empty alikeProgram).toOption.bind fun setting =>
        (setting.slots.slot alikeProgram 1).toOption) = some ⟨.locals, 2⟩ := by decide +kernel
    rw [hSetting, Except.toOption, Option.bind_some] at hAll
    cases hFound : setting.slots.slot alikeProgram 1 with
    | error fault =>
        rw [hFound] at hAll
        cases hAll
    | ok slot =>
        rw [hFound] at hAll
        cases hAll
        rfl
  obtain ⟨slots, _, hSame⟩ := bind_eq_ok.mp hSetting
  cases hSame
  have hSize : ∀ sizes : Sizes, sizes.of .float = 1 := fun _ => rfl
  have hResolves : (alikeMachine assembled).Resolves assembled := fun name address hBegins => by
    simp only [alikeMachine, hBegins.bound]
  have hNear : 0x10000 + 2 < addressLimit := by decide
  have hAlike := hMeans (alikeMachine assembled) default hResolves
  rw [hSize] at hInside hAlike
  obtain ⟨word, hWord⟩ := List.length_eq_one_iff.mp (script.length_staticsAt hInside)
  rw [hWord] at hAlike
  exact ⟨script, _, statements, h, hSetting, assembled, index, word, hSlot, hWord, hPlace,
    hAlike.local_stored 1 2 0 hLocal hPlace hNear, hAlike.constant_pushed 2 _ 0 hConstant⟩

end ScriptBackend
