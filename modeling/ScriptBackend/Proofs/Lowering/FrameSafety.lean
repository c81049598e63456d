import Mathlib.Data.List.Forall2
import ScriptBackend.Proofs.Lowering.CompiledLinks
import ScriptBackend.Proofs.Lowering.FrameAccesses

/-!
The frames of a compiled program. A frame consists of the parameters of its
function, the two words that the machine keeps for itself, the locals and the
scratch words, and the code of the function finds every value that it reads or
writes within them.
-/
namespace ScriptBackend.Lowering

open ScriptBackend.Assembly Outcome

def frameMnemonics : List String :=
  ["LOCAL", "LOCAL_LOAD", "LOCAL_STORE"]

/-- What a statement behind the first one of a function says about the frame. -/
inductive NamesOwn (environment : Environment) (function : Function) : Content → Prop where
  /-- The first word of a variable of the function, or the first scratch word. -/
  | value {first : Nat} {ty : Ty} {mnemonic : String}
      (value : FrameValue environment function first ty) (named : mnemonic ∈ frameMnemonics) :
      NamesOwn environment function (.instruction mnemonic [.int (Int64.ofNat first)])
  /-- The words of the parameters and of the result. -/
  | leave : NamesOwn environment function (.instruction "LEAVE"
      [.int (Int64.ofNat environment.frame.parameterWords),
        .int (Int64.ofNat environment.frame.resultWords)])
  | other {mnemonic : String} {operands : List Operand}
      (other : mnemonic ∉ "ENTER" :: "LEAVE" :: frameMnemonics) :
      NamesOwn environment function (.instruction mnemonic operands)
  | label : NamesOwn environment function .empty

section Statements

variable {environment : Environment} {function : Function} {typed : Prop} {code : Code}

/-- Instructions that touch no variable name nothing of the frame. -/
theorem namesOwn_of_isFree {statement : Statement} (h : isFree statement = true) :
    NamesOwn environment function statement.content := by
  have hApart : ∀ mnemonic ∈ freeMnemonics,
      mnemonic ∉ "ENTER" :: "LEAVE" :: frameMnemonics := by decide
  unfold isFree at h
  split at h
  · next hEmpty => exact hEmpty ▸ .label
  · next mnemonic operands hContent =>
      rw [hContent]
      exact .other (hApart _ (by simpa using h))
  · cases h

theorem namesOwn_atOffset (offset : Nat) :
    ∀ statement ∈ atOffset offset, NamesOwn environment function statement.content := by
  unfold atOffset
  split
  · simp
  · exact List.forall_mem_singleton.mpr (.other (by decide))

theorem namesOwn_storeWord (offset : Nat) (word : Datum) :
    ∀ statement ∈ storeWord offset word, NamesOwn environment function statement.content := by
  have hPushed : ∀ statement ∈ pushData [word],
      NamesOwn environment function statement.content := by
    intro statement hStatement
    obtain ⟨run, _, rfl⟩ := List.mem_map.mp hStatement
    exact namesOwn_of_isFree (isFree_pushRun run)
  simp only [storeWord, List.cons_append, List.forall_mem_cons, List.forall_mem_append]
  exact ⟨.other (by decide), ⟨namesOwn_atOffset offset, hPushed⟩, .other (by decide),
    .other (by decide), by simp⟩

theorem namesOwn_storeWords (offset : Nat) (words : List Datum) :
    ∀ statement ∈ storeWords offset words, NamesOwn environment function statement.content := by
  induction words generalizing offset with
  | nil => simp [storeWords]
  | cons word rest ih =>
      rw [storeWords, List.forall_mem_append]
      refine ⟨?_, ih _⟩
      split
      · simp
      · exact namesOwn_storeWord offset word

/-- Default words are stored to the local that is declared. -/
theorem namesOwn_storeDefaults {slot : Slot} {ty : Ty} (name : String) (words : List Datum)
    (h : FrameValue environment function slot.index ty) :
    ∀ statement ∈ storeDefaults name slot words,
      NamesOwn environment function statement.content := by
  unfold storeDefaults
  split
  · simp
  · simp only [List.cons_append, List.forall_mem_cons, List.forall_mem_append]
    exact ⟨.value h (by decide), namesOwn_storeWords 0 words, .other (by decide), by simp⟩

/-- Spilled words lie within the scratch words, since the frame has enough of
them. -/
theorem namesOwn_spillCode {ty : Ty}
    (h : environment.sizes.of ty ≤ environment.frame.scratchWords) :
    ∀ statement ∈ spillCode environment.frame (environment.sizes.of ty),
      NamesOwn environment function statement.content := by
  have hScratch : FrameValue environment function environment.frame.scratchOffset ty := .scratch h
  unfold spillCode
  rw [List.forall_mem_append]
  refine ⟨?_, List.forall_mem_singleton.mpr (.value hScratch (by decide))⟩
  split
  · exact List.forall_mem_singleton.mpr (.value hScratch (by decide))
  · simp only [List.forall_mem_cons]
    exact ⟨.other (by decide), .value hScratch (by decide), .other (by decide), by simp⟩

theorem textLabelMnemonic_not_mem {op : Option BinaryOp} {source : Ty} {mnemonic : String}
    (h : textLabelMnemonic? op source = some mnemonic) :
    mnemonic ∉ "ENTER" :: "LEAVE" :: frameMnemonics := by
  unfold textLabelMnemonic? at h
  split at h <;> cases h <;> decide

/-- The statements of code that keeps to the frame name its values. -/
theorem FrameCode.namesOwn {spot : Option Spot}
    (h : FrameCode environment function typed spot code) :
    ∀ statement ∈ code, NamesOwn environment function statement.content := by
  -- most pieces end with an instruction that names no word of the frame
  have hLast : ∀ {code : Code} {mnemonic : String} (operands : List Operand),
      (∀ statement ∈ code, NamesOwn environment function statement.content) →
      mnemonic ∉ "ENTER" :: "LEAVE" :: frameMnemonics →
      ∀ statement ∈ code ++ [.ofInstruction mnemonic operands],
        NamesOwn environment function statement.content := fun operands hCode hOther =>
    List.forall_mem_append.mpr ⟨hCode, List.forall_mem_singleton.mpr (.other hOther)⟩
  induction h with
  | nil => simp
  | append first_code second_code first_ih second_ih =>
      exact List.forall_mem_append.mpr ⟨first_ih, second_ih⟩
  | free isFree => exact List.forall_mem_singleton.mpr (namesOwn_of_isFree isFree)
  | leave => exact List.forall_mem_singleton.mpr .leave
  | comment comment code ih =>
      simp only [List.forall_mem_append, List.forall_mem_cons] at ih ⊢
      exact ih
  | word value single direct =>
      refine List.forall_mem_singleton.mpr (.value value ?_)
      rcases direct with rfl | rfl <;> decide
  | «variable» value same => exact List.forall_mem_singleton.mpr (.value value (by decide))
  | @outside region ty index data =>
      refine List.forall_mem_singleton.mpr (.other ?_)
      revert data
      cases region <;> decide
  | reference ty value isRef => exact List.forall_mem_singleton.mpr (.value value (by decide))
  | spilled value room ih => exact List.forall_mem_append.mpr ⟨ih, namesOwn_spillCode room⟩
  | member base inside ih => exact List.forall_mem_append.mpr ⟨ih, namesOwn_atOffset _⟩
  | element position array isArray position_ih array_ih =>
      exact hLast _ (List.forall_mem_append.mpr ⟨position_ih, array_ih⟩) (by decide)
  | address place safe ih => exact ih
  | words place safe many ih =>
      refine hLast _ (List.forall_mem_cons.mpr ⟨.other (by decide), ih⟩) ?_
      rcases many with rfl | rfl <;> decide
  | through place safe single direct ih =>
      refine hLast _ ih ?_
      rcases direct with rfl | rfl <;> decide
  | memberWord base inside safe single direct ih =>
      refine hLast _ ih ?_
      rcases direct with rfl | rfl <;> decide
  | elementWord position array isArray safe single direct position_ih array_ih =>
      refine hLast _ (List.forall_mem_append.mpr ⟨position_ih, array_ih⟩) ?_
      rcases direct with rfl | rfl <;> decide
  | text place safe chosen ih => exact hLast _ ih (textLabelMnemonic_not_mem chosen)
  | defaults name value length_eq => exact namesOwn_storeDefaults name _ value

end Statements

/-! The parts of a frame -/

section Parts

variable {environment : Environment} {function : Function} {first count : Nat} {ty : Ty}

/-- A frame with the slots of its variables in it. -/
structure HasFrame (environment : Environment) (function : Function) : Prop where
  placed : Slots.PlacesFrame environment.program environment.sizes environment.slots function
  frame_eq : environment.frame = Slots.frameOf environment.program environment.sizes function

/-- The words between the parameters and the locals are in no value of the frame. -/
theorem HasFrame.apart (h : HasFrame environment function)
    (hValue : FrameValue environment function first ty) :
    first + environment.sizes.of ty ≤ environment.frame.parameterWords ∨
      environment.frame.parameterWords + reservedWords ≤ first ∧
        first + environment.sizes.of ty ≤ environment.frame.size := by
  have hScratch : environment.frame.parameterWords + reservedWords ≤
      environment.frame.scratchOffset :=
    Nat.le_add_right _ _
  cases hValue with
  | scratch room => exact .inr ⟨hScratch, Nat.add_le_add_left room _⟩
  | @«variable» id first region declared own placed declaration =>
      have hWords : Slots.variableWords environment.program environment.sizes id =
          environment.sizes.of declared.ty := by simp [Slots.variableWords, declaration]
      obtain ⟨hParameters, hLocals⟩ := h.placed
      rw [← h.frame_eq] at hParameters hLocals
      rcases List.mem_append.mp own with hId | hId
      · obtain ⟨offset, hSlot, _, hHigh⟩ := hParameters.slot hId
        rw [placed] at hSlot
        cases hSlot
        exact .inl (hWords ▸ hHigh)
      · obtain ⟨offset, hSlot, hLow, hHigh⟩ := hLocals.slot hId
        rw [placed] at hSlot
        cases hSlot
        exact .inr ⟨hLow, Nat.le_trans (hWords ▸ hHigh) (Nat.le_add_right _ _)⟩

/-- Words in the range of a value are in the frame, and none of them is reserved. -/
theorem HasFrame.apart_of_inRange (h : HasFrame environment function)
    (hRange : InRange environment function first count) :
    first + count ≤ environment.frame.parameterWords ∨
      environment.frame.parameterWords + reservedWords ≤ first ∧
      first + count ≤ environment.frame.size := by
  obtain ⟨origin, ty, hValue, hLow, hHigh⟩ := hRange
  rcases h.apart hValue with hBefore | ⟨hBehind, hEnd⟩
  · exact .inl (Nat.le_trans hHigh hBefore)
  · exact .inr ⟨Nat.le_trans hBehind hLow, Nat.le_trans hHigh hEnd⟩

end Parts

/-! Functions -/

section Functions

variable {setting : Setting}

def FunctionPiece.environment (piece : FunctionPiece setting) : Environment :=
  { setting with frame := piece.frame }

/-- The code of a function with its frame. -/
structure FunctionPiece.KeepsFrame (piece : FunctionPiece setting) : Prop where
  /-- The parameters stand one behind the other at the beginning of the frame. -/
  parameters : setting.slots.Tiles (Slots.variableWords setting.program setting.sizes) .parameters
    piece.function.parameters 0 piece.frame.parameterWords
  /-- The locals stand one behind the other behind the reserved words. -/
  locals : setting.slots.Tiles (Slots.variableWords setting.program setting.sizes) .locals
    piece.function.locals (piece.frame.parameterWords + 2)
    (piece.frame.parameterWords + 2 + piece.frame.localWords)
  /-- The scratch words stand behind the locals, up to the end. -/
  size_eq : piece.frame.size =
    piece.frame.parameterWords + 2 + piece.frame.localWords + piece.frame.scratchWords
  /-- No offset in the frame takes more than 32 bits. -/
  size_lt : piece.frame.size < UInt32.size
  scratchOffset_eq : piece.frame.scratchOffset =
    piece.frame.parameterWords + 2 + piece.frame.localWords
  resultWords_eq : piece.frame.resultWords = setting.sizes.of piece.function.result
  code_eq : piece.code = enter piece.frame piece.function.name :: piece.inner
  statements : ∀ statement ∈ piece.inner,
    NamesOwn piece.environment piece.function statement.content
  accesses : FrameCode piece.environment piece.function
    (piece.function.IsTyped setting.program) none piece.inner
  /-- No value of the frame has a reserved word. -/
  apart : ∀ first count, InRange piece.environment piece.function first count →
    first + count ≤ piece.frame.parameterWords ∨
      piece.frame.parameterWords + 2 ≤ first ∧ first + count ≤ piece.frame.size

/-- The code of a function that mentions no variables in the frames of other
functions keeps to its frame, in a program that has no variable in two frames,
or twice in one. -/
theorem FunctionPiece.keepsFrame (piece : FunctionPiece setting)
    (hAllocated : Slots.Allocated setting.program setting.sizes setting.program.functions.toList
      setting.slots)
    (hSizes : setting.sizes = .ofStructs setting.program.structs)
    (hOwn : piece.function.KeepsToOwn setting.program)
    (hFunction : piece.function ∈ setting.program.functions)
    (hFrame : piece.frame = Slots.frameOf setting.program setting.sizes piece.function) :
    piece.KeepsFrame := by
  have hPlaced := hAllocated.placed _ (Array.mem_toList_iff.mpr hFunction)
  have hHas : HasFrame piece.environment piece.function := ⟨hPlaced, hFrame⟩
  have hOwns : OwnsFrame piece.environment piece.function := {
    sizes_eq := hSizes
    own := fun info id region first hUsed hSlot hRegion => by
      refine hOwn info id hUsed (hAllocated.own id region first hSlot ?_)
      cases region <;> first | rfl | cases hRegion }
  have hUses : UsesOf piece.environment piece.function (Stmt.blockParts piece.function.body) := {
    expressions := fun s hS e hE => .body hS hE
    locals := fun id hId => hId }
  have hBody : FrameCode piece.environment piece.function
      (piece.function.IsTyped setting.program) none
      piece.body := piece.generated.keepsFrame hOwns id hUses (by simp [Part.conditions])
  have hInner : FrameCode piece.environment piece.function
      (piece.function.IsTyped setting.program) none piece.inner := by
    refine .append hBody ?_
    split
    · exact .nil
    · exact .leave
  exact {
    parameters := hFrame ▸ hPlaced.parameters
    locals := by
      have hLocals := hPlaced.locals
      rwa [← hFrame] at hLocals
    size_eq := rfl
    size_lt := piece.fits
    scratchOffset_eq := rfl
    resultWords_eq := by rw [hFrame]; rfl
    code_eq := rfl
    statements := hInner.namesOwn
    accesses := hInner
    apart := fun first count hRange => hHas.apart_of_inRange hRange }

/-- Pieces in the order of the code are one for each function. -/
theorem functions_perm_of_pieces {entry : Nat} {pieces : List (FunctionPiece setting)}
    (hEntry : setting.program.functionNamed? entryName = some entry)
    (h : List.Forall₂ (fun id piece => setting.program.functions[id]? = some piece.function)
      (codeOrder setting.program entry) pieces) :
    (pieces.map FunctionPiece.function).Perm setting.program.functions.toList := by
  have hBound : entry < setting.program.functions.size :=
    (Array.findIdx?_eq_some_iff_getElem.mp hEntry).1
  have hOrder : (codeOrder setting.program entry).Perm
      (List.range setting.program.functions.size) := by
    refine (List.perm_ext_iff_of_nodup (nodup_codeOrder _ _) List.nodup_range).mpr fun id => ?_
    rw [List.mem_range]
    refine ⟨fun hMem => ?_, mem_codeOrder⟩
    rcases List.mem_cons.mp hMem with rfl | hMem
    · exact hBound
    · exact List.mem_range.mp (List.mem_filter.mp hMem).1
  have hFound : (codeOrder setting.program entry).map (fun id => setting.program.functions[id]?) =
      (pieces.map FunctionPiece.function).map some := by
    rw [← List.forall₂_eq_eq_eq, List.map_map, List.forall₂_map_left_iff,
      List.forall₂_map_right_iff]
    exact h
  have hRange : (List.range setting.program.functions.size).map (fun id =>
    setting.program.functions[id]?) =
      setting.program.functions.toList.map some := by
    refine List.ext_getElem (by simp) fun i hi hLength => ?_
    simp at hi
    simp [hi]
  refine (List.map_perm_map_iff (Option.some_injective _)).mp ?_
  rw [← hFound, ← hRange]
  exact hOrder.map _

/-- Code that is made for a program consists of one piece for each function, and
these keep to their frames, if no variable is in two frames or twice in one, and
functions mention no variables in the frames of others. -/
theorem keepsFrames_of_compileToAssembly {natives : NativeSource} {program : Program}
    {statements : Code} (h : compileToAssembly natives program = .ok statements)
    (hSetting : Setting.ofProgram natives program = .ok setting) (hOnce : program.frameIds.Nodup)
    (hOwn : ∀ function ∈ program.functions, function.KeepsToOwn program) :
    ∃ (data : Code) (pieces : List (FunctionPiece setting)),
      statements = data ++ (pieces.map FunctionPiece.code).flatten ∧
      (pieces.map FunctionPiece.function).Perm program.functions.toList ∧
      ∀ piece ∈ pieces, piece.KeepsFrame := by
  obtain ⟨found, hFound, hUnit⟩ := bind_eq_ok.mp h
  obtain rfl : found = setting := by
    rw [hSetting] at hFound
    cases hFound
    rfl
  obtain ⟨slots, hSlots, hRest⟩ := bind_eq_ok.mp hSetting
  have hAllocated := Slots.allocated_ofProgram hOnce hSlots
  cases hRest
  obtain ⟨unit, rfl⟩ := CompiledUnit.exists_of_unitOf hUnit
  obtain ⟨pieces, hCode, hPieces⟩ := unit.generated.exists_framedPieces
  refine ⟨unit.header ++ (unit.globals ++ (unit.statics ++ (unit.arguments ++
    (unit.natives ++ [.ofDirective (.segment .code)])))), pieces, ?_,
    functions_perm_of_pieces unit.named (hPieces.imp fun _ _ hPiece => hPiece.1),
    fun piece hPiece => ?_⟩
  · simp [CompiledUnit.statements, ← hCode]
  · obtain ⟨i, hi, rfl⟩ := List.getElem_of_mem hPiece
    obtain ⟨hFunction, hFrame, _⟩ := hPieces.get (hPieces.length_eq ▸ hi) hi
    have hMem := Array.mem_of_getElem? hFunction
    exact pieces[i].keepsFrame hAllocated rfl (hOwn _ hMem) hMem
      (hAllocated.eq_frameOf hFunction hFrame)

/-- A program whose function has a parameter, a counter, and a local inside of a
loop. -/
def filledInLoop : Program :=
  ⟨"p", none, none, #[], #[],
    #[⟨"n", .int, .placed .parameters, none⟩, ⟨"v", .vector, .placed .locals, none⟩,
      ⟨"i", .int, .placed .locals, none⟩],
    #[⟨"MAIN", [0], .void,
        [.declare 2, .countUp (.var ⟨.int, false, true⟩ 0) (.var ⟨.int, false, true⟩ 2)
          [.declare 1, .assign (.var ⟨.vector, false, true⟩ 1) none
            (.ofComponents (.ofFloat ⟨0⟩) (.ofFloat ⟨0⟩) (.var ⟨.int, false, true⟩ 2))]]⟩],
    #[]⟩

theorem isTyped_filledInLoop {function : Function} (h : function ∈ filledInLoop.functions) :
    function.IsTyped filledInLoop where
  places := by
    have hNone : ∀ declared ∈ filledInLoop.vars, declared.initializer = none := by
      simp [filledInLoop]
    -- no expression of the program is nested deeper than once
    have hUses : ∀ e, function.Uses filledInLoop e → e.NamesPlace filledInLoop ∧
        ∀ child ∈ e.children, child.children = [] ∧ child.NamesPlace filledInLoop := by
      rw [filledInLoop, List.mem_toArray, List.mem_singleton] at h
      subst h
      intro e hUsed
      induction hUsed with
      | body inside own =>
          simp only [Stmt.blockParts, Stmt.parts, List.append_nil,
            List.cons_append, List.nil_append, List.mem_cons, List.not_mem_nil, or_false] at inside
          rcases inside with rfl | rfl | rfl | rfl <;>
            simp only [Stmt.expressions, List.mem_cons, List.not_mem_nil, or_false] at own
          · subst own
            simp [filledInLoop, Expr.ofVariable, Expr.NamesPlace, Expr.children, Ty.target]
          · rcases own with rfl | rfl | rfl | rfl <;>
              simp [filledInLoop, Expr.NamesPlace, Expr.children, Ty.target,
                Expr.ofInt, Expr.combined]
          · subst own
            simp [filledInLoop, Expr.ofVariable, Expr.NamesPlace, Expr.children, Ty.target]
          · rcases own with rfl | rfl <;>
              simp [filledInLoop, Expr.NamesPlace, Expr.children, Ty.target, Expr.ofFloat,
                Expr.ofComponents]
      | part whole inside ih =>
          obtain ⟨hEnd, hPlace⟩ := ih.2 _ inside
          exact ⟨hPlace, by simp [hEnd]⟩
      | initializer own declaration initialized =>
          cases (hNone _ (Array.mem_of_getElem? declaration)).symm.trans initialized
      | constant mentioned declaration storage initialized ih =>
          cases (hNone _ (Array.mem_of_getElem? declaration)).symm.trans initialized
    exact fun e hUsed => (hUses e hUsed).1
  finite := fun id => ⟨id, fun inner ⟨struct, hStruct, _⟩ => by simp [filledInLoop] at hStruct⟩

theorem keepsFrames_of_compileToAssembly_filledInLoop :
    ∃ statements setting, compileToAssembly NativeDatabase.empty filledInLoop = .ok statements ∧
      Setting.ofProgram NativeDatabase.empty filledInLoop = .ok setting ∧
      filledInLoop.frameIds.Nodup ∧
      (∀ function ∈ filledInLoop.functions, function.KeepsToOwn filledInLoop) ∧
      (∀ function ∈ filledInLoop.functions, function.IsTyped filledInLoop) ∧
      ∃ (data : Code) (pieces : List (FunctionPiece setting)),
        statements = data ++ (pieces.map FunctionPiece.code).flatten ∧
        (pieces.map FunctionPiece.function).Perm filledInLoop.functions.toList ∧
        ∀ piece ∈ pieces, piece.KeepsFrame := by
  have hMade : (compileToAssembly NativeDatabase.empty filledInLoop).toOption.isSome = true := by
    decide +kernel
  have hOnce : filledInLoop.frameIds.Nodup := by decide
  have hOwn : ∀ function ∈ filledInLoop.functions, function.KeepsToOwn filledInLoop := by
    intro function hFunction info id _ hId
    rw [filledInLoop, List.mem_toArray, List.mem_singleton] at hFunction
    rw [hFunction]
    simpa [Program.frameIds, filledInLoop] using hId
  cases h : compileToAssembly NativeDatabase.empty filledInLoop with
  | error fault =>
      rw [h] at hMade
      cases hMade
  | ok statements =>
      obtain ⟨setting, hSetting, _⟩ := bind_eq_ok.mp h
      exact ⟨statements, setting, rfl, hSetting, hOnce, hOwn, fun _ => isTyped_filledInLoop,
        keepsFrames_of_compileToAssembly h hSetting hOnce hOwn⟩

/-- The declarations of a program with a local of its main function, a constant,
and two locals of another function. -/
def strayDeclarations : Program :=
  ⟨"p", none, none, #[], #[],
    #[⟨"x", .int, .placed .locals, none⟩, ⟨"K", .int, .constant, none⟩,
      ⟨"v", .vector, .placed .locals, none⟩, ⟨"y", .int, .placed .locals, none⟩], #[], #[]⟩

/-- A program whose main function mentions its own local and a constant alone,
both of which begin with the value of a local of the other function. -/
def strayInitializers : Program :=
  { strayDeclarations with
    vars := #[⟨"x", .int, .placed .locals, some (.ofVariable strayDeclarations 3)⟩,
      ⟨"K", .int, .constant, some (.ofVariable strayDeclarations 3)⟩,
      ⟨"v", .vector, .placed .locals, none⟩, ⟨"y", .int, .placed .locals, none⟩]
    functions := #[
      ⟨"MAIN", [], .void, [.declare 0,
        .assign (.ofVariable strayDeclarations 0) none (.ofVariable strayDeclarations 1),
        .ret none]⟩,
      ⟨"F", [], .void, [.declare 2, .declare 3, .ret none]⟩] }

/-- A program with two locals that take 2^31 words each, which a function
returns. -/
def wideFrame : Program :=
  ⟨"p", none, none, #[], #[],
    #[⟨"x", .array .int 0x7FFFFFFF, .placed .locals,
        some (.call ⟨.array .int 0x7FFFFFFF, false, false⟩ 1 [])⟩,
      ⟨"y", .array .int 0x7FFFFFFF, .placed .locals,
        some (.call ⟨.array .int 0x7FFFFFFF, false, false⟩ 1 [])⟩],
    #[⟨"MAIN", [], .void, [.declare 0, .declare 1, .ret none]⟩,
      ⟨"F", [], .array .int 0x7FFFFFFF, [.ret none]⟩], #[]⟩

/-- Initializers can take a function out of its frame though its body stays
within: in place of the local of the other function, a word that the frame does
not have is loaded. And 32 bits do not hold every frame. -/
theorem initializers_leave_frame :
    strayInitializers.frameIds.Nodup ∧
    strayInitializers.functions.toList.map Function.frameIds = [[0], [2, 3]] ∧
    (strayInitializers.functions.toList.map fun function =>
      (Stmt.blockParts function.body).flatMap (Stmt.expressions strayInitializers)) =
        [[0, 0, 1].map (Expr.ofVariable strayDeclarations),
          [2, 3].map (Expr.ofVariable strayDeclarations)] ∧
    (compileToAssembly NativeDatabase.empty strayInitializers).toOption = some [
      .ofDirective (.scriptName "p"), .ofDirective (.segment .code),
      { counted "ENTER" [0, 3] with label := some "MAIN" },
      commented "y" (counted "LOCAL_LOAD" [5]), commented "x" (counted "LOCAL_STORE" [2]),
      commented "y" (counted "LOCAL_LOAD" [5]), commented "x" (counted "LOCAL_STORE" [2]),
      counted "LEAVE" [0, 0],
      { counted "ENTER" [0, 6] with label := some "F" }, counted "LEAVE" [0, 0]] ∧
    (∀ setting frame function,
      Setting.ofProgram NativeDatabase.empty strayInitializers = .ok setting →
      setting.slots.frame 0 = .ok frame → strayInitializers.functions[0]? = some function →
      ∀ ty, ¬ FrameValue { setting with frame := frame } function 5 ty) ∧
    compileToAssembly NativeDatabase.empty wideFrame = .error (.unsupported .overflow) := by
  have hOnce : strayInitializers.frameIds.Nodup := by decide
  refine ⟨hOnce, rfl, rfl, by decide +kernel,
    fun setting frame function hSetting hFrame hFunction ty hValue => ?_, by decide +kernel⟩
  · obtain ⟨slots, hSlots, hRest⟩ := bind_eq_ok.mp hSetting
    have hAllocated := Slots.allocated_ofProgram hOnce hSlots
    cases hRest
    have hPlaced := hAllocated.placed _ (Array.mem_toList_iff.mpr (Array.mem_of_getElem? hFunction))
    have hEq := hAllocated.eq_frameOf hFunction hFrame
    have hApart := HasFrame.apart ⟨hPlaced, hEq⟩ hValue
    obtain rfl := Option.some.inj hFunction
    have hSize : frame.size = 3 := by rw [hEq]; rfl
    have hParameters : frame.parameterWords = 0 := by rw [hEq]; rfl
    dsimp only at hApart
    omega

end Functions
end ScriptBackend.Lowering
