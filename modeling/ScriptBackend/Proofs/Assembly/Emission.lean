import ScriptBackend.Assembly.Unit
import ScriptBackend.Proofs.Assembly.Encoding
import ScriptBackend.Proofs.Assembly.Layout
import ScriptBackend.Proofs.Assembly.Mnemonics
import ScriptBackend.Proofs.NativeTable

/-!
The emission of code that has been laid out. On an arrangement every check of
the emission passes, so what it does is to put the bytes of each primitive at
its address; the code comes out as long as the layout said, and is the bytes of
a chain of instructions.
-/
namespace ScriptBackend.Assembly

open Outcome

/-- The layout and the code disagree. -/
def Mismatch (cause : Cause) : Prop :=
  ∃ place address, cause = .layoutMismatch place address

/-- A cause that no instruction has by itself: the layout and the code disagree,
or something is defined twice. -/
def Foreign : Cause → Prop
  | .layoutMismatch .. | .duplicateLabel _ | .duplicateNative _ => True
  | _ => False

namespace Environment

variable (environment : Environment) (line : Line) (operand : Operand)

theorem intOperand_never (symbols : Symbols) : Never Foreign (symbols.intOperand line operand) := by
  unfold Symbols.intOperand
  repeat' split
  all_goals simp [Foreign, Line.fault]

theorem codeLabel_never (name : String) : Never Foreign (environment.codeLabel line name) := by
  unfold codeLabel
  split <;> simp [Foreign, Line.fault]

theorem integer_never (codeLabels : Bool) :
    Never Foreign (environment.integer line operand codeLabels) := by
  refine (intOperand_never line operand environment.symbols).bind fun value => ?_
  cases value with
  | some value => exact Never.ok value
  | none =>
      dsimp only
      split
      · split
        · exact (environment.codeLabel_never line _).bind fun address => Never.ok _
        · simp [Foreign, Line.fault]
      · simp [Foreign, Line.fault]

theorem ranged_never (least : Int) (greatest : Nat) (codeLabels : Bool) (what : Quantity) :
    Never Foreign (environment.ranged line operand least greatest codeLabels what) := by
  refine (environment.integer_never line operand codeLabels).bind fun value => ?_
  split
  · simp [Foreign, Line.fault]
  · exact Never.ok value

theorem float_never (opcode : Opcode) : Never Foreign (environment.float line opcode operand) := by
  unfold float
  repeat' split
  all_goals simp [Foreign, Line.fault]

theorem distance_never (label : String) (target start : Nat) :
    Never Foreign (distance line label target start) := by
  unfold distance
  dsimp only
  split <;> simp [Foreign, Line.fault]

theorem native_never (opcode : Opcode) :
    Never Foreign (environment.native line opcode operand) := by
  unfold native
  dsimp only
  repeat' split
  all_goals simp [Foreign, Line.fault]

theorem nativeIndex_never (opcode : Opcode) (natives : NativeTable) :
    Never Foreign (environment.nativeIndex line opcode operand natives) := by
  refine (environment.native_never line operand opcode).bind fun found => ?_
  cases found with
  | inl index => exact Never.ok _
  | inr hash =>
      dsimp only
      split
      · exact Never.ok _
      · next fault _ h =>
          cases NativeTable.addOrGet_error h
          simp [Foreign, Line.fault, Cause.ofNativeTable]

theorem bytes_never (operands : List Operand) :
    Never Foreign (environment.bytes line operands) := by
  induction operands with
  | nil => exact Never.ok []
  | cons operand rest ih =>
      exact (environment.ranged_never line operand _ _ _ _).bind fun value =>
        ih.bind fun others => Never.ok _

theorem cases_never (opcode : Opcode) (entry : Nat) (operands : List Operand) :
    Never Foreign (environment.cases line opcode entry operands) := by
  induction operands generalizing entry with
  | nil => exact Never.ok []
  | cons operand rest ih =>
      cases operand with
      | case value label =>
          rw [Environment.cases]
          split
          · simp [Foreign, Line.fault, bind, Except.bind]
          · exact (environment.codeLabel_never line label).bind fun target =>
              (distance_never line label target _).bind fun jump =>
                (ih _).bind fun others => Never.ok _
      | _ => simp [Environment.cases, Foreign, Line.fault]

theorem frameName_never (primitive : Primitive) (options : Options) :
    Never Foreign (primitive.frameName line options) := by
  have hWanted : Never Foreign (primitive.wantedName line options) := by
    unfold Primitive.wantedName
    split <;> simp [Foreign, Line.fault]
  unfold Primitive.frameName
  split
  · next fault h =>
      rw [h] at hWanted
      simpa using hWanted
  · exact Never.ok none
  · split <;> simp [Foreign, Line.fault]

/-- A checked value in bytes. -/
theorem field_never (least : Int) (greatest : Nat) (codeLabels : Bool) (what : Quantity)
    (bytes : Int → List UInt8) :
    Never Foreign (do
      let value ← environment.ranged line operand least greatest codeLabels what
      return bytes value) :=
  (environment.ranged_never line operand _ _ _ _).bind fun _ => Never.ok _

theorem operandBytes_never (primitive : Primitive) (address : Nat) (natives : NativeTable) :
    Never Foreign (environment.operandBytes line primitive address natives) := by
  unfold operandBytes
  dsimp only
  split
  · exact Never.ok _
  · exact (environment.bytes_never line _).map _
  · exact (environment.bytes_never line _).map _
  · exact (environment.bytes_never line _).map _
  · exact (environment.field_never line _ _ _ _ _ _).map _
  · exact ((environment.float_never line _ _).bind fun _ => Never.ok _).map _
  · exact (environment.ranged_never line _ _ _ _ _).bind fun _ =>
      (environment.ranged_never line _ _ _ _ _).bind fun _ =>
        (environment.nativeIndex_never line _ _ _).bind fun _ => Never.ok _
  · exact ((environment.ranged_never line _ _ _ _ _).bind fun _ =>
      (environment.ranged_never line _ _ _ _ _).bind fun _ =>
        (frameName_never line _ _).bind fun _ => Never.ok _).map _
  · exact (environment.field_never line _ _ _ _ _ _).map _
  · exact (environment.field_never line _ _ _ _ _ _).map _
  · exact ((environment.codeLabel_never line _).bind fun _ => distance_never line _ _ _).map _
  · simp [Foreign, Line.fault]
  · exact (environment.field_never line _ _ _ _ _ _).map _
  · exact (environment.field_never line _ _ _ _ _ _).map _
  · exact ((environment.cases_never line _ _ _).bind fun _ => Never.ok _).map _
  · exact Never.ok _

end Environment

def Located.emit (environment : Environment) (image : CodeImage) (located : Located) :
    Except Fault CodeImage :=
  (environment.encode located.line located.primitive located.address image.natives).map
    fun (bytes, natives) => ⟨padTo image.code located.address ++ bytes, natives⟩

variable {environment : Environment} {line : Line} {start finish : Nat}

/-- A primitive that is emitted is put at its address, behind padding where the
layout has left a gap. -/
theorem Located.emit_ok {located : Located} {image next : CodeImage}
    (hSize : located.primitive.size located.line environment.options = .ok located.size)
    (hStart : image.code.size ≤ located.address)
    (h : located.emit environment image = .ok next) :
    ∃ bytes, environment.operandBytes located.line located.primitive located.address
        image.natives = .ok (bytes, next.natives) ∧
      next.code.toList = image.code.toList ++
        List.replicate (located.address - image.code.size) padding ++
          (Instruction.mk located.address located.primitive.opcode bytes).bytes ∧
      next.code.size = located.endAddress := by
  obtain ⟨⟨_, natives⟩, hEncode, rfl⟩ := map_eq_ok.mp h
  obtain ⟨⟨bytes, _⟩, hBytes, hPair⟩ := map_eq_ok.mp hEncode
  cases hPair
  obtain ⟨hLength, _⟩ := Environment.operandBytes_ok hSize hBytes
  have hList : (padTo image.code located.address ++
      (located.primitive.opcode.toByte :: bytes)).toList = image.code.toList ++
        List.replicate (located.address - image.code.size) padding ++
          (Instruction.mk located.address located.primitive.opcode bytes).bytes := by
    simp [padTo, Instruction.bytes]
  refine ⟨bytes, hBytes, hList, ?_⟩
  have hCount := congrArg List.length hList
  simp only [Instruction.bytes, Array.length_toList, List.length_append, List.length_replicate,
    List.length_cons] at hCount
  rw [hCount, Located.endAddress]
  omega

/-- The instructions of primitives in place, with the natives threaded through
them. -/
inductive Encodes (environment : Environment) :
    NativeTable → List Located → List Instruction → NativeTable → Prop where
  | nil (natives : NativeTable) : Encodes environment natives [] [] natives
  | cons {natives middle later : NativeTable} {located : Located} {rest : List Located}
      {bytes : List UInt8} {instructions : List Instruction}
      (first : environment.operandBytes located.line located.primitive located.address natives =
        .ok (bytes, middle))
      (others : Encodes environment middle rest instructions later) :
      Encodes environment natives (located :: rest)
        (⟨located.address, located.primitive.opcode, bytes⟩ :: instructions) later

/-- An instruction in place of a primitive: its address, opcode and size, and
operand values that are those which the operands of the primitive denote. -/
structure Carries (environment : Environment) (located : Located) (instruction : Instruction) :
    Prop where
  address : instruction.address = located.address
  opcode : instruction.opcode = located.primitive.opcode
  size : instruction.size = located.size
  values : ∃ values, instruction.operands? = some values ∧ Denotes environment located values

namespace Encodes

variable {natives later : NativeTable} {row : List Located} {instructions : List Instruction}

/-- Each instruction carries its primitive: same opcode and address, and the
bytes of its operands. -/
theorem carries (hRow : Contiguous environment.options start row finish)
    (h : Encodes environment natives row instructions later) :
    List.Forall₂ (Carries environment) row instructions := by
  induction h generalizing start with
  | nil => exact .nil
  | cons first others ih =>
      obtain ⟨hSize, _, hRest⟩ := hRow
      obtain ⟨hLength, hReads⟩ := Environment.operandBytes_ok hSize first
      exact .cons ⟨rfl, rfl, hLength, hReads⟩ (ih hRest)

/-- Bytes that were encoded are read back as operands of their opcode. -/
theorem readable (hRow : Contiguous environment.options start row finish)
    (h : Encodes environment natives row instructions later) :
    ∀ instruction ∈ instructions, ∃ values, instruction.operands? = some values := by
  have hAll := h.carries hRow
  clear h hRow
  induction hAll with
  | nil => simp
  | cons hFirst _ ih =>
      intro instruction hMem
      rcases List.mem_cons.mp hMem with rfl | hLater
      · obtain ⟨values, hValues, _⟩ := hFirst.values
        exact ⟨values, hValues⟩
      · exact ih instruction hLater

/-- With the padding between them, the instructions are a chain. -/
theorem chained (hRow : Contiguous environment.options start row finish)
    (h : Encodes environment natives row instructions later) :
    Instruction.Chained start (Instruction.padded start instructions) finish := by
  induction h generalizing start with
  | nil => exact hRow
  | cons first others ih =>
      obtain ⟨hSize, hAddress, hRest⟩ := hRow
      obtain ⟨hLength, _⟩ := Environment.operandBytes_ok hSize first
      have hPlace := hAddress ▸ Page.le_place start _
      refine (Instruction.chained_nops start _).append ⟨?_, ?_⟩
      · exact (Nat.add_sub_of_le hPlace).symm
      · rw [Instruction.endAddress_mk hLength]
        exact ih hRest

end Encodes

/-- Emission of primitives in place leaves their bytes behind those that are
there. -/
theorem emit_ok {row : List Located} {image final : CodeImage}
    (hRow : Contiguous environment.options image.code.size row finish)
    (h : row.foldlM (Located.emit environment) image = .ok final) :
    final.code.size = finish ∧
      ∃ instructions, Encodes environment image.natives row instructions final.natives ∧
        final.code.toList = image.code.toList ++
          (Instruction.padded image.code.size instructions).flatMap Instruction.bytes := by
  induction row generalizing image with
  | nil =>
      cases h
      exact ⟨hRow, [], .nil _, by simp⟩
  | cons located rest ih =>
      obtain ⟨hSize, hAddress, hRest⟩ := hRow
      have hPlace := hAddress ▸ Page.le_place image.code.size located.size
      obtain ⟨next, hNext, hFinal⟩ := bind_eq_ok.mp h
      obtain ⟨bytes, hBytes, hCode, hEnd⟩ := Located.emit_ok hSize hPlace hNext
      rw [← hEnd] at hRest
      obtain ⟨hFinish, instructions, hEncodes, hOthers⟩ := ih hRest hFinal
      refine ⟨hFinish, _, .cons hBytes hEncodes, ?_⟩
      have hLength := (Environment.operandBytes_ok hSize hBytes).1
      rw [Instruction.padded_cons, Instruction.endAddress_mk hLength, List.flatMap_append,
        List.flatMap_cons, Instruction.flatMap_bytes_nops, hOthers, hCode, hEnd]
      simp only [List.append_assoc]
      rfl

/-- Primitives are encoded in one way. -/
theorem Encodes.unique {natives later final : NativeTable} {row : List Located}
    {instructions others : List Instruction}
    (h : Encodes environment natives row instructions later)
    (hOther : Encodes environment natives row others final) :
    instructions = others ∧ later = final := by
  induction h generalizing others final with
  | nil =>
      cases hOther
      exact ⟨rfl, rfl⟩
  | cons first _ ih =>
      cases hOther with
      | cons second rest =>
          cases first.symm.trans second
          obtain ⟨rfl, rfl⟩ := ih rest
          exact ⟨rfl, rfl⟩

/-- Primitives in place that can be encoded are emitted: their instructions
stand behind what was there, with the padding between them. -/
theorem Encodes.emit {natives later : NativeTable} {row : List Located}
    {instructions : List Instruction}
    {image : CodeImage} (hRow : Contiguous environment.options image.code.size row finish)
    (h : Encodes environment natives row instructions later) (hNatives : image.natives = natives) :
    ∃ final, row.foldlM (Located.emit environment) image = .ok final ∧ final.natives = later ∧
      final.code.toList = image.code.toList ++
        (Instruction.padded image.code.size instructions).flatMap Instruction.bytes := by
  have hEmits : ∃ final, row.foldlM (Located.emit environment) image = .ok final := by
    induction h generalizing image with
    | nil => exact ⟨image, rfl⟩
    | @cons natives middle later located rest bytes instructions first others ih =>
        subst hNatives
        obtain ⟨hSize, hAddress, hRest⟩ := hRow
        have hPlace := hAddress ▸ Page.le_place image.code.size located.size
        have hNext : located.emit environment image =
            .ok ⟨padTo image.code located.address ++
              located.primitive.opcode.toByte :: bytes, middle⟩ :=
          map_eq_ok.mpr ⟨_, map_eq_ok.mpr ⟨_, first, rfl⟩, rfl⟩
        obtain ⟨_, _, _, hEnd⟩ := Located.emit_ok hSize hPlace hNext
        rw [← hEnd] at hRest
        obtain ⟨final, hFinal⟩ := ih hRest rfl
        exact ⟨final, bind_eq_ok.mpr ⟨_, hNext, hFinal⟩⟩
  obtain ⟨final, hFinal⟩ := hEmits
  obtain ⟨_, others, hOthers, hCode⟩ := emit_ok hRow hFinal
  rw [hNatives] at hOthers
  obtain ⟨rfl, rfl⟩ := h.unique hOthers
  exact ⟨final, hFinal, rfl, hCode⟩

/-- The checks of the emission of a line pass on its row. -/
theorem addPrimitives_eq_foldlM {row : List Located} {expected : Option Nat} {image : CodeImage}
    (hRow : Contiguous environment.options image.code.size row finish)
    (hOwn : ∀ located ∈ row, located.line = line)
    (hExpected : ∀ address, expected = some address →
      row.head?.map Located.address = some address) :
    CodeImage.addPrimitives environment line expected (row.map Located.primitive) image =
      row.foldlM (Located.emit environment) image := by
  induction row generalizing image expected with
  | nil => rfl
  | cons located rest ih =>
      obtain ⟨hSize, hAddress, hRest⟩ := hRow
      obtain rfl := hOwn located (by simp)
      have hPlace := hAddress ▸ Page.le_place image.code.size located.size
      have hCheck : CodeImage.checkAddress located.line expected located.address = .ok () := by
        cases expected with
        | none => rfl
        | some address =>
            have hFirst := hExpected address rfl
            simp only [List.head?_cons, Option.map_some, Option.some.injEq] at hFirst
            simp [CodeImage.checkAddress, hFirst]
      rw [List.foldlM_cons, List.map_cons, CodeImage.addPrimitives, hSize]
      cases hBytes : environment.operandBytes located.line located.primitive located.address
        image.natives with
      | error fault =>
          have hEncode : environment.encode located.line located.primitive located.address
              image.natives = .error fault := by
            rw [Environment.encode, hBytes]
            rfl
          simp only [bind, Except.bind, ← hAddress, hCheck, Located.emit, hEncode]
          rfl
      | ok encoded =>
          obtain ⟨bytes, natives⟩ := encoded
          have hEncode : environment.encode located.line located.primitive located.address
              image.natives = .ok (located.primitive.opcode.toByte :: bytes, natives) := by
            rw [Environment.encode, hBytes]
            rfl
          have hEmit : located.emit environment image =
              .ok ⟨padTo image.code located.address ++ (located.primitive.opcode.toByte :: bytes),
                natives⟩ := by
            rw [Located.emit, hEncode]
            rfl
          obtain ⟨_, _, _, hEnd⟩ := Located.emit_ok hSize hPlace hEmit
          rw [← hEnd] at hRest
          have hLength : (located.primitive.opcode.toByte :: bytes).length = located.size :=
            (Environment.operandBytes_ok hSize hBytes).1
          simp only [bind, Except.bind, ← hAddress, hCheck, hEncode, hEmit, if_pos hLength]
          exact ih hRest (fun other hOther => hOwn other (by simp [hOther])) (by simp)

/-- The checks of the emission pass on an arrangement whose addresses it is
given. -/
theorem addAll_eq_foldlM {strings : StringPages} {lines : List Line} {rows : List (List Located)}
    {image : CodeImage}
    (h : Arranged environment.symbols strings environment.options image.code.size lines rows
      finish) :
    CodeImage.addAll environment strings
        (lines.zip (rows.map fun row => row.head?.map Located.address)) image =
      rows.flatten.foldlM (Located.emit environment) image := by
  generalize hStart : image.code.size = start at h
  induction h generalizing image with
  | nil => rfl
  | @cons start middle finish line lines row rows primitives own places rest ih =>
      subst hStart
      have hLine : CodeImage.addLine environment strings line
          (row.head?.map Located.address) image = row.foldlM (Located.emit environment) image := by
        unfold Line.primitives at primitives
        unfold CodeImage.addLine
        cases hInstruction : line.instruction? with
        | none =>
            simp only [hInstruction, Except.ok.injEq] at primitives
            obtain rfl := List.map_eq_nil_iff.mp primitives.symm
            rfl
        | some said =>
            simp only [hInstruction] at primitives
            simp only [primitives]
            exact addPrimitives_eq_foldlM places own fun _ h => h
      rw [List.map_cons, List.zip_cons_cons, CodeImage.addAll, hLine, List.flatten_cons,
        List.foldlM_append]
      cases hRow : row.foldlM (Located.emit environment) image with
      | error fault => rfl
      | ok next =>
          exact ih (emit_ok places hRow).1

/-- The code of a unit that has been laid out is that of its primitives in
place: the layout leaves nothing to check and nothing to fill behind them. -/
theorem emitCode_eq_foldlM {strings : StringPages} {layout : Layout} {lines : List Line}
    {natives : NativeTable} {rows : List (List Located)}
    (h : Arranged environment.symbols strings environment.options 0 lines rows layout.codeLength)
    (hAddresses : layout.addresses.toList = rows.map fun row => row.head?.map Located.address) :
    emitCode environment strings layout lines natives =
      rows.flatten.foldlM (Located.emit environment) ⟨#[], natives⟩ := by
  rw [emitCode, hAddresses, addAll_eq_foldlM h]
  cases hEmit : rows.flatten.foldlM (Located.emit environment) ⟨#[], natives⟩ with
  | error fault => rfl
  | ok image =>
      have hSize := (emit_ok h.contiguous hEmit).1
      simp [hSize, padTo]

theorem foldlM_emit_never (located : List Located) (image : CodeImage) :
    Never Foreign (located.foldlM (Located.emit environment) image) := by
  induction located generalizing image with
  | nil => exact Never.ok image
  | cons first rest ih =>
      rw [List.foldlM_cons]
      exact (((environment.operandBytes_never _ _ _ _).map _).map _).bind ih

/-- Emission at the addresses of the layout meets no other address than the one
expected. -/
theorem emit_never (located : List Located) (image : CodeImage) :
    Never Mismatch (located.foldlM (Located.emit environment) image) :=
  (foldlM_emit_never located image).mono fun cause hCause => by
    obtain ⟨place, address, rfl⟩ := hCause
    trivial

/-- The instruction of a primitive in place. -/
theorem Encodes.exists_instruction {natives later : NativeTable} {row : List Located}
    {instructions : List Instruction} (hRow : Contiguous environment.options start row finish)
    (h : Encodes environment natives row instructions later) {located : Located}
    (hMem : located ∈ row) :
    ∃ instruction ∈ instructions, Carries environment located instruction := by
  have hAll := h.carries hRow
  clear h hRow
  induction hAll with
  | nil => cases hMem
  | cons hFirst _ ih =>
      rcases List.mem_cons.mp hMem with rfl | hLater
      · exact ⟨_, by simp, hFirst⟩
      · obtain ⟨instruction, hInstruction, hCarries⟩ := ih hLater
        exact ⟨instruction, by simp [hInstruction], hCarries⟩

/-- Emitted code has the opcode of each primitive at its address. -/
theorem getElem?_of_emit {row : List Located} {natives : NativeTable} {image : CodeImage}
    (hRow : Contiguous environment.options 0 row finish)
    (h : row.foldlM (Located.emit environment) ⟨#[], natives⟩ = .ok image) {located : Located}
    (hMem : located ∈ row) :
    image.code[located.address]? = some located.primitive.opcode.toByte := by
  obtain ⟨_, instructions, hEncodes, hCode⟩ := emit_ok hRow h
  obtain ⟨instruction, hInside, hCarries⟩ := hEncodes.exists_instruction hRow hMem
  have hByte := (hEncodes.chained hRow).getElem?_bytes (Instruction.mem_padded hInside)
  rw [← Array.getElem?_toList, hCode, ← hCarries.address, ← hCarries.opcode]
  exact hByte

/-! Code that is counted but not written -/

namespace Environment

/-- The end of the code and the natives behind primitives that are put one
behind the other. What they are encoded to is left out, so that long code can be
gone through without being written. -/
def countPrimitives (environment : Environment) (line : Line) :
    List Primitive → Nat → NativeTable → Except Fault (Nat × NativeTable)
  | [], codeEnd, natives => .ok (codeEnd, natives)
  | primitive :: rest, codeEnd, natives => do
    let size ← primitive.size line environment.options
    let address := Page.place codeEnd size
    let (_, natives) ← environment.operandBytes line primitive address natives
    environment.countPrimitives line rest (address + size) natives

def countAll (environment : Environment) (strings : StringPages) :
    List Line → Nat → NativeTable → Except Fault (Nat × NativeTable)
  | [], codeEnd, natives => .ok (codeEnd, natives)
  | line :: rest, codeEnd, natives => do
    let primitives ← line.primitives environment.symbols strings
    let (codeEnd, natives) ← environment.countPrimitives line primitives codeEnd natives
    environment.countAll strings rest codeEnd natives

end Environment

/-- Rows are encoded one behind the other, and the natives of the first are
there for the second. -/
theorem Encodes.append {natives middle later : NativeTable} {first second : List Located}
    {instructions others : List Instruction}
    (h : Encodes environment natives first instructions middle)
    (hNext : Encodes environment middle second others later) :
    Encodes environment natives (first ++ second) (instructions ++ others) later := by
  induction h with
  | nil => exact hNext
  | cons bytes _ ih => exact .cons bytes (ih hNext)

/-- Primitives that can be counted can be encoded in their places. -/
theorem Encodes.of_countPrimitives {natives later : NativeTable} {row : List Located} {last : Nat}
    (hRow : Contiguous environment.options start row finish)
    (hOwn : ∀ located ∈ row, located.line = line)
    (h : environment.countPrimitives line (row.map Located.primitive) start natives =
      .ok (last, later)) :
    last = finish ∧ ∃ instructions, Encodes environment natives row instructions later := by
  induction row generalizing start natives with
  | nil =>
      cases h
      exact ⟨hRow, [], .nil _⟩
  | cons located rest ih =>
      obtain ⟨hSize, hAddress, hRest⟩ := hRow
      obtain rfl := hOwn located (List.mem_cons_self ..)
      obtain ⟨size, hCounted, h⟩ := bind_eq_ok.mp h
      obtain rfl := Except.ok.inj (hSize.symm.trans hCounted)
      rw [← hAddress] at h
      obtain ⟨⟨bytes, middle⟩, hBytes, h⟩ := bind_eq_ok.mp h
      obtain ⟨hLast, instructions, hEncodes⟩ :=
        ih hRest (fun other hOther => hOwn other (List.mem_cons_of_mem _ hOther)) h
      exact ⟨hLast, _, .cons hBytes hEncodes⟩

/-- When the lines of a unit are counted through, their rows are encoded from
the first address to the last. -/
theorem Encodes.of_countAll {strings : StringPages} {lines : List Line} {rows : List (List Located)}
    {natives later : NativeTable} {last : Nat}
    (hRows : Arranged environment.symbols strings environment.options start lines rows finish)
    (h : environment.countAll strings lines start natives = .ok (last, later)) :
    last = finish ∧ ∃ instructions,
    Encodes environment natives rows.flatten instructions later := by
  induction hRows generalizing natives with
  | nil address =>
      cases h
      exact ⟨rfl, [], .nil _⟩
  | cons primitives own places rest ih =>
      obtain ⟨_, hPrimitives, h⟩ := bind_eq_ok.mp h
      obtain rfl := Except.ok.inj (primitives.symm.trans hPrimitives)
      obtain ⟨⟨middle, between⟩, hRow, h⟩ := bind_eq_ok.mp h
      obtain ⟨rfl, first, hFirst⟩ := Encodes.of_countPrimitives places own hRow
      obtain ⟨hLast, others, hOthers⟩ := ih h
      exact ⟨hLast, _, hFirst.append hOthers⟩

/-- Code that has been laid out and can be counted is emitted. -/
theorem exists_emitCode {source : NativeSource} {options : Options} {lines : List Line}
    {symbols : Symbols}
    {strings stored : StringPages} {layout : Layout} {natives later : NativeTable} {last : Nat}
    (h : layoutCode symbols options lines strings = (.ok layout, stored))
    (hCount : Environment.countAll ⟨symbols, layout.labels,
      source, options⟩ stored lines 0 natives = .ok (last, later)) :
    ∃ image, emitCode ⟨symbols, layout.labels, source, options⟩ stored layout lines natives =
      .ok image := by
  let environment : Environment := ⟨symbols, layout.labels, source, options⟩
  obtain ⟨rows, hRows, hAddresses, _, _⟩ := layoutCode_ok h
  have hArranged : Arranged environment.symbols stored environment.options 0 lines rows
      layout.codeLength :=
    hRows
  obtain ⟨_, instructions, hEncodes⟩ := Encodes.of_countAll hArranged hCount
  have hStart : Contiguous environment.options (CodeImage.mk #[] natives).code.size rows.flatten
      layout.codeLength := hRows.contiguous
  obtain ⟨image, hImage, _⟩ := hEncodes.emit hStart rfl
  exact ⟨image, (emitCode_eq_foldlM hArranged hAddresses).trans hImage⟩

/-- What the data and the layout of a unit come to, once every reference in the
data has been filled in and all of the code has been counted. A unit for which
this succeeds is assembled, and the bytes of its code need not be written out to
know it. -/
def measureUnit (source : NativeSource) (options : Options) (statements : List Statement) :
    Except Fault (DataUnit × Layout × StringPages) := do
  let lines := scopeLines statements
  let data ← collectData lines
  let (laidOut, strings) := layoutCode data.symbols options lines data.strings
  let layout ← laidOut
  if codeLimit < layout.codeLength then
    .error ⟨0, .capacity .codeSize layout.codeLength codeLimit⟩
  let _ ← resolveReferences layout.labels data.references data.image
  let _ ← Environment.countAll ⟨data.symbols, layout.labels,
    source, options⟩ strings lines 0 data.natives
  return (data, layout, strings)

/-- The passes of a unit that is measured. -/
theorem measureUnit_ok {source : NativeSource} {options : Options} {statements : List Statement}
    {data : DataUnit} {layout : Layout} {strings : StringPages}
    (h : measureUnit source options statements = .ok (data, layout, strings)) :
    collectData (scopeLines statements) = .ok data ∧
      layoutCode data.symbols options (scopeLines statements) data.strings = (.ok layout, strings) ∧
      layout.codeLength ≤ codeLimit ∧
      (∃ image, resolveReferences layout.labels data.references data.image = .ok image) ∧
      ∃ code, emitCode ⟨data.symbols, layout.labels, source, options⟩ strings layout
        (scopeLines statements) data.natives = .ok code := by
  obtain ⟨data, hData, h⟩ := bind_eq_ok.mp h
  cases hLayout : layoutCode data.symbols options (scopeLines statements) data.strings with
  | mk outcome strings =>
      rw [hLayout] at h
      obtain ⟨layout, rfl, hRest⟩ := bind_eq_ok.mp h
      dsimp only at hRest
      split at hRest
      · cases hRest
      · next hReach =>
          obtain ⟨image, hImage, hRest⟩ := bind_eq_ok.mp hRest
          obtain ⟨counted, hCount, hRest⟩ := bind_eq_ok.mp hRest
          cases hRest
          exact ⟨hData, hLayout, Nat.not_lt.mp hReach, ⟨image, hImage⟩,
            exists_emitCode hLayout hCount⟩

/-- Layout and emission agree. Whatever the natives and the literals of a unit
are, code that has been laid out is emitted without a mismatch or fails for
another reason; it is as long as the layout says, and exactly the lines with an
instruction have an address, at which their first opcode stands. -/
theorem emitCode_agrees_with_layout {source : NativeSource} {options : Options}
    {lines : List Line} {symbols : Symbols} {strings stored : StringPages} {layout : Layout}
    (natives : NativeTable)
    (h : layoutCode symbols options lines strings = (.ok layout, stored)) :
    (∀ fault, emitCode ⟨symbols, layout.labels, source, options⟩ stored layout lines natives =
        .error fault → ∀ place address, fault.cause ≠ .layoutMismatch place address) ∧
      ∀ image, emitCode ⟨symbols, layout.labels, source, options⟩ stored layout lines natives =
        .ok image →
        image.code.size = layout.codeLength ∧
          ∀ (i : Nat) (line : Line), lines[i]? = some line →
            match line.instruction? with
            | none => layout.addresses[i]? = some none
            | some (mnemonic, operands) => ∃ address first rest,
              layout.addresses[i]? = some (some address) ∧
                expand symbols stored line mnemonic operands = .ok (first :: rest) ∧
                image.code[address]? = some first.opcode.toByte := by
  obtain ⟨rows, hRows, hAddresses, _, _⟩ := layoutCode_ok h
  have hEmit : emitCode ⟨symbols, layout.labels, source, options⟩ stored layout lines natives = _ :=
    emitCode_eq_foldlM hRows hAddresses
  rw [hEmit]
  refine ⟨fun fault hFault place address hCause => ?_, fun image hImage => ?_⟩
  · exact emit_never _ _ fault hFault ⟨place, address, hCause⟩
  · have hPlaces := hRows.contiguous
    refine ⟨(emit_ok hPlaces hImage).1, fun i line hLine => ?_⟩
    obtain ⟨row, hRow, hCases⟩ := hRows.row_cases hLine
    have hAddress : layout.addresses[i]? = some (row.head?.map Located.address) := by
      rw [← Array.getElem?_toList, hAddresses, List.getElem?_map, hRow]
      rfl
    rw [hAddress]
    cases hInstruction : line.instruction? with
    | none =>
        simp only [hInstruction] at hCases
        rw [hCases]
        rfl
    | some said =>
        simp only [hInstruction] at hCases
        obtain ⟨first, rest, rfl, hExpand⟩ := hCases
        have hMem : first ∈ rows.flatten :=
          List.mem_flatten.mpr ⟨first :: rest, List.mem_of_getElem? hRow, by simp⟩
        exact ⟨first.address, first.primitive, rest.map Located.primitive, rfl, hExpand,
          getElem?_of_emit hPlaces hImage hMem⟩

/-- A branch over 255 values, which is the longest primitive there is: 1532
bytes. -/
def wideBranch : Statement :=
  .ofInstruction "SWITCH" ((List.range 255).map fun value => .case (Int64.ofNat value) "done")

/-- A unit with more than one page of code: a frame with a name, operands of
most formats, and branches that fill the first page until one of them is moved
to the second. -/
def pagedUnit : List Statement := [
  .ofDirective (.segment .statics),
  { Statement.ofDirective (.ints [.name "main", .int 7]) with label := some "values" },
  .ofDirective (.segment .code),
  { Statement.ofInstruction "ENTER" [.int 1, .int 300, .text "MAIN"] with label := some "main" },
  .ofInstruction "PUSH_CONST" [.int 200, .int (-5), .int 70000, .float ⟨0x3F000000⟩, .name "done"],
  .ofInstruction "PUSH_STRING" [.text "hello"],
  .ofInstruction "STATIC_LOAD" [.name "values"],
  .ofInstruction "NATIVE" [.int 2, .int 1, .int 0x1234],
  .ofInstruction "PUSH_CONST_U32" [.name "main"],
  .ofInstruction "CALL" [.name "main"],
  .ofInstruction "JZ" [.name "done"]] ++
  List.replicate 11 wideBranch ++ [
  .ofInstruction "J" [.name "main"],
  { Statement.ofInstruction "LEAVE" [.int 1, .int 0] with label := some "done" }]

/-- The unit is measured: the last of its branches begins the second page. -/
theorem measureUnit_paged :
    ∃ measured, measureUnit NativeDatabase.empty .default pagedUnit = .ok measured ∧
      measured.2.1.addresses[21]? = some (some Page.size) ∧ measured.2.1.codeLength = 17922 :=
  exists_of_any (by decide +kernel)

theorem emitCode_agrees_with_layout_paged :
    ∃ data layout stored image, collectData (scopeLines pagedUnit) = .ok data ∧
      layoutCode data.symbols .default (scopeLines pagedUnit) data.strings = (.ok layout, stored) ∧
      emitCode ⟨data.symbols, layout.labels, NativeDatabase.empty, .default⟩ stored layout
        (scopeLines pagedUnit) data.natives = .ok image ∧
      image.code.size = 17922 ∧ layout.addresses[21]? = some (some Page.size) := by
  obtain ⟨⟨data, layout, stored⟩, hMeasured, hMoved, hLength⟩ := measureUnit_paged
  obtain ⟨hData, hLayout, _, _, image, hImage⟩ := measureUnit_ok hMeasured
  obtain ⟨hSize, _⟩ := (emitCode_agrees_with_layout data.natives hLayout).2 image hImage
  exact ⟨data, layout, stored, image, hData, hLayout, hImage, hSize.trans hLength, hMoved⟩

end ScriptBackend.Assembly
