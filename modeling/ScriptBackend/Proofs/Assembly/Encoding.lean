import Mathlib.Data.List.Forall2
import ScriptBackend.Assembly.CodeImage
import ScriptBackend.Proofs.Assembly.Placement
import ScriptBackend.Proofs.Bytes
import ScriptBackend.Proofs.Instruction.Decoding
import ScriptBackend.Proofs.Text.Utf8

/-!
The encoding of one primitive. Its bytes are as many as the layout counts, and
reading them gives the values that the operands denote: every range that is
checked before a value is cut to its field is the range of that field.
-/
namespace ScriptBackend

namespace Assembly

open Outcome

/-- The name in a frame instruction is the one asked for. An empty name is none,
and a name with a zero character inside would end there. -/
def NameRead (wanted name : Option String) : Prop :=
  (wanted.getD "" = "" → name = none) ∧
    ∀ text, wanted = some text → text ≠ "" → '\x00' ∉ text.toList → name = some text

/-- The entries of a branch are those of its operands. `entry` is where the
first of them begins; a distance counts from the end of its own entry. -/
def CasesDenote (environment : Environment) (line : Line) :
    Nat → List Operand → List (UInt32 × Int) → Prop
  | _, [], [] => True
  | entry, .case value label :: operands, (found, distance) :: cases =>
    (found.toNat : Int) = value.toInt % 0x100000000 ∧
      (∃ target, environment.codeLabel line label = .ok target ∧
        distance = (target : Int) - (entry + 6 : Nat)) ∧
      CasesDenote environment line (entry + 6) operands cases
  | _, _, _ => False

/-- The entry of a branch at a position is that of the operand there. -/
theorem CasesDenote.entry {environment : Environment} {line : Line} {entry : Nat}
    {operands : List Operand} {cases : List (UInt32 × Int)}
    (h : CasesDenote environment line entry operands cases) {k : Nat} {value : Int64}
    {label : String} (hOperand : operands[k]? = some (.case value label)) :
    ∃ found distance target, cases[k]? = some (found, distance) ∧
      (found.toNat : Int) = value.toInt % 0x100000000 ∧
      environment.codeLabel line label = .ok target ∧
      distance = (target : Int) - (entry + 6 * (k + 1) : Nat) := by
  induction operands generalizing entry cases k with
  | nil => simp at hOperand
  | cons operand rest ih =>
      cases cases with
      | nil => cases operand <;> exact h.elim
      | cons found others =>
          cases operand with
          | case first name =>
              obtain ⟨hValue, ⟨target, hTarget, hDistance⟩, hRest⟩ := h
              cases k with
              | zero =>
                  cases hOperand
                  exact ⟨_, _, target, rfl, hValue, hTarget, hDistance⟩
              | succ k =>
                  obtain ⟨later, distance, reached, hEntry, hLater, hReached, hEnd⟩ :=
                    ih hRest hOperand
                  refine ⟨later, distance, reached, hEntry, hLater, hReached, ?_⟩
                  rw [hEnd]
                  omega
          | _ => exact h.elim

/-- The values read from the bytes of a primitive are those that its operands
denote. -/
def Denotes (environment : Environment) (located : Located) : OperandValues → Prop
  | .none => located.primitive.operands = []
  | .bytes values =>
    List.Forall₂ (fun operand (value : UInt8) =>
      environment.integer located.line operand false = .ok (value.toNat : Int))
      located.primitive.operands values
  | .word value => ∃ operand n, located.primitive.operands = [operand] ∧
    environment.integer located.line operand true = .ok n ∧
    (value.toNat : Int) = n % 0x100000000
  | .float value => ∃ operand, located.primitive.operands = [operand] ∧
    environment.float located.line located.primitive.opcode operand = .ok value
  | .native arguments returns _ => ∃ first second native,
    located.primitive.operands = [first, second, native] ∧
    environment.integer located.line first false = .ok (arguments : Int) ∧
    environment.integer located.line second false = .ok (returns : Int)
  | .enter parameters frame name => ∃ first second rest wanted,
    located.primitive.operands = first :: second :: rest ∧
    environment.integer located.line first false = .ok (parameters : Int) ∧
    environment.integer located.line second false = .ok (frame : Int) ∧
    located.primitive.wantedName located.line environment.options = .ok wanted ∧
    NameRead wanted name
  | .signed16 value => ∃ operand, located.primitive.operands = [operand] ∧
    environment.integer located.line operand false = .ok value
  | .unsigned16 value => ∃ operand, located.primitive.operands = [operand] ∧
    environment.integer located.line operand false = .ok (value : Int)
  | .relative distance => ∃ label target, located.primitive.operands = [.name label] ∧
    environment.codeLabel located.line label = .ok target ∧
    distance = (target : Int) - (located.address + 3 : Nat)
  | .call value | .unsigned24 value => ∃ operand, located.primitive.operands = [operand] ∧
    environment.integer located.line operand true = .ok (value : Int)
  | .switch cases =>
    CasesDenote environment located.line (located.address + 2) located.primitive.operands cases

/-- The operand bytes of a primitive can be read, and give what its operands
denote. -/
def Reads (environment : Environment) (located : Located) (bytes : List UInt8) : Prop :=
  ∃ values, OperandValues.read? located.primitive.opcode.format bytes = some values ∧
    Denotes environment located values

namespace Environment

variable {environment : Environment} {line : Line} {operand : Operand}

/-- A name that is in the label table and is no symbol denotes its address. -/
theorem integer_label {name : String} {address : Nat}
    (hSymbol : environment.symbols.contains (line.qualify name) = false)
    (hLabel : environment.labels.find? (line.qualify name) = some address) :
    environment.integer line (.name name) true = .ok (address : Int) := by
  simp only [integer, Symbols.intOperand, Symbols.value?_of_contains hSymbol, codeLabel, hLabel,
    bind, Except.bind]
  rfl

/-- A mention of a label of the code denotes its address. -/
theorem codeLabel_label {name : String} {address : Nat}
    (hLabel : environment.labels.find? (line.qualify name) = some address) :
    environment.codeLabel line name = .ok address := by
  rw [codeLabel, hLabel]

/-- An operand that passed its check lies within the range. -/
theorem ranged_ok {least : Int} {greatest : Nat} {codeLabels : Bool} {what : Quantity} {n : Int}
    (h : environment.ranged line operand least greatest codeLabels what = .ok n) :
    environment.integer line operand codeLabels = .ok n ∧ least ≤ n ∧ n ≤ greatest := by
  obtain ⟨value, hValue, h⟩ := bind_eq_ok.mp h
  split at h
  · cases h
  · next hRange =>
      cases h
      simp only [Bool.or_eq_true, decide_eq_true_eq, not_or, Int.not_lt] at hRange
      exact ⟨hValue, hRange⟩

/-- Bytes in source are stored as they are, one for each operand. -/
theorem bytes_ok {operands : List Operand} {bytes : List UInt8}
    (h : environment.bytes line operands = .ok bytes) :
    List.Forall₂ (fun operand (value : UInt8) =>
      environment.integer line operand false = .ok (value.toNat : Int)) operands bytes := by
  induction operands generalizing bytes with
  | nil =>
      cases h
      exact .nil
  | cons operand rest ih =>
      obtain ⟨n, hRanged, h⟩ := bind_eq_ok.mp h
      obtain ⟨others, hOthers, h⟩ := bind_eq_ok.mp h
      cases h
      obtain ⟨hInteger, hLower, hUpper⟩ := ranged_ok hRanged
      refine .cons ?_ (ih hOthers)
      rw [hInteger, UInt8.toNat_ofNat', Nat.mod_eq_of_lt (by omega), Int.toNat_of_nonneg hLower]

/-- A checked value that fits its bytes is read back from them. -/
theorem unsigned_ok {count greatest : Nat} {codeLabels : Bool} {what : Quantity} {n : Int}
    (h : environment.ranged line operand 0 greatest codeLabels what = .ok n)
    (hFits : greatest < 256 ^ count) :
    environment.integer line operand codeLabels =
      .ok (Bytes.ofLittle (Bytes.littleInt count n) : Int) := by
  obtain ⟨hInteger, hLower, hUpper⟩ := ranged_ok h
  rw [hInteger, Bytes.ofLittle_littleInt_of_lt hLower]
  exact Int.lt_of_le_of_lt hUpper (by exact_mod_cast hFits)

/-- A distance is stored in two bytes and read back with its sign. -/
theorem distance_ok {label : String} {target start : Nat} {bytes : List UInt8}
    (h : distance line label target start = .ok bytes) :
    bytes.length = 2 ∧
      Bytes.signed16 (Bytes.ofLittle bytes) = (target : Int) - start := by
  unfold distance at h
  dsimp only at h
  split at h
  · cases h
  · next hRange =>
      cases h
      simp only [Bool.or_eq_true, decide_eq_true_eq, not_or, Int.not_lt, Int.not_le] at hRange
      exact ⟨Bytes.length_littleInt _ _, Bytes.signed16_littleInt hRange.1 hRange.2⟩

/-- Cases are stored six bytes each, and each distance counts from behind its
own case. -/
theorem cases_ok {opcode : Opcode} {entry : Nat} {operands : List Operand} {bytes : List UInt8}
    (h : environment.cases line opcode entry operands = .ok bytes) :
    ∃ cases, OperandValues.readCases bytes = some cases ∧ cases.length = operands.length ∧
      CasesDenote environment line entry operands cases := by
  induction operands generalizing entry bytes with
  | nil =>
      cases h
      exact ⟨[], rfl, rfl, trivial⟩
  | cons operand rest ih =>
      cases operand with
      | case value label =>
          rw [Environment.cases] at h
          split at h
          · cases h
          · obtain ⟨target, hTarget, h⟩ := bind_eq_ok.mp h
            obtain ⟨jump, hJump, h⟩ := bind_eq_ok.mp h
            obtain ⟨others, hOthers, h⟩ := bind_eq_ok.mp h
            cases h
            obtain ⟨hLength, hDistance⟩ := distance_ok hJump
            obtain ⟨cases, hRead, hCount, hDenote⟩ := ih hOthers
            have hEntry := OperandValues.readCases_append others
              (Bytes.length_littleInt 4 value.toInt) hLength
            rw [hRead, Option.map_some] at hEntry
            refine ⟨_, hEntry, by simp [hCount], ?_, ⟨target, hTarget, hDistance⟩, hDenote⟩
            have hBytes := Bytes.ofLittle_littleInt 4 value.toInt
            norm_num at hBytes
            have hBound := Bytes.ofLittle_lt (Bytes.littleInt 4 value.toInt)
            rw [Bytes.length_littleInt] at hBound
            rw [UInt32.toNat_ofNat', Nat.mod_eq_of_lt (by omega), hBytes]
      | _ => cases h

end Environment

namespace Primitive

variable {primitive : Primitive} {line : Line} {options : Options} {size : Nat}

/-- A primitive of a fixed format has that format's number of operands and of
bytes. -/
theorem size_of_fixed {count : Nat} (h : primitive.size line options = .ok size)
    (hFormat : primitive.opcode.format.size? = some count) :
    size = count + 1 ∧ primitive.opcode.format.count? = some primitive.operands.length := by
  obtain ⟨_, hCheck, h⟩ := bind_eq_ok.mp h
  have hFixed : primitive.opcode.fixedSize? = some (count + 1) := by
    rw [Opcode.fixedSize?, hFormat, Option.map_some]
  rw [hFixed] at h
  cases h
  refine ⟨rfl, ?_⟩
  unfold checkCount at hCheck
  cases hKind : primitive.opcode.format <;> rw [hKind] at hFormat hCheck <;>
    simp_all [OperandFormat.size?, OperandFormat.count?]

theorem size_of_single {format : OperandFormat} {count : Nat}
    (h : primitive.size line options = .ok size) (hFormat : primitive.opcode.format = format)
    (hBytes : format.size? = some count) (hOperands : format.count? = some 1) :
    size = count + 1 ∧ ∃ operand, primitive.operands = [operand] := by
  subst hFormat
  obtain ⟨hSize, hCount⟩ := size_of_fixed h hBytes
  rw [hOperands, Option.some.injEq] at hCount
  exact ⟨hSize, List.length_eq_one_iff.mp hCount.symm⟩

/-- The size of a frame instruction depends on the stored name, in UTF-8. -/
theorem size_of_enter (h : primitive.size line options = .ok size)
    (hFormat : primitive.opcode.format = .enter) :
    ∃ name, primitive.frameName line options = .ok name ∧
      size = Opcode.enterSize ((name.map String.utf8ByteSize).getD 0) ∧
      (primitive.operands.length = 2 ∨ primitive.operands.length = 3) := by
  obtain ⟨_, hCheck, h⟩ := bind_eq_ok.mp h
  have hOpcode : primitive.opcode = .enter := Opcode.format_eq_enter_iff.mp hFormat
  have hFixed : primitive.opcode.fixedSize? = none := by
    rw [hOpcode]
    rfl
  rw [hFixed] at h
  simp only [hOpcode, if_true] at h
  obtain ⟨name, hName, h⟩ := bind_eq_ok.mp h
  cases h
  refine ⟨name, hName, rfl, ?_⟩
  unfold checkCount at hCheck
  rw [hFormat] at hCheck
  by_contra hCount
  simp [hCount] at hCheck

/-- The size of a branch depends on the number of its cases, of which there are
at most 255. -/
theorem size_of_switch (h : primitive.size line options = .ok size)
    (hFormat : primitive.opcode.format = .switch) :
    primitive.operands.length ≤ caseLimit ∧
      size = Opcode.switchSize primitive.operands.length := by
  obtain ⟨_, _, h⟩ := bind_eq_ok.mp h
  have hOpcode : primitive.opcode = .switch := Opcode.format_eq_switch_iff.mp hFormat
  have hFixed : primitive.opcode.fixedSize? = none := by
    rw [hOpcode]
    rfl
  rw [hFixed] at h
  simp only [hOpcode, reduceCtorEq, if_false] at h
  split at h
  · cases h
  · next hLimit =>
      cases h
      exact ⟨Nat.not_lt.mp hLimit, rfl⟩

theorem wantedName_of_frameName {name : Option String}
    (h : primitive.frameName line options = .ok name) :
    ∃ wanted, primitive.wantedName line options = .ok wanted ∧
      (name = none ∧ wanted.getD "" = "" ∨
        ∃ text, name = some text ∧ wanted = some text ∧ text ≠ "" ∧
          text.utf8ByteSize ≤ frameNameLimit) := by
  unfold frameName at h
  split at h
  · cases h
  · next hWanted =>
      cases h
      exact ⟨none, hWanted, .inl ⟨rfl, rfl⟩⟩
  · next text hWanted =>
      refine ⟨some text, hWanted, ?_⟩
      split at h
      · cases h
      · next hLimit =>
          cases h
          by_cases hEmpty : text = ""
          · exact .inl ⟨by simp [hEmpty], hEmpty⟩
          · exact .inr ⟨text, by simp [hEmpty], rfl, hEmpty, Nat.not_lt.mp hLimit⟩

/-- Every primitive fits on a page. -/
theorem size_le (h : primitive.size line options = .ok size) : size ≤ Page.size := by
  cases hBytes : primitive.opcode.format.size? with
  | some count =>
      obtain ⟨rfl, _⟩ := size_of_fixed h hBytes
      cases hFormat : primitive.opcode.format <;> rw [hFormat] at hBytes <;> cases hBytes <;> decide
  | none =>
      have hFormat : primitive.opcode.format = .enter ∨ primitive.opcode.format = .switch := by
        cases hFormat : primitive.opcode.format <;> simp_all [OperandFormat.size?]
      rcases hFormat with hEnter | hSwitch
      · obtain ⟨name, hName, rfl, _⟩ := size_of_enter h hEnter
        obtain ⟨_, _, ⟨rfl, _⟩ | ⟨text, rfl, _, _, hLimit⟩⟩ := wantedName_of_frameName hName
        · decide
        · unfold frameNameLimit at hLimit
          simp only [Option.map_some, Option.getD_some, Opcode.enterSize, Page.size]
          split <;> omega
      · obtain ⟨hLimit, rfl⟩ := size_of_switch h hSwitch
        unfold caseLimit at hLimit
        simp only [Opcode.switchSize, Page.size]
        omega

end Primitive

/-- The name bytes of a frame instruction are as many as its size counts, and
the name in them is read back. -/
theorem frameNameBytes_ok {primitive : Primitive} {line : Line} {options : Options}
    {name : Option String} (h : primitive.frameName line options = .ok name) :
    ∃ wanted stored, primitive.wantedName line options = .ok wanted ∧
      Environment.frameNameBytes name = UInt8.ofNat stored.length :: stored ∧
      stored.length < 256 ∧
      stored.length + 5 = Opcode.enterSize ((name.map String.utf8ByteSize).getD 0) ∧
      NameRead wanted (OperandValues.frameName stored) := by
  obtain ⟨wanted, hWanted, ⟨rfl, hEmpty⟩ | ⟨text, rfl, rfl, hText, hLimit⟩⟩ :=
    Primitive.wantedName_of_frameName h
  · refine ⟨wanted, [], hWanted, rfl, by decide, rfl, fun _ => rfl, ?_⟩
    rintro text rfl hText
    exact absurd hEmpty hText
  · have hLength : (Text.utf8 text ++ [0]).length = text.utf8ByteSize + 1 := by
      rw [List.length_append, Text.length_utf8, List.length_singleton]
    have hSize : text.utf8ByteSize ≠ 0 := by simpa using hText
    refine ⟨some text, Text.utf8 text ++ [0], hWanted, ?_, ?_, ?_, ?_, ?_⟩
    · rw [hLength, ← Text.length_utf8]
      rfl
    · rw [hLength]
      unfold frameNameLimit at hLimit
      omega
    · rw [hLength]
      simp only [Option.map_some, Option.getD_some, Opcode.enterSize, if_neg hSize]
      omega
    · intro hEmpty
      exact absurd hEmpty hText
    · rintro _ ⟨⟩ _ hZero
      have hTaken : (Text.utf8 text ++ [0]).takeWhile (· ≠ 0) = Text.utf8 text := by
        rw [List.takeWhile_append_of_pos]
        · simp
        · intro byte hByte
          exact decide_eq_true (fun h => Text.zero_notMem_utf8 hZero (h ▸ hByte))
      rw [OperandValues.frameName, if_neg (by simp), hTaken, Text.ofUtf8_utf8, String.ofList_toList]

namespace Environment

variable {environment : Environment} {located : Located} {natives later : NativeTable}
  {bytes : List UInt8}

section Formats

variable {line : Line} {opcode : Opcode} {operand first second third : Operand}
  {operands : List Operand} {address size : Nat}

theorem reads_bytes (h : environment.bytes line operands = .ok bytes) :
    bytes.length = operands.length ∧
      Denotes environment ⟨line, ⟨opcode, operands⟩, address, size⟩ (.bytes bytes) :=
  have hValues := bytes_ok h
  ⟨hValues.length_eq.symm, hValues⟩

/-- A word is read back as its low 32 bits, from whichever sign it was written
with. -/
theorem reads_word
    (h : (do
      let value ← environment.ranged line operand leastInt32 greatestUInt32 true .operand32
      return Bytes.littleInt 4 value) = .ok bytes) :
    bytes.length = 4 ∧ ∃ values, OperandValues.read? .word bytes = some values ∧
      Denotes environment ⟨line, ⟨opcode, [operand]⟩, address, size⟩ values := by
  obtain ⟨n, hRanged, h⟩ := bind_eq_ok.mp h
  cases h
  have hLength := Bytes.length_littleInt 4 n
  refine ⟨hLength, _, OperandValues.read?_word hLength, operand, n, rfl, (ranged_ok hRanged).1, ?_⟩
  have hBytes := Bytes.ofLittle_littleInt 4 n
  norm_num at hBytes
  have hBound := Bytes.ofLittle_lt (Bytes.littleInt 4 n)
  rw [hLength] at hBound
  rw [UInt32.toNat_ofNat', Nat.mod_eq_of_lt (by omega), hBytes]

theorem reads_float
    (h : (do
      let value ← environment.float line opcode operand
      return Bytes.little 4 value.bits.toNat) = .ok bytes) :
    bytes.length = 4 ∧ ∃ values, OperandValues.read? .float bytes = some values ∧
      Denotes environment ⟨line, ⟨opcode, [operand]⟩, address, size⟩ values := by
  obtain ⟨value, hValue, h⟩ := bind_eq_ok.mp h
  cases h
  have hLength := Bytes.length_little 4 value.bits.toNat
  refine ⟨hLength, _, OperandValues.read?_float hLength, operand, rfl, ?_⟩
  have hBits := value.bits.toNat_lt
  rw [hValue, Bytes.ofLittle_little, Nat.mod_eq_of_lt (by omega), UInt32.ofNat_toNat]

/-- The counts and the index of a native share their bytes without overlap, and
are read back apart. -/
theorem reads_native {native : Operand}
    (h : (do
      let arguments ← environment.ranged line first 0 0x3F false .argumentCount
      let returns ← environment.ranged line second 0 0x3 false .returnCount
      let (index, natives) ← environment.nativeIndex line opcode native natives
      let counts := UInt8.ofNat (4 * arguments.toNat + returns.toNat)
      return ([counts, UInt8.ofNat (index / 256), UInt8.ofNat index], natives)) =
        .ok (bytes, later)) :
    bytes.length = 3 ∧ ∃ values, OperandValues.read? .native bytes = some values ∧
      Denotes environment ⟨line, ⟨opcode, [first, second, native]⟩, address, size⟩ values := by
  obtain ⟨arguments, hArguments, h⟩ := bind_eq_ok.mp h
  obtain ⟨returns, hReturns, h⟩ := bind_eq_ok.mp h
  obtain ⟨⟨index, _⟩, _, h⟩ := bind_eq_ok.mp h
  cases h
  obtain ⟨hFirst, hFirstLower, hFirstUpper⟩ := ranged_ok hArguments
  obtain ⟨hSecond, hSecondLower, hSecondUpper⟩ := ranged_ok hReturns
  have hCounts : (UInt8.ofNat (4 * arguments.toNat + returns.toNat)).toNat =
      4 * arguments.toNat + returns.toNat := by
    rw [UInt8.toNat_ofNat', Nat.mod_eq_of_lt (by omega)]
  refine ⟨rfl, _, rfl, first, second, native, rfl, ?_, ?_⟩
  · rw [hFirst, hCounts]
    congr 1
    omega
  · rw [hSecond, hCounts]
    congr 1
    omega

/-- A frame is read back with its parameters, its size and the name that was
stored. -/
theorem reads_enter {rest : List Operand} {name : Option String}
    (hName : Primitive.frameName ⟨opcode, first :: second :: rest⟩ line environment.options =
      .ok name)
    (h : (do
      let parameters ← environment.ranged line first 0 0xFF false .parameterCount
      let frame ← environment.ranged line second 0 0xFFFF false .frameSize
      let name ← Primitive.frameName ⟨opcode, first :: second :: rest⟩ line environment.options
      return UInt8.ofNat parameters.toNat :: (Bytes.littleInt 2 frame ++ frameNameBytes name)) =
        .ok bytes) :
    bytes.length + 1 = Opcode.enterSize ((name.map String.utf8ByteSize).getD 0) ∧
      ∃ values, OperandValues.read? .enter bytes = some values ∧
        Denotes environment ⟨line, ⟨opcode, first :: second :: rest⟩, address, size⟩ values := by
  obtain ⟨parameters, hParameters, h⟩ := bind_eq_ok.mp h
  obtain ⟨frame, hFrame, h⟩ := bind_eq_ok.mp h
  rw [hName] at h
  cases h
  obtain ⟨hFirst, hLower, hUpper⟩ := ranged_ok hParameters
  have hFrameLength := Bytes.length_littleInt 2 frame
  obtain ⟨wanted, stored, hWanted, hBytes, hByte, hStored, hRead⟩ := frameNameBytes_ok hName
  rw [hBytes]
  refine ⟨?_, _, OperandValues.read?_enter hFrameLength (Text.toNat_byte hByte).symm,
    first, second, rest, wanted, rfl, ?_, unsigned_ok hFrame (by decide), hWanted, hRead⟩
  · rw [List.length_cons, List.length_append, List.length_cons, hFrameLength]
    omega
  · rw [hFirst, Text.toNat_byte (by omega), Int.toNat_of_nonneg hLower]

theorem reads_signed16
    (h : (do
      let value ← environment.ranged line operand (-0x8000) 0x7FFF false .operand16
      return Bytes.littleInt 2 value) = .ok bytes) :
    bytes.length = 2 ∧ ∃ values, OperandValues.read? .signed16 bytes = some values ∧
      Denotes environment ⟨line, ⟨opcode, [operand]⟩, address, size⟩ values := by
  obtain ⟨n, hRanged, h⟩ := bind_eq_ok.mp h
  cases h
  obtain ⟨hInteger, hLower, hUpper⟩ := ranged_ok hRanged
  have hLength := Bytes.length_littleInt 2 n
  refine ⟨hLength, _, OperandValues.read?_signed16 hLength, operand, rfl, ?_⟩
  rw [hInteger, Bytes.signed16_littleInt hLower (by omega)]

theorem reads_unsigned16
    (h : (do
      let value ← environment.ranged line operand 0 0xFFFF false .operand16
      return Bytes.littleInt 2 value) = .ok bytes) :
    bytes.length = 2 ∧ ∃ values, OperandValues.read? .unsigned16 bytes = some values ∧
      Denotes environment ⟨line, ⟨opcode, [operand]⟩, address, size⟩ values := by
  obtain ⟨n, hRanged, h⟩ := bind_eq_ok.mp h
  cases h
  have hLength := Bytes.length_littleInt 2 n
  exact ⟨hLength, _, OperandValues.read?_unsigned16 hLength, operand, rfl,
    unsigned_ok hRanged (by decide)⟩

/-- A jump is read back as the distance from its end to the label. -/
theorem reads_relative {label : String}
    (h : (do
      let target ← environment.codeLabel line label
      distance line label target (address + 3)) = .ok bytes) :
    bytes.length = 2 ∧ ∃ values, OperandValues.read? .relative bytes = some values ∧
      Denotes environment ⟨line, ⟨opcode, [.name label]⟩, address, size⟩ values := by
  obtain ⟨target, hTarget, h⟩ := bind_eq_ok.mp h
  obtain ⟨hLength, hDistance⟩ := distance_ok h
  exact ⟨hLength, _, OperandValues.read?_relative hLength, label, target, rfl, hTarget, hDistance⟩

/-- The three bytes of an address or an immediate, whose reading is the same in
both formats. -/
theorem reads_unsigned24
    (h : (do
      let value ← environment.ranged line operand 0 0xFFFFFF true .operand24
      return Bytes.littleInt 3 value) = .ok bytes) :
    bytes.length = 3 ∧
      environment.integer line operand true = .ok (Bytes.ofLittle bytes : Int) := by
  obtain ⟨n, hRanged, h⟩ := bind_eq_ok.mp h
  cases h
  exact ⟨Bytes.length_littleInt 3 n, unsigned_ok hRanged (by decide)⟩

/-- A branch is read back as its cases in order, with the distances to their
labels. -/
theorem reads_switch (hCount : operands.length ≤ caseLimit)
    (h : (do
      let entries ← environment.cases line opcode (address + 2) operands
      return UInt8.ofNat operands.length :: entries) = .ok bytes) :
    bytes.length + 1 = Opcode.switchSize operands.length ∧
      ∃ values, OperandValues.read? .switch bytes = some values ∧
        Denotes environment ⟨line, ⟨opcode, operands⟩, address, size⟩ values := by
  obtain ⟨entries, hEntries, h⟩ := bind_eq_ok.mp h
  cases h
  obtain ⟨cases, hRead, hLength, hDenote⟩ := cases_ok hEntries
  unfold caseLimit at hCount
  refine ⟨?_, _, OperandValues.read?_switch hRead ?_, hDenote⟩
  · rw [List.length_cons, OperandValues.length_of_readCases hRead, hLength, Opcode.switchSize]
    omega
  · rw [hLength, Text.toNat_byte (by omega)]

end Formats

/-- The operand bytes of a primitive are as many as its size counts behind the
opcode, and they can be read back. -/
theorem operandBytes_ok
    (hSize : located.primitive.size located.line environment.options = .ok located.size)
    (h : environment.operandBytes located.line located.primitive located.address natives =
      .ok (bytes, later)) :
    bytes.length + 1 = located.size ∧ Reads environment located bytes := by
  obtain ⟨line, ⟨opcode, operands⟩, address, size⟩ := located
  dsimp only [Reads] at hSize ⊢
  unfold operandBytes at h
  cases hFormat : opcode.format with
  | none =>
      obtain ⟨rfl, hCount⟩ := Primitive.size_of_fixed hSize (by rw [hFormat]; rfl)
      simp only [hFormat] at h hCount
      cases h
      cases operands with
      | nil => exact ⟨rfl, .none, rfl, rfl⟩
      | cons operand rest => cases hCount
  | byte =>
      obtain ⟨rfl, hCount⟩ := Primitive.size_of_fixed hSize (by rw [hFormat]; rfl)
      simp only [hFormat, OperandFormat.count?, Option.some.injEq] at h hCount
      obtain ⟨_, hBytes, hPair⟩ := map_eq_ok.mp h
      cases hPair
      obtain ⟨hLength, hDenote⟩ := reads_bytes hBytes
      rw [← hCount] at hLength
      obtain ⟨a, rfl⟩ := List.length_eq_one_iff.mp hLength
      exact ⟨rfl, _, rfl, hDenote⟩
  | twoBytes =>
      obtain ⟨rfl, hCount⟩ := Primitive.size_of_fixed hSize (by rw [hFormat]; rfl)
      simp only [hFormat, OperandFormat.count?, Option.some.injEq] at h hCount
      obtain ⟨_, hBytes, hPair⟩ := map_eq_ok.mp h
      cases hPair
      obtain ⟨hLength, hDenote⟩ := reads_bytes hBytes
      rw [← hCount] at hLength
      obtain ⟨a, b, rfl⟩ := List.length_eq_two.mp hLength
      exact ⟨rfl, _, rfl, hDenote⟩
  | threeBytes =>
      obtain ⟨rfl, hCount⟩ := Primitive.size_of_fixed hSize (by rw [hFormat]; rfl)
      simp only [hFormat, OperandFormat.count?, Option.some.injEq] at h hCount
      obtain ⟨_, hBytes, hPair⟩ := map_eq_ok.mp h
      cases hPair
      obtain ⟨hLength, hDenote⟩ := reads_bytes hBytes
      rw [← hCount] at hLength
      obtain ⟨a, b, c, rfl⟩ := List.length_eq_three.mp hLength
      exact ⟨rfl, _, rfl, hDenote⟩
  | word =>
      obtain ⟨rfl, operand, rfl⟩ := Primitive.size_of_single hSize hFormat rfl rfl
      simp only [hFormat] at h
      obtain ⟨_, hBytes, hPair⟩ := map_eq_ok.mp h
      cases hPair
      obtain ⟨hLength, hReads⟩ := reads_word hBytes
      exact ⟨congrArg (· + 1) hLength, hReads⟩
  | float =>
      obtain ⟨rfl, operand, rfl⟩ := Primitive.size_of_single hSize hFormat rfl rfl
      simp only [hFormat] at h
      obtain ⟨_, hBytes, hPair⟩ := map_eq_ok.mp h
      cases hPair
      obtain ⟨hLength, hReads⟩ := reads_float hBytes
      exact ⟨congrArg (· + 1) hLength, hReads⟩
  | native =>
      obtain ⟨rfl, hCount⟩ := Primitive.size_of_fixed hSize (by rw [hFormat]; rfl)
      simp only [hFormat, OperandFormat.count?, Option.some.injEq] at hCount
      obtain ⟨first, second, native, rfl⟩ := List.length_eq_three.mp hCount.symm
      simp only [hFormat] at h
      obtain ⟨hLength, hReads⟩ := reads_native h
      exact ⟨congrArg (· + 1) hLength, hReads⟩
  | enter =>
      obtain ⟨name, hName, rfl, hCount⟩ := Primitive.size_of_enter hSize hFormat
      obtain ⟨first, second, rest, rfl⟩ : ∃ first second rest, operands = first :: second :: rest :=
        match operands, hCount with
        | first :: second :: rest, _ => ⟨first, second, rest, rfl⟩
      simp only [hFormat] at h
      obtain ⟨_, hBytes, hPair⟩ := map_eq_ok.mp h
      cases hPair
      exact reads_enter hName hBytes
  | signed16 =>
      obtain ⟨rfl, operand, rfl⟩ := Primitive.size_of_single hSize hFormat rfl rfl
      simp only [hFormat] at h
      obtain ⟨_, hBytes, hPair⟩ := map_eq_ok.mp h
      cases hPair
      obtain ⟨hLength, hReads⟩ := reads_signed16 hBytes
      exact ⟨congrArg (· + 1) hLength, hReads⟩
  | unsigned16 =>
      obtain ⟨rfl, operand, rfl⟩ := Primitive.size_of_single hSize hFormat rfl rfl
      simp only [hFormat] at h
      obtain ⟨_, hBytes, hPair⟩ := map_eq_ok.mp h
      cases hPair
      obtain ⟨hLength, hReads⟩ := reads_unsigned16 hBytes
      exact ⟨congrArg (· + 1) hLength, hReads⟩
  | relative =>
      obtain ⟨rfl, operand, rfl⟩ := Primitive.size_of_single hSize hFormat rfl rfl
      cases operand with
      | name label =>
          simp only [hFormat] at h
          obtain ⟨_, hBytes, hPair⟩ := map_eq_ok.mp h
          cases hPair
          obtain ⟨hLength, hReads⟩ := reads_relative hBytes
          exact ⟨congrArg (· + 1) hLength, hReads⟩
      | _ => simp [hFormat] at h
  | call =>
      obtain ⟨rfl, operand, rfl⟩ := Primitive.size_of_single hSize hFormat rfl rfl
      simp only [hFormat] at h
      obtain ⟨_, hBytes, hPair⟩ := map_eq_ok.mp h
      cases hPair
      obtain ⟨hLength, hInteger⟩ := reads_unsigned24 hBytes
      exact ⟨congrArg (· + 1) hLength, _, OperandValues.read?_call hLength, operand, rfl, hInteger⟩
  | unsigned24 =>
      obtain ⟨rfl, operand, rfl⟩ := Primitive.size_of_single hSize hFormat rfl rfl
      simp only [hFormat] at h
      obtain ⟨_, hBytes, hPair⟩ := map_eq_ok.mp h
      cases hPair
      obtain ⟨hLength, hInteger⟩ := reads_unsigned24 hBytes
      exact ⟨congrArg (· + 1) hLength, _, OperandValues.read?_unsigned24 hLength,
        operand, rfl, hInteger⟩
  | switch =>
      obtain ⟨hLimit, rfl⟩ := Primitive.size_of_switch hSize hFormat
      simp only [hFormat] at h
      obtain ⟨_, hBytes, hPair⟩ := map_eq_ok.mp h
      cases hPair
      exact reads_switch hLimit hBytes

end Environment

end Assembly
end ScriptBackend
