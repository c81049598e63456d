import Mathlib.Tactic.IntervalCases
import ScriptBackend.Proofs.Assembly.Limits
import ScriptBackend.Proofs.Assembly.Reencoding
import ScriptBackend.Proofs.Machine.Motions

/-!
The width of operands. A shorthand takes the narrowest form that holds the value
of its operand, or pushes the value in front of an instruction that pops it.
Whichever form that is, its bytes can be cut out of code again, and what they do
is the general operation with that value; a value that no form holds is the only
reason not to expand.
-/
namespace ScriptBackend.Assembly

open Outcome

/-- The numbers that some form of a rule holds. -/
def Rule.Holds : Rule → Int → Prop
  | .index .., number => 0 ≤ number ∧ number ≤ 0xFFFF
  | .globalId .., number => 0 ≤ number ∧ number ≤ 0xFFFFFF
  | _, number => leastInt32 ≤ number ∧ number ≤ greatestUInt32

/-- How many values a rule takes: pushes any number but none, all others one
number. -/
def Rule.Takes : Rule → List Value → Prop
  | .pushConstants, values => values ≠ []
  | .pushText, _ => False
  | _, values => ∃ number, values = [.int number]

/-- The values of operands. Only pushes take code labels, whose addresses have
24 bits. -/
inductive Environment.Means (environment : Environment) (line : Line) (rule : Rule) :
    Operand → Value → Prop where
  | integer {operand : Operand} {number : Int}
      (known : environment.symbols.intOperand line operand = .ok (some number)) :
      environment.Means line rule operand (.int number)
  | float (value : Binary32) : environment.Means line rule (.float value) (.float value)
  | constant {name : String} {value : Binary32}
      (known : environment.symbols.value? (line.qualify name) = some (.float value)) :
      environment.Means line rule (.name name) (.float value)
  | label {name : String} {address : Nat} (pushes : rule = .pushConstants)
      (unknown : environment.symbols.value? (line.qualify name) = none)
      (found : environment.labels.find? (line.qualify name) = some address)
        (near : address ≤ 0xFFFFFF) :
      environment.Means line rule (.name name) (.int address)

/-- A primitive that can be encoded, and whose bytes, wherever they lie and
whatever follows them, are an instruction with a motion. -/
def Environment.Performs (environment : Environment) (line : Line) (primitive : Primitive)
    (motion : Motion) : Prop :=
  ∃ size, primitive.size line environment.options = .ok size ∧ ∀ address natives rest,
    ∃ bytes instruction, environment.encode line primitive address natives = .ok (bytes, natives) ∧
      bytes.length = size ∧ Instruction.decodeFirst address (bytes ++ rest) = .ok instruction ∧
      instruction.motion? = some motion

/-- A fault because a number does not fit. -/
def FailsAtCapacity (line : Line) (result : Except Fault (List Primitive)) : Prop :=
  ∃ what number limit, result = .error (line.fault (.capacity what number limit))

/-- The instructions that push one integer, with the least and the greatest that
each can push. -/
def integerPushes : List (Opcode × Int × Int) := [
  (.pushConstM1, -1, -1), (.pushConst0, 0, 0), (.pushConst1, 1, 1), (.pushConst2, 2, 2),
  (.pushConst3, 3, 3),
  (.pushConst4, 4, 4), (.pushConst5, 5, 5), (.pushConst6, 6, 6), (.pushConst7, 7, 7),
  (.pushConstU8, 0, 0xFF),
  (.pushConstS16, -0x8000, 0x7FFF), (.pushConstU24, 0, 0xFFFFFF),
  (.pushConstU32, leastInt32, greatestUInt32)]

/-- An instruction that can push a number and is no longer than any other that
can. -/
def IsSmallestPush (opcode : Opcode) (number : Int) : Prop :=
  (∃ least greatest, (opcode, least, greatest) ∈ integerPushes ∧ least ≤ number ∧
    number ≤ greatest) ∧
    ∀ other least greatest, (other, least, greatest) ∈ integerPushes → least ≤ number →
      number ≤ greatest →
      ∃ size otherSize, opcode.fixedSize? = some size ∧
        other.fixedSize? = some otherSize ∧ size ≤ otherSize

/-! Encoding and decoding -/

section Performs

variable {environment : Environment} {line : Line} {opcode : Opcode}
  {number : Int} {motion : Motion}

/-- A primitive performs the motion that is read from its operand bytes. -/
theorem performs_of_read {operands : List Operand} {bytes : List UInt8}
    {values : OperandValues} {count : Nat}
    (hBytes : opcode.format.size? = some count)
    (hCount : opcode.format.count? = some operands.length) (hEncoded : ∀ address natives,
      environment.operandBytes line ⟨opcode, operands⟩ address natives = .ok (bytes, natives))
    (hRead : OperandValues.read? opcode.format bytes = some values)
    (hMotion : ∀ address, Instruction.motion? ⟨address, opcode, bytes⟩ = some motion) :
    environment.Performs line ⟨opcode, operands⟩ motion := by
  refine ⟨count + 1, Primitive.size_fixed hBytes hCount, fun address natives rest => ?_⟩
  let instruction : Instruction := ⟨address, opcode, bytes⟩
  have hOperands : instruction.operands? = some values := hRead
  have hDecoded := Instruction.decodeFirst_bytes hOperands rest
  refine ⟨instruction.bytes, instruction, ?_, ?_, hDecoded, hMotion address⟩
  · rw [Environment.encode, hEncoded]
    rfl
  · exact congrArg (· + 1) (OperandValues.length_of_read? hRead hBytes)

/-- An instruction without operands is decoded as itself and does what its
opcode does. -/
theorem performs_bare (hFormat : opcode.format = .none)
    (hMotion : opcode.bareMotion? = some motion) :
    environment.Performs line ⟨opcode, []⟩ motion := by
  have hRead : OperandValues.read? opcode.format [] = some .none := by rw [hFormat]; rfl
  refine performs_of_read (by rw [hFormat]; rfl) (by rw [hFormat]; rfl)
    (fun address natives => ?_) hRead fun address => ?_
  · simp only [Environment.operandBytes, hFormat]
  · rw [Instruction.motion?, Instruction.operands?, hRead]
    exact hMotion

/-- A number of one byte is decoded as it was encoded. -/
theorem performs_byte (hFormat : opcode.format = .byte) (hLow : 0 ≤ number) (hHigh : number ≤ 0xFF)
    (hMotion : opcode.numberedMotion? number = some motion) :
    environment.Performs line (.ofInt opcode number) motion := by
  have hByte : ((UInt8.ofNat number.toNat).toNat : Int) = number := by
    rw [UInt8.toNat_ofNat', Nat.mod_eq_of_lt (by omega), Int.toNat_of_nonneg hLow]
  have hRead : OperandValues.read? opcode.format [UInt8.ofNat number.toNat] =
      some (.bytes [UInt8.ofNat number.toNat]) := by rw [hFormat]; rfl
  have hEncoded : environment.bytes line _ = _ := Environment.bytes_ofInt [UInt8.ofNat number.toNat]
  rw [List.map_singleton, hByte] at hEncoded
  refine performs_of_read (by rw [hFormat]; rfl) (by rw [hFormat]; rfl)
    (fun address natives => ?_) hRead fun address => ?_
  · simp only [Environment.operandBytes, hFormat]
    exact congrArg (Except.map (·, natives)) hEncoded
  · rw [Instruction.motion?, Instruction.operands?, hRead, ← hMotion]
    dsimp only
    rw [OperandValues.number?, Option.bind_some, hByte]

/-- A number of 16 bits with a sign is decoded as it was encoded. -/
theorem performs_signed16 (hFormat : opcode.format = .signed16) (hLow : -0x8000 ≤ number)
    (hHigh : number ≤ 0x7FFF) (hMotion : opcode.numberedMotion? number = some motion) :
    environment.Performs line (.ofInt opcode number) motion := by
  have hRead : OperandValues.read? opcode.format (Bytes.littleInt 2 number) =
      some (.signed16 number) := by
    rw [hFormat, OperandValues.read?_signed16 (Bytes.length_littleInt 2 number),
      Bytes.signed16_littleInt hLow (by omega)]
  refine performs_of_read (by rw [hFormat]; rfl) (by rw [hFormat]; rfl)
    (fun address natives => ?_) hRead fun address => ?_
  · simp only [Environment.operandBytes, hFormat]
    exact map_eq_ok.mpr ⟨_, bind_eq_ok.mpr ⟨number, Environment.ranged_ofInt hLow hHigh, rfl⟩, rfl⟩
  · rw [Instruction.motion?, Instruction.operands?, hRead]
    exact hMotion

/-- A number of 16 bits without a sign is decoded as it was encoded. -/
theorem performs_unsigned16 (hFormat : opcode.format = .unsigned16) (hLow : 0 ≤ number)
    (hHigh : number ≤ 0xFFFF) (hMotion : opcode.numberedMotion? number = some motion) :
    environment.Performs line (.ofInt opcode number) motion := by
  have hRead := OperandValues.read?_unsigned16 (Bytes.length_littleInt 2 number)
  have hValue : (Bytes.ofLittle (Bytes.littleInt 2 number) : Int) = number :=
    Bytes.ofLittle_littleInt_of_lt hLow (by norm_num; omega)
  rw [← hFormat] at hRead
  refine performs_of_read (by rw [hFormat]; rfl) (by rw [hFormat]; rfl)
    (fun address natives => ?_) hRead fun address => ?_
  · simp only [Environment.operandBytes, hFormat]
    exact map_eq_ok.mpr ⟨_, bind_eq_ok.mpr ⟨number, Environment.ranged_ofInt hLow hHigh, rfl⟩, rfl⟩
  · rw [Instruction.motion?, Instruction.operands?, hRead, ← hMotion]
    dsimp only
    rw [OperandValues.number?, Option.bind_some, hValue]

/-- Three bytes hold what an operand is encoded as, be it a number or the
address of a label. -/
theorem performs_unsigned24 {operand : Operand} (hFormat : opcode.format = .unsigned24)
    (hOperand : environment.integer line operand true = .ok number) (hLow : 0 ≤ number)
    (hHigh : number ≤ 0xFFFFFF) (hMotion : opcode.numberedMotion? number = some motion) :
    environment.Performs line ⟨opcode, [operand]⟩ motion := by
  have hRead := OperandValues.read?_unsigned24 (Bytes.length_littleInt 3 number)
  have hValue : (Bytes.ofLittle (Bytes.littleInt 3 number) : Int) = number :=
    Bytes.ofLittle_littleInt_of_lt hLow (by norm_num; omega)
  rw [← hFormat] at hRead
  refine performs_of_read (by rw [hFormat]; rfl) (by rw [hFormat]; rfl)
    (fun address natives => ?_) hRead fun address => ?_
  · simp only [Environment.operandBytes, hFormat]
    exact map_eq_ok.mpr
      ⟨_, bind_eq_ok.mpr ⟨number, Environment.ranged_of_integer hOperand hLow hHigh, rfl⟩, rfl⟩
  · rw [Instruction.motion?, Instruction.operands?, hRead, ← hMotion]
    dsimp only
    rw [OperandValues.number?, Option.bind_some, hValue]

/-- Four bytes hold an integer modulo their width, which is what a push leaves
of it. -/
theorem performs_pushWord (hLow : leastInt32 ≤ number) (hHigh : number ≤ greatestUInt32) :
    environment.Performs line (.ofInt .pushConstU32 number) (.push [.ofInt number]) := by
  have hBound := Bytes.ofLittle_lt (Bytes.littleInt 4 number)
  have hValue := Bytes.ofLittle_littleInt 4 number
  rw [Bytes.length_littleInt] at hBound
  norm_num at hBound hValue
  have hWord : Word.ofInt (Bytes.ofLittle (Bytes.littleInt 4 number)) = .ofInt number := by
    rw [Word.ofInt, Word.ofInt, hValue, Int.emod_emod]
  refine performs_of_read rfl rfl (fun address natives => ?_)
    (OperandValues.read?_word (Bytes.length_littleInt 4 number)) fun address => ?_
  · exact map_eq_ok.mpr ⟨_, bind_eq_ok.mpr ⟨number, Environment.ranged_ofInt hLow hHigh, rfl⟩, rfl⟩
  · have hRead : Instruction.operands? ⟨address, .pushConstU32, Bytes.littleInt 4 number⟩ = _ :=
      OperandValues.read?_word (Bytes.length_littleInt 4 number)
    rw [Instruction.motion?, hRead]
    dsimp only
    rw [OperandValues.number?, Option.bind_some, Opcode.numberedMotion?, UInt32.toNat_ofNat',
      Nat.mod_eq_of_lt hBound, hWord]

/-- Every bit of a float is pushed. -/
theorem performs_pushFloat (value : Binary32) :
    environment.Performs line (Expansion.pushFloat value) (.push [.ofFloat value]) := by
  unfold Expansion.pushFloat
  split
  · next opcode hCompact =>
      have hAll : ∀ entry ∈ Opcode.compactFloats,
          entry.2.format = .none ∧ entry.2.constant? = some (.ofFloat entry.1) := by decide
      obtain ⟨⟨found, _⟩, hFound, rfl⟩ := Option.map_eq_some_iff.mp hCompact
      obtain ⟨hFormat, hConstant⟩ := hAll _ (List.mem_of_find?_eq_some hFound)
      obtain rfl : found = value := by simpa using List.find?_some hFound
      exact performs_bare hFormat (Opcode.bareMotion?_of_constant hConstant)
  · have hLength := Bytes.length_little 4 value.bits.toNat
    have hBits := value.bits.toNat_lt
    refine performs_of_read rfl rfl (fun address natives => rfl) (OperandValues.read?_float hLength)
      fun address => ?_
    have hRead : Instruction.operands? ⟨address, .pushConstF,
        Bytes.little 4 value.bits.toNat⟩ = _ :=
      OperandValues.read?_float hLength
    rw [Instruction.motion?, hRead, Bytes.ofLittle_little, Nat.mod_eq_of_lt (by omega),
      UInt32.ofNat_toNat]

end Performs

/-! The forms of shorthands -/

/-- An instruction without operands that has a motion. -/
def IsBare (opcode : Opcode) (motion : Motion) : Prop :=
  opcode.format = .none ∧ opcode.bareMotion? = some motion

/-- An instruction that does with every number what a shorthand does. -/
def Shorthand.Agrees (shorthand : Shorthand) (opcode : Opcode) : Prop :=
  ∀ number, opcode.numberedMotion? number = shorthand.numberedMotion? number

/-- Instructions that do behind the push of a number what a shorthand does with
the number. -/
def Shorthand.AgreesBehind (shorthand : Shorthand) (general : List Opcode) : Prop :=
  ∃ motions, List.Forall₂ IsBare general motions ∧ ∀ number motion bases cells,
    shorthand.numberedMotion? number = some motion →
      Motion.run? bases (.push [.ofInt number] :: motions) cells = motion.after? bases cells

/-- Forms whose fields are as wide as the rule takes them to be, and which all
do the same. -/
def Shorthand.HasForms (shorthand : Shorthand) : Prop :=
  match shorthand.rule with
  | .index narrow wide =>
      narrow.format = .byte ∧ wide.format = .unsigned16 ∧ shorthand.Agrees narrow ∧
      shorthand.Agrees wide ∧ ∀ number, ∃ motion, shorthand.numberedMotion? number = some motion
  | .globalId narrow wide =>
      narrow.format = .unsigned16 ∧ wide.format = .unsigned24 ∧ shorthand.Agrees narrow ∧
      shorthand.Agrees wide ∧ ∀ number, ∃ motion, shorthand.numberedMotion? number = some motion
  | .immediate narrow wide general =>
      narrow.format = .byte ∧ wide.format = .signed16 ∧ shorthand.Agrees narrow ∧
      shorthand.Agrees wide ∧ shorthand.AgreesBehind general ∧
      ∀ number, ∃ motion, shorthand.numberedMotion? number = some motion
  | _ => True

/-- A general form ends in the instructions that pop the number. -/
theorem agreesBehind_offset {mnemonic : String} {rule : Rule} {kind : Access}
    {general : List Opcode} {motions : List Motion}
    (hMotion : ∀ number, Shorthand.numberedMotion? ⟨mnemonic, rule⟩ number =
      some (.access (.behind (Int32.ofInt number)) kind))
    (hGeneral : List.Forall₂ IsBare general (.access .counted .locate :: motions))
    (hRest : ∀ location bases cells, Motion.run? bases (.access location .locate :: motions) cells =
      (Motion.access location kind).after? bases cells) :
    Shorthand.AgreesBehind ⟨mnemonic, rule⟩ general := by
  refine ⟨_, hGeneral, fun number motion bases cells hNumber => ?_⟩
  rw [hMotion] at hNumber
  cases hNumber
  rw [Motion.run?_push_counted, hRest]

theorem agreesBehind_operation {mnemonic : String} {rule : Rule} {opcode : Opcode}
    {operation : Int32 → Int32 → Int32}
    (hMotion : ∀ number, Shorthand.numberedMotion? ⟨mnemonic, rule⟩ number =
      some (.change fun left => operation left (Int32.ofInt number)))
    (hOpcode : IsBare opcode (.combine operation)) :
    Shorthand.AgreesBehind ⟨mnemonic, rule⟩ [opcode] := by
  refine ⟨[.combine operation], .cons hOpcode .nil, fun number motion bases cells hNumber => ?_⟩
  rw [hMotion] at hNumber
  cases hNumber
  exact Motion.run?_push_combine operation number

/-- Each shorthand has its forms in the table, and the forms do what the
shorthand says. -/
theorem hasForms {shorthand : Shorthand} (h : shorthand ∈ Shorthand.all) : shorthand.HasForms := by
  have hHeld {opcode : Opcode} {kind : Access} (hOpcode : IsBare opcode (.access .held kind)) :
      List.Forall₂ IsBare [.ioffset, opcode] [.access .counted .locate, .access .held kind] :=
    .cons ⟨rfl, rfl⟩ (.cons hOpcode .nil)
  have hLoad : IsBare .load (.access .held .load) := ⟨rfl, rfl⟩
  have hStore : IsBare .store (.access .held .store) := ⟨rfl, rfl⟩
  simp only [Shorthand.all, List.mem_cons, List.not_mem_nil, or_false] at h
  rcases h with rfl | rfl | rfl | rfl | rfl | rfl | rfl | rfl | rfl | rfl | rfl | rfl
    | rfl | rfl | rfl | rfl | rfl | rfl | rfl
  case inl | inr.inl => trivial
  all_goals first
    | exact ⟨rfl, rfl, fun _ => rfl, fun _ => rfl, fun _ => ⟨_, rfl⟩⟩
    | refine ⟨rfl, rfl, fun _ => rfl, fun _ => rfl, ?_, fun _ => ⟨_, rfl⟩⟩
  · exact agreesBehind_offset (fun _ => rfl) (.cons ⟨rfl, rfl⟩ .nil) fun location _ _ =>
      Motion.run?_single (.access location .locate)
  · exact agreesBehind_offset (fun _ => rfl) (hHeld hLoad) fun location _ _ =>
      Motion.run?_locate_held location .load
  · exact agreesBehind_offset (fun _ => rfl) (hHeld hStore) fun location _ _ =>
      Motion.run?_locate_held location .store
  · exact agreesBehind_operation (fun _ => rfl) ⟨rfl, rfl⟩
  · exact agreesBehind_operation (fun _ => rfl) ⟨rfl, rfl⟩

/-! The width of pushes -/

section Pushes

variable {environment : Environment} {expansion : Expansion} {number : Int}

theorem constant?_compactInt? {opcode : Opcode} (h : Opcode.compactInt? number = some opcode) :
    opcode.constant? = some (.ofInt number) ∧ (opcode, number, number) ∈ integerPushes := by
  unfold Opcode.compactInt? at h
  split at h
  all_goals
    cases h
    try exact ⟨rfl, by decide⟩

/-- The numbers without a push of their own. -/
theorem compactInt?_eq_none_iff : Opcode.compactInt? number = none ↔ number < -1 ∨ 7 < number := by
  constructor
  · intro h
    by_contra hRange
    obtain ⟨hLow, hHigh⟩ : -1 ≤ number ∧ number ≤ 7 := by omega
    interval_cases number <;> cases h
  · intro h
    unfold Opcode.compactInt?
    split <;> first | omega | rfl

/-- The pushes by their sizes. -/
theorem integerPush_cases : ∀ entry ∈ integerPushes,
    (entry.1.fixedSize? = some 1 ∧ -1 ≤ entry.2.1 ∧ entry.2.2 ≤ 7) ∨
    (entry.1.fixedSize? = some 2 ∧ 0 ≤ entry.2.1 ∧ entry.2.2 ≤ 0xFF) ∨
    (entry.1.fixedSize? = some 3 ∧ -0x8000 ≤ entry.2.1 ∧ entry.2.2 ≤ 0x7FFF) ∨
    (entry.1.fixedSize? = some 4 ∧ 0 ≤ entry.2.1 ∧ entry.2.2 ≤ 0xFFFFFF) ∨
    entry.1.fixedSize? = some 5 := by
  decide

/-- A push is a smallest one if the number lies outside of what the smaller ones
push. -/
theorem isSmallestPush {opcode : Opcode} {least greatest : Int} {size : Nat}
    (hPush : (opcode, least, greatest) ∈ integerPushes) (hLow : least ≤ number)
    (hHigh : number ≤ greatest)
    (hSize : opcode.fixedSize? = some size) (hOne : size ≤ 1 ∨ number < -1 ∨ 7 < number)
    (hTwo : size ≤ 2 ∨ number < 0 ∨ 0xFF < number)
    (hThree : size ≤ 3 ∨ number < -0x8000 ∨ 0x7FFF < number)
    (hFour : size ≤ 4 ∨ number < 0 ∨ 0xFFFFFF < number) (hFive : size ≤ 5) :
    IsSmallestPush opcode number := by
  refine ⟨⟨least, greatest, hPush, hLow, hHigh⟩, fun other low high hOther hAbove hBelow => ?_⟩
  have hCases := integerPush_cases _ hOther
  dsimp only at hCases
  rcases hCases with h | h | h | h | h
  · exact ⟨size, 1, hSize, h.1, by omega⟩
  · exact ⟨size, 2, hSize, h.1, by omega⟩
  · exact ⟨size, 3, hSize, h.1, by omega⟩
  · exact ⟨size, 4, hSize, h.1, by omega⟩
  · exact ⟨size, 5, hSize, h, hFive⟩

/-- The pushes of integers, from the smallest one to the one that takes every
word of 32 bits. -/
theorem mem_integerPushes :
    (.pushConstU8, 0, 0xFF) ∈ integerPushes ∧ (.pushConstS16, -0x8000, 0x7FFF) ∈ integerPushes ∧
    (.pushConstU24, 0, 0xFFFFFF) ∈ integerPushes ∧
    (.pushConstU32, leastInt32, ↑greatestUInt32) ∈ integerPushes := by
  decide

/-- The push of a number that a word holds is a smallest one, and leaves the
number. -/
theorem pushInt_ok (h : Rule.pushConstants.Holds number) :
    ∃ primitive, expansion.pushInt number = .ok primitive ∧
      (∀ environment : Environment, ∀ line, environment.Performs line primitive
        (.push [.ofInt number])) ∧
      IsSmallestPush primitive.opcode number := by
  obtain ⟨hLow, hHigh⟩ := h
  obtain ⟨hU8, hS16, hU24, hU32⟩ := mem_integerPushes
  unfold Expansion.pushInt
  split
  · next opcode hCompact =>
      obtain ⟨hConstant, hPush⟩ := constant?_compactInt? hCompact
      have hFormat := Expansion.format_compactInt? hCompact
      have hSize : opcode.fixedSize? = some 1 := by rw [Opcode.fixedSize?, hFormat]; rfl
      refine ⟨_, rfl, fun _ _ =>
        performs_bare hFormat (Opcode.bareMotion?_of_constant hConstant), ?_⟩
      exact isSmallestPush hPush (Int.le_refl _) (Int.le_refl _) hSize (.inl (by decide))
        (.inl (by decide)) (.inl (by decide)) (.inl (by decide)) (by decide)
  next hCompact =>
  have hOne := compactInt?_eq_none_iff.mp hCompact
  simp only [Bool.and_eq_true, decide_eq_true_eq]
  split
  · next hByte =>
      refine ⟨_, rfl, fun _ _ => performs_byte rfl hByte.1 hByte.2 rfl, ?_⟩
      exact isSmallestPush hU8 hByte.1 hByte.2 rfl (.inr hOne) (.inl (by decide)) (.inl (by decide))
        (.inl (by decide)) (by decide)
  split
  · next hByte hShort =>
      refine ⟨_, rfl, fun _ _ => performs_signed16 rfl hShort.1 hShort.2 rfl, ?_⟩
      exact isSmallestPush hS16 hShort.1 hShort.2 rfl (.inr hOne) (.inr (by omega))
        (.inl (by decide)) (.inl (by decide)) (by decide)
  split
  · next hByte hShort hLong =>
      have hValue : (Int64.ofInt number).toInt = number :=
        Int64.toInt_ofInt_of_le (by omega) (by omega)
      refine ⟨_, rfl, fun _ _ =>
        performs_unsigned24 rfl (congrArg Except.ok hValue) hLong.1 hLong.2 rfl, ?_⟩
      exact isSmallestPush hU24 hLong.1 hLong.2 rfl (.inr hOne) (.inr (by omega)) (.inr (by omega))
        (.inl (by decide)) (by decide)
  · next hByte hShort hLong =>
      have hWord : -0x80000000 ≤ number ∧ number < 0x100000000 := by
        unfold leastInt32 greatestUInt32 at *
        omega
      rw [if_pos hWord]
      refine ⟨_, rfl, fun _ _ => performs_pushWord hLow hHigh, ?_⟩
      exact isSmallestPush hU32 hLow hHigh rfl (.inr hOne) (.inr (by omega)) (.inr (by omega))
        (.inr (by omega)) (by decide)

/-- A number that no word holds cannot be pushed. -/
theorem pushInt_error (h : ¬Rule.pushConstants.Holds number) :
    expansion.pushInt number = expansion.fault (.capacity .integerConstant number 0xFFFFFFFF) := by
  have hOutside : ¬(-0x80000000 ≤ number ∧ number ≤ (0xFFFFFFFF : Nat)) := h
  have hNone : Opcode.compactInt? number = none := compactInt?_eq_none_iff.mpr (by omega)
  rw [Expansion.pushInt, hNone]
  simp only [Bool.and_eq_true, decide_eq_true_eq]
  rw [if_neg (by omega), if_neg (by omega), if_neg (by omega), if_neg (by omega)]

end Pushes

/-! The expansion of shorthands -/

section Expansions

variable {environment : Environment} {line : Line} {strings : StringPages} {mnemonic : String}
  {operand : Operand} {operands : List Operand} {values : List Value} {number : Int}

/-- Primitives that perform a motion one after the other. -/
def Environment.PerformAll (environment : Environment) (line : Line) (primitives : List Primitive)
    (motion : Motion) : Prop :=
  ∃ motions, List.Forall₂ (environment.Performs line) primitives motions ∧
    ∀ bases cells, Motion.run? bases motions cells = motion.after? bases cells

theorem performAll_single {primitive : Primitive} {motion : Motion}
    (h : environment.Performs line primitive motion) :
    environment.PerformAll line [primitive] motion :=
  ⟨[motion], .cons h .nil, fun _ _ => Motion.run?_single motion⟩

/-- A number that is known on a line is pushed as such. -/
theorem pushOperand_integer (h : environment.symbols.intOperand line operand = .ok (some number)) :
    Expansion.pushOperand ⟨line, mnemonic, environment.symbols, strings⟩ operand =
      Expansion.pushInt ⟨line, mnemonic, environment.symbols, strings⟩ number := by
  cases operand with
  | int value =>
      cases h
      rfl
  | name name =>
      unfold Symbols.intOperand at h
      dsimp only at h
      split at h
      · next value hValue =>
          cases h
          simp only [Expansion.pushOperand, hValue]
      · cases h
      · cases h
  | sizeOf name =>
      have hInteger : Expansion.integer ⟨line, mnemonic,
          environment.symbols, strings⟩ (.sizeOf name) = .ok number := by
        rw [Expansion.integer, h]
      rw [Expansion.pushOperand, hInteger]
      rfl
  | _ => cases h

/-- A push is one primitive, or the number is one that no word holds. -/
theorem pushOperand_ok {value : Value} (h : environment.Means line .pushConstants operand value)
    (hHolds : ∀ number, value = .int number → Rule.pushConstants.Holds number) :
    ∃ primitive,
      Expansion.pushOperand ⟨line, mnemonic, environment.symbols, strings⟩ operand = .ok primitive ∧
      environment.Performs line primitive (.push [value.word]) ∧
      ∀ number, environment.symbols.intOperand line operand = .ok (some number) →
        IsSmallestPush primitive.opcode number := by
  cases h with
  | @integer _ number hKnown =>
      obtain ⟨primitive, hPush, hPerforms, hSmallest⟩ := pushInt_ok (hHolds _ rfl)
      refine ⟨primitive, (pushOperand_integer hKnown).trans hPush, hPerforms _ _,
        fun other hOther => ?_⟩
      rw [hKnown] at hOther
      cases hOther
      exact hSmallest
  | float number =>
      exact ⟨_, rfl, performs_pushFloat number, fun _ hOther => nomatch hOther⟩
  | @constant name number hKnown =>
      refine ⟨Expansion.pushFloat number, ?_, performs_pushFloat number, fun other hOther => ?_⟩
      · simp only [Expansion.pushOperand, hKnown]
      · simp [Symbols.intOperand, hKnown] at hOther
  | @label name address _ hUnknown hFound hNear =>
      refine ⟨⟨.pushConstU24, [.name name]⟩, ?_, ?_, fun other hOther => ?_⟩
      · simp only [Expansion.pushOperand, hUnknown]
      · have hInteger : environment.integer line (.name name) true = .ok (address : Int) := by
          simp only [Environment.integer, Symbols.intOperand, hUnknown,
            Environment.codeLabel, hFound, bind, Except.bind]
          rfl
        exact performs_unsigned24 rfl hInteger (by omega) (by omega) rfl
      · simp [Symbols.intOperand, hUnknown] at hOther

/-- An integer that no push holds is a fault of capacity. -/
theorem pushOperand_error (h : environment.Means line .pushConstants operand (.int number))
    (hOutside : ¬Rule.pushConstants.Holds number) :
    Expansion.pushOperand ⟨line, mnemonic, environment.symbols, strings⟩ operand =
      .error (line.fault (.capacity .integerConstant number 0xFFFFFFFF)) := by
  cases h with
  | integer hKnown => exact (pushOperand_integer hKnown).trans (pushInt_error hOutside)
  | @label name address _ hUnknown hFound hNear =>
      refine absurd ?_ hOutside
      unfold Rule.Holds leastInt32 greatestUInt32
      dsimp only
      omega

/-- Operands are pushed one by one, each in the shortest form that holds it. -/
theorem pushOperands_ok (h : List.Forall₂ (environment.Means line .pushConstants) operands values)
    (hHolds : ∀ number, .int number ∈ values → Rule.pushConstants.Holds number) :
    ∃ primitives,
      Expansion.pushOperands ⟨line, mnemonic,
        environment.symbols, strings⟩ operands = .ok primitives ∧
      List.Forall₂ (environment.Performs line) primitives (values.map fun value =>
        .push [value.word]) ∧
      List.Forall₂ (fun primitive operand => ∀ number,
        environment.symbols.intOperand line operand = .ok (some number) →
        IsSmallestPush primitive.opcode number) primitives operands := by
  induction h with
  | nil => exact ⟨[], rfl, .nil, .nil⟩
  | cons hFirst _ ih =>
      obtain ⟨first, hPush, hPerforms, hSmallest⟩ :=
        pushOperand_ok hFirst fun number hNumber => hHolds number (hNumber ▸ List.mem_cons_self)
      obtain ⟨rest, hRest, hOthers, hSmall⟩ :=
        ih fun number hNumber => hHolds number (List.mem_cons_of_mem _ hNumber)
      exact ⟨first :: rest, bind_eq_ok.mpr ⟨first, hPush, bind_eq_ok.mpr ⟨rest, hRest, rfl⟩⟩,
        .cons hPerforms hOthers, .cons hSmallest hSmall⟩

/-- The first number that no word holds is reported. -/
theorem pushOperands_error
    (h : List.Forall₂ (environment.Means line .pushConstants) operands values)
    (hOutside : ∃ number, .int number ∈ values ∧ ¬Rule.pushConstants.Holds number) :
    ∃ number, Expansion.pushOperands ⟨line, mnemonic, environment.symbols, strings⟩ operands =
      .error (line.fault (.capacity .integerConstant number 0xFFFFFFFF)) := by
  induction h with
  | nil => simp at hOutside
  | @cons operand value operands values hFirst hRest ih =>
      by_cases hHolds : ∀ number, value = .int number → Rule.pushConstants.Holds number
      · obtain ⟨first, hPush, _, _⟩ := pushOperand_ok hFirst hHolds
        obtain ⟨number, hNumber, hBeyond⟩ := hOutside
        have hLater : .int number ∈ values := by
          rcases List.mem_cons.mp hNumber with rfl | hLater
          · exact absurd (hHolds number rfl) hBeyond
          · exact hLater
        obtain ⟨reported, hReported⟩ := ih ⟨number, hLater, hBeyond⟩
        refine ⟨reported, ?_⟩
        rw [Expansion.pushOperands, hPush, hReported]
        rfl
      · push Not at hHolds
        obtain ⟨number, rfl, hBeyond⟩ := hHolds
        refine ⟨number, ?_⟩
        rw [Expansion.pushOperands, pushOperand_error hFirst hBeyond]
        rfl

/-- Values may be pushed one by one. -/
theorem run?_pushValues (values : List Value) (bases : Bases) (cells : Cells) :
    Motion.run? bases (values.map fun value => .push [value.word]) cells =
      (Motion.push (values.map Value.word)).after? bases cells := by
  induction values generalizing cells with
  | nil => rfl
  | cons value rest ih =>
      rw [List.map_cons, Motion.run?, Motion.after?, Option.bind_some, ih]
      simp [Motion.after?]

theorem integer_ok (h : environment.symbols.intOperand line operand = .ok (some number)) :
    Expansion.integer ⟨line, mnemonic, environment.symbols, strings⟩ operand = .ok number := by
  rw [Expansion.integer, h]

section Forms

variable {narrow wide : Opcode} {motion : Motion}

/-- An unsigned operand is encoded in the narrower form if it fits, which does
the same as the wider one. -/
theorem unsigned_performs {narrowLimit wideLimit : Nat} {what : Quantity}
    (h : environment.symbols.intOperand line operand = .ok (some number)) (hLow : 0 ≤ number)
    (hHigh : number ≤ wideLimit)
    (hNarrow : number ≤ narrowLimit → environment.Performs line (.ofInt narrow number) motion)
    (hWide : environment.Performs line (.ofInt wide number) motion) :
    ∃ primitives, Expansion.unsigned ⟨line, mnemonic, environment.symbols, strings⟩
        [operand] narrow wide
        narrowLimit wideLimit what = .ok primitives ∧
        environment.PerformAll line primitives motion := by
  have hInteger := @integer_ok environment line strings mnemonic _ _ h
  simp only [Expansion.unsigned, Expansion.single, hInteger, bind, Except.bind, Bool.and_eq_true,
    decide_eq_true_eq]
  split
  · next hFits => exact ⟨_, rfl, performAll_single (hNarrow hFits.2)⟩
  · rw [if_pos ⟨hLow, hHigh⟩]
    exact ⟨_, rfl, performAll_single hWide⟩

/-- An unsigned operand beyond the wider form is a fault of capacity. -/
theorem unsigned_error {narrowLimit wideLimit : Nat} {what : Quantity}
    (h : environment.symbols.intOperand line operand = .ok (some number))
    (hLimits : narrowLimit ≤ wideLimit) (hOutside : ¬(0 ≤ number ∧ number ≤ wideLimit)) :
    Expansion.unsigned ⟨line, mnemonic, environment.symbols, strings⟩ [operand] narrow wide
      narrowLimit wideLimit what = .error (line.fault (.capacity what number wideLimit)) := by
  have hInteger := @integer_ok environment line strings mnemonic _ _ h
  simp only [Expansion.unsigned, Expansion.single, hInteger, bind, Except.bind, Bool.and_eq_true,
    decide_eq_true_eq]
  rw [if_neg (by omega), if_neg hOutside]
  rfl

/-- An immediate operand is encoded in the narrower form that holds it. One that
fits neither is pushed, and the general form takes it from the stack. -/
theorem immediate_performs {general : List Opcode}
    (h : environment.symbols.intOperand line operand = .ok (some number))
    (hHolds : Rule.pushConstants.Holds number)
    (hNarrow : 0 ≤ number → number ≤ 0xFF → environment.Performs line (.ofInt narrow number) motion)
    (hWide : -0x8000 ≤ number → number ≤ 0x7FFF →
      environment.Performs line (.ofInt wide number) motion)
    (hGeneral : ∃ motions, List.Forall₂ IsBare general motions ∧
      ∀ bases cells, Motion.run? bases (.push [.ofInt number] :: motions) cells =
        motion.after? bases cells) :
    ∃ primitives, Expansion.immediate ⟨line, mnemonic,
      environment.symbols, strings⟩ [operand] narrow wide general =
      .ok primitives ∧ environment.PerformAll line primitives motion := by
  have hInteger := @integer_ok environment line strings mnemonic _ _ h
  simp only [Expansion.immediate, Expansion.single, hInteger, bind, Except.bind, Bool.and_eq_true,
    decide_eq_true_eq]
  split
  · next hByte => exact ⟨_, rfl, performAll_single (hNarrow hByte.1 hByte.2)⟩
  split
  · next hByte hShort => exact ⟨_, rfl, performAll_single (hWide hShort.1 hShort.2)⟩
  · obtain ⟨push, hPush, hPerforms, _⟩ := pushInt_ok hHolds
    obtain ⟨motions, hBare, hRun⟩ := hGeneral
    rw [hPush]
    refine ⟨_, rfl, .push [.ofInt number] :: motions, .cons (hPerforms _ _) ?_, hRun⟩
    rw [List.forall₂_map_left_iff]
    exact hBare.imp fun _ _ hOpcode => performs_bare hOpcode.1 hOpcode.2

theorem immediate_error {general : List Opcode}
    (h : environment.symbols.intOperand line operand = .ok (some number))
    (hOutside : ¬Rule.pushConstants.Holds number) :
    Expansion.immediate ⟨line, mnemonic,
      environment.symbols, strings⟩ [operand] narrow wide general =
      .error (line.fault (.capacity .integerConstant number 0xFFFFFFFF)) := by
  have hInteger := @integer_ok environment line strings mnemonic _ _ h
  have hRange : ¬(-0x80000000 ≤ number ∧ number ≤ (0xFFFFFFFF : Nat)) := hOutside
  simp only [Expansion.immediate, Expansion.single, hInteger, bind, Except.bind, Bool.and_eq_true,
    decide_eq_true_eq]
  rw [if_neg (by omega), if_neg (by omega), pushInt_error hOutside]
  rfl

end Forms

/-- Where no label is pushed, a number is known before the layout. -/
theorem Environment.Means.known {rule : Rule}
    (h : environment.Means line rule operand (.int number))
    (hRule : rule ≠ .pushConstants) :
    environment.symbols.intOperand line operand = .ok (some number) := by
  cases h with
  | integer hKnown => exact hKnown
  | label hPushes => exact absurd hPushes hRule

/-- One number of a shorthand that takes a single number. -/
theorem expand_number {shorthand : Shorthand} (hShorthand : shorthand ∈ Shorthand.all)
    (hRule : shorthand.rule ≠ .pushConstants) (hTakes : shorthand.rule.Takes [.int number])
    (h : environment.symbols.intOperand line operand = .ok (some number)) :
    ∃ motion, shorthand.motion? [.int number] = some motion ∧
      (shorthand.rule.Holds number → ∃ primitives,
        expand environment.symbols strings line shorthand.mnemonic [operand] = .ok primitives ∧
        environment.PerformAll line primitives motion) ∧
      (¬shorthand.rule.Holds number →
        FailsAtCapacity line (expand environment.symbols strings line
          shorthand.mnemonic [operand])) := by
  have hForms := hasForms hShorthand
  rw [expand_shorthand hShorthand]
  unfold Shorthand.HasForms at hForms
  unfold Shorthand.motion?
  cases hKind : shorthand.rule with
  | pushConstants => exact absurd hKind hRule
  | pushText =>
      rw [hKind] at hTakes
      exact hTakes.elim
  | index narrow wide =>
      simp only [hKind] at hForms
      obtain ⟨hByte, hShort, hNarrow, hWide, hMotion⟩ := hForms
      obtain ⟨motion, hMotion⟩ := hMotion number
      refine ⟨motion, hMotion, fun ⟨hLow, hHigh⟩ => ?_,
        fun hOutside => ⟨_, _, _, unsigned_error h (by decide) hOutside⟩⟩
      exact unsigned_performs h hLow hHigh
        (fun hFits => performs_byte hByte hLow hFits ((hNarrow number).trans hMotion))
        (performs_unsigned16 hShort hLow hHigh ((hWide number).trans hMotion))
  | globalId narrow wide =>
      simp only [hKind] at hForms
      obtain ⟨hShort, hLong, hNarrow, hWide, hMotion⟩ := hForms
      obtain ⟨motion, hMotion⟩ := hMotion number
      refine ⟨motion, hMotion, fun ⟨hLow, hHigh⟩ => ?_,
        fun hOutside => ⟨_, _, _, unsigned_error h (by decide) hOutside⟩⟩
      have hValue : (Int64.ofInt number).toInt = number :=
        Int64.toInt_ofInt_of_le (by omega) (by omega)
      exact unsigned_performs h hLow hHigh
        (fun hFits => performs_unsigned16 hShort hLow hFits ((hNarrow number).trans hMotion))
        (performs_unsigned24 hLong (congrArg Except.ok hValue) hLow hHigh
          ((hWide number).trans hMotion))
  | immediate narrow wide general =>
      simp only [hKind] at hForms
      obtain ⟨hByte, hShort, hNarrow, hWide, hGeneral, hMotion⟩ := hForms
      obtain ⟨motion, hMotion⟩ := hMotion number
      obtain ⟨motions, hBare, hRun⟩ := hGeneral
      refine ⟨motion, hMotion, fun hHolds => ?_, fun hOutside =>
        ⟨_, _, _, immediate_error h hOutside⟩⟩
      exact immediate_performs h hHolds
        (fun hLow hHigh => performs_byte hByte hLow hHigh ((hNarrow number).trans hMotion))
        (fun hLow hHigh => performs_signed16 hShort hLow hHigh ((hWide number).trans hMotion))
        ⟨motions, hBare, fun bases cells => hRun number motion bases cells hMotion⟩

/-- The operands of a push. -/
theorem expand_pushes {shorthand : Shorthand} (hShorthand : shorthand ∈ Shorthand.all)
    (hRule : shorthand.rule = .pushConstants) (hTakes : shorthand.rule.Takes values)
    (h : List.Forall₂ (environment.Means line shorthand.rule) operands values) :
    shorthand.motion? values = some (.push (values.map Value.word)) ∧
      expand environment.symbols strings line shorthand.mnemonic operands =
        Expansion.pushOperands ⟨line, shorthand.mnemonic,
          environment.symbols, strings⟩ operands := by
  rw [hRule] at hTakes
  cases h with
  | nil => exact absurd rfl hTakes
  | cons hFirst hRest =>
      constructor
      · simp only [Shorthand.motion?, hRule]
      · rw [expand_shorthand hShorthand, hRule]
        rfl

/-- The width of operands is chosen faithfully. For every shorthand but the push
of a text, and for all values that its operands can have, expansion fails with a
fault of capacity exactly if a number lies outside of the range of the
shorthand; otherwise all primitives can be encoded, and what their bytes do, one
after the other, is what the general operation does with the values, bit for
bit. An integer that is pushed is pushed by an instruction that is no longer
than any other that could push it. -/
theorem expand_performs {shorthand : Shorthand} (hShorthand : shorthand ∈ Shorthand.all)
    (hTakes : shorthand.rule.Takes values)
    (hValues : List.Forall₂ (environment.Means line shorthand.rule) operands values) :
    ∃ motion, shorthand.motion? values = some motion ∧
      (FailsAtCapacity line (expand environment.symbols strings line shorthand.mnemonic operands) ↔
        ∃ number, .int number ∈ values ∧ ¬shorthand.rule.Holds number) ∧
      ((∀ number, .int number ∈ values → shorthand.rule.Holds number) → ∃ primitives,
        expand environment.symbols strings line shorthand.mnemonic operands = .ok primitives ∧
        environment.PerformAll line primitives motion ∧
        (shorthand.rule = .pushConstants → List.Forall₂ (fun primitive operand => ∀ number,
          environment.symbols.intOperand line operand = .ok (some number) →
            IsSmallestPush primitive.opcode number) primitives operands)) := by
  by_cases hRule : shorthand.rule = .pushConstants
  · obtain ⟨hMotion, hExpand⟩ := @expand_pushes _ _ strings _ _ _ hShorthand hRule hTakes hValues
    rw [hRule] at hValues
    rw [hExpand, hRule]
    have hAccepted := @pushOperands_ok _ _ strings shorthand.mnemonic _ _ hValues
    refine ⟨_, hMotion, ⟨?_, fun hOutside => ?_⟩, fun hHolds => ?_⟩
    · rintro ⟨what, number, limit, hFails⟩
      by_contra hNone
      push Not at hNone
      obtain ⟨primitives, hPrimitives, _⟩ := hAccepted hNone
      rw [hPrimitives] at hFails
      cases hFails
    · obtain ⟨number, hFails⟩ := pushOperands_error hValues hOutside
      exact ⟨_, number, _, hFails⟩
    · obtain ⟨primitives, hPrimitives, hPerforms, hSmallest⟩ := hAccepted hHolds
      exact ⟨primitives, hPrimitives, ⟨_, hPerforms, run?_pushValues values⟩, fun _ => hSmallest⟩
  · obtain ⟨number, rfl⟩ : ∃ number, values = [.int number] := by
      unfold Rule.Takes at hTakes
      split at hTakes
      · exact absurd ‹_› hRule
      · exact hTakes.elim
      · exact hTakes
    obtain ⟨operand, rfl⟩ := List.length_eq_one_iff.mp hValues.length_eq
    have hKnown := (List.forall₂_cons.mp hValues).1.known hRule
    obtain ⟨motion, hMotion, hAccepted, hRefused⟩ :=
      @expand_number _ _ strings _ _ _ hShorthand hRule hTakes hKnown
    refine ⟨motion, hMotion, ⟨?_, ?_⟩, fun hHolds => ?_⟩
    · rintro ⟨what, reported, limit, hFails⟩
      refine ⟨number, List.mem_singleton_self _, fun hHolds => ?_⟩
      obtain ⟨primitives, hPrimitives, _⟩ := hAccepted hHolds
      rw [hPrimitives] at hFails
      cases hFails
    · rintro ⟨other, hOther, hOutside⟩
      cases List.mem_singleton.mp hOther
      exact hRefused hOutside
    · obtain ⟨primitives, hPrimitives, hPerforms⟩ :=
        hAccepted (hHolds number (List.mem_singleton_self _))
      exact ⟨primitives, hPrimitives, hPerforms, fun hPushes => absurd hPushes hRule⟩

end Expansions

def labelledEnvironment : Environment :=
  ⟨.empty, Table.empty.insertNew "F" 300, NativeDatabase.empty, .default⟩

def codeLine : Line :=
  ⟨.ofInstruction "PUSH_CONST" [], .code, none, none⟩

/-- A number below 16 bits, a negative zero, a float that is no number and a
label are pushed as they are, and the size of an item that takes 17 bits is
refused. -/
theorem expand_performs_mixed :
    (∃ primitives, expand .empty .empty codeLine "PUSH_CONST"
        [.int (-32769), .float ⟨0x80000000⟩, .float ⟨0x7FC00001⟩, .name "F"] = .ok primitives ∧
      labelledEnvironment.PerformAll codeLine primitives
        (.push [⟨0xFFFF7FFF⟩, ⟨0x80000000⟩, ⟨0x7FC00001⟩, ⟨300⟩])) ∧
    FailsAtCapacity codeLine (expand .empty .empty codeLine "ARRAY_STORE" [.int 0x10000]) := by
  constructor
  · have hShorthand : ⟨"PUSH_CONST", .pushConstants⟩ ∈ Shorthand.all := by simp [Shorthand.all]
    have hLabel : labelledEnvironment.labels.find? (codeLine.qualify "F") = some 300 := by
      have hName : codeLine.qualify "F" = "F" := rfl
      simp [labelledEnvironment, hName, Table.find?_insertNew]
    have hUnknown : labelledEnvironment.symbols.value? (codeLine.qualify "F") = none := by
      simp [labelledEnvironment, Symbols.value?, Symbols.empty]
    have hValues : List.Forall₂ (labelledEnvironment.Means codeLine .pushConstants)
        [.int (-32769), .float ⟨0x80000000⟩, .float ⟨0x7FC00001⟩, .name "F"]
        [.int (-32769), .float ⟨0x80000000⟩, .float ⟨0x7FC00001⟩, .int 300] :=
      .cons (.integer rfl) (.cons (.float _) (.cons (.float _)
        (.cons (.label rfl hUnknown hLabel (by decide)) .nil)))
    obtain ⟨motion, hMotion, _, hAccepted⟩ :=
      @expand_performs labelledEnvironment codeLine .empty _ _ _ hShorthand
        (List.cons_ne_nil _ _) hValues
    obtain rfl : Motion.push [⟨0xFFFF7FFF⟩, ⟨0x80000000⟩, ⟨0x7FC00001⟩, ⟨300⟩] = motion :=
      Option.some.inj hMotion
    obtain ⟨primitives, hPrimitives, hPerforms, _⟩ :=
      hAccepted (by simp [Rule.Holds, leastInt32, greatestUInt32])
    exact ⟨primitives, hPrimitives, hPerforms⟩
  · have hShorthand : ⟨"ARRAY_STORE", .index .arrayU8Store .arrayU16Store⟩ ∈ Shorthand.all := by
      simp [Shorthand.all]
    have hValues : List.Forall₂
        (labelledEnvironment.Means codeLine (.index .arrayU8Store .arrayU16Store))
          [.int 0x10000] [.int 0x10000] :=
      .cons (.integer rfl) .nil
    obtain ⟨motion, _, hRefused, _⟩ :=
      @expand_performs labelledEnvironment codeLine .empty _ _ _ hShorthand ⟨_, rfl⟩ hValues
    exact hRefused.mpr ⟨0x10000, by simp, by simp [Rule.Holds]⟩

end ScriptBackend.Assembly
