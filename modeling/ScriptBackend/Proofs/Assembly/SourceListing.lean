import ScriptBackend.Proofs.Assembly.Mnemonics
import ScriptBackend.Proofs.Assembly.UnitText
import ScriptBackend.Proofs.Instruction.Fields
import ScriptBackend.Script

/-!
Code listed as source. Each decoded instruction is written below a label that
tells its address, and an instruction that goes somewhere names the label of the
address there. Such a text reads as those labels and instructions again.
-/
namespace ScriptBackend

open Text Assembly

def addressLabel (address : Nat) : String :=
  "L" ++ decimal address

def Assembly.Operand.ofInt (n : Int) : Operand :=
  .int (Int64.ofInt n)

namespace Instruction

/-- The operands of an instruction as source, where `hash?` tells the natives by
their index. A native without an entry cannot be written, and the name of a
frame is left out. -/
def sourceTexts? (hash? : Nat → Option UInt64) (instruction : Instruction) :
    OperandValues → Option (List String)
  | .none => some []
  | .bytes values => some (values.map fun value => decimal value.toNat)
  | .word value => some [signedDecimal value.toInt32.toInt]
  | .float value => some [value.text]
  | .native arguments returns index =>
    (hash? index).map fun hash =>
      [decimal arguments, decimal returns, "0x" ++ hexUpper 16 hash.toNat]
  | .enter parameters frame _ => some [decimal parameters, decimal frame]
  | .signed16 value => some [signedDecimal value]
  | .unsigned16 value => some [decimal value]
  | .relative distance => some [addressLabel (addressAt instruction.endAddress distance)]
  | .call target => some [addressLabel target]
  | .unsigned24 value => some [decimal value]
  | .switch _ =>
    some (instruction.switchCases.map fun entry =>
      signedDecimal entry.1.toInt32.toInt ++ ":" ++ addressLabel entry.2)

/-- The lines of an instruction in source: its label, and its mnemonic with the
operands. -/
def sourceLines? (hash? : Nat → Option UInt64) (instruction : Instruction) :
    Option (List String) := do
  let texts ← instruction.sourceTexts? hash? (← instruction.operands?)
  let operands := commaSeparated texts
  return [addressLabel instruction.address ++ ":",
    "    " ++ instruction.opcode.mnemonic ++ if operands.isEmpty then "" else " " ++ operands]

def sourceOperands (hash? : Nat → Option UInt64) (instruction : Instruction) :
    OperandValues → List Operand
  | .none => []
  | .bytes values => values.map fun value => .ofInt value.toNat
  | .word value => [.ofInt value.toInt32.toInt]
  | .float value => [.float value]
  | .native arguments returns index =>
    [.ofInt arguments, .ofInt returns, .int (Int64.ofNat ((hash? index).getD 0).toNat)]
  | .enter parameters frame _ => [.ofInt parameters, .ofInt frame]
  | .signed16 value => [.ofInt value]
  | .unsigned16 value | .unsigned24 value => [.ofInt value]
  | .relative distance => [.name (addressLabel (addressAt instruction.endAddress distance))]
  | .call target => [.name (addressLabel target)]
  | .switch _ =>
    instruction.switchCases.map fun entry =>
      .case (Int64.ofInt entry.1.toInt32.toInt) (addressLabel entry.2)

def sourcePrimitive (hash? : Nat → Option UInt64) (instruction : Instruction) : Primitive :=
  ⟨instruction.opcode, (instruction.operands?.map (instruction.sourceOperands hash?)).getD []⟩

def sourceStatements (hash? : Nat → Option UInt64) (instruction : Instruction) : List Statement :=
  [.ofLabel (addressLabel instruction.address),
    .ofInstruction instruction.opcode.mnemonic (instruction.sourcePrimitive hash?).operands]

end Instruction

def sourceUnit (hash? : Nat → Option UInt64) (instructions : List Instruction) : List Statement :=
  .ofDirective (.segment .code) :: instructions.flatMap (Instruction.sourceStatements hash?)

namespace Script

/-- The code of a script as source, one label for each address. There is none if
the code cannot be decoded or calls a native without an entry. -/
def sourceListing? (script : Script) : Option String :=
  let decoded := Disassembly.ofCode script.code
  if decoded.fault.isSome then none
  else
    (decoded.instructions.mapM (Instruction.sourceLines? script.nativeHash?)).map fun lines =>
      String.join ((".code" :: lines.flatten).map (· ++ "\n"))

end Script

/-! Names -/

theorem isPlainName_addressLabel (address : Nat) :
    isPlainName (addressLabel address).toList = true := by
  have hDigits : (Nat.toDigits 10 address).all (fun d => isLetter d || isDigit d || d == '_') =
      true := by
    rw [List.all_eq_true]
    intro c hc
    simp [isDigit_of_mem_toDigits hc]
  have hText : (addressLabel address).toList = 'L' :: Nat.toDigits 10 address := by
    simp [addressLabel, decimal]
  rw [hText, isPlainName, hDigits]
  decide

theorem isLocal_addressLabel (address : Nat) : isLocal (addressLabel address) = false := by
  simp [isLocal, addressLabel]

/-- Different addresses have different labels. -/
theorem addressLabel_inj {first second : Nat} (h : addressLabel first = addressLabel second) :
    first = second := by
  have hDigits := congrArg String.toList h
  simp only [addressLabel, decimal, String.toList_append, String.toList_ofList,
    List.append_cancel_left_eq] at hDigits
  rw [← ofDecimal_toDigits first, hDigits, ofDecimal_toDigits]

/-- Every mnemonic reads as a name, and as none of a directive. -/
theorem Opcode.isPlainName_mnemonic (opcode : Opcode) :
    isPlainName opcode.mnemonic.toList = true ∧ isLocal opcode.mnemonic = false := by
  have hAll : ∀ opcode ∈ all, isPlainName opcode.mnemonic.toList = true ∧
      isLocal opcode.mnemonic = false := by
    decide +kernel
  exact hAll opcode opcode.mem_all

theorem isName_addressLabel (address : Nat) : IsName (addressLabel address) :=
  isName_of_plain (isPlainName_addressLabel address)

/-! Operands -/

namespace Assembly

/-- An integer of 64 bits is read back from its decimal form. -/
theorem lexes_ofInt {n : Int} (hLow : -2 ^ 63 ≤ n) (hHigh : n < 2 ^ 63) :
    Lexes (signedDecimal n).toList (Operand.ofInt n).tokens := by
  have hText := lexes_int (Int64.ofInt n)
  rwa [Int64.toInt_ofInt_of_le hLow hHigh] at hText

theorem lexes_ofNat {n : Nat} (h : n < 0x10000000000000000) :
    Lexes (decimal n).toList (Operand.ofInt n).tokens := by
  rw [Operand.ofInt, Int64.ofInt_eq_ofNat]
  exact lexes_decimal h

/-- A case is read back as its value and its label. -/
theorem lexes_case {n : Int} (hLow : -2 ^ 63 ≤ n) (hHigh : n < 2 ^ 63) {label : String}
    (hLabel : IsName label) :
    Lexes (signedDecimal n ++ ":" ++ label).toList (Operand.case (Int64.ofInt n) label).tokens := by
  have hText : (signedDecimal n ++ ":" ++ label).toList = (signedDecimal n).toList ++ ':' ::
      label.toList := by simp
  rw [hText]
  exact (lexes_ofInt hLow hHigh).before hLabel.lexes.colon

end Assembly

/-- A word with its sign fits 64 bits. -/
theorem word_range (word : UInt32) :
    -2 ^ 63 ≤ word.toInt32.toInt ∧ word.toInt32.toInt < 2 ^ 63 := by
  have hLow := word.toInt32.le_toInt
  have hHigh := word.toInt32.toInt_lt
  omega

/-- What the source of an instruction must tell that it cannot tell of every
one: a number that reads back, and a native with an entry. -/
structure Instruction.IsWritable (hash? : Nat → Option UInt64) (values : OperandValues) : Prop where
  float : ∀ value, values = .float value → Binary32.ofText? value.text.toList = some value
  native : ∀ arguments returns index, values = .native arguments returns index →
    (hash? index).isSome = true

namespace Instruction

variable {hash? : Nat → Option UInt64} {instruction : Instruction} {values : OperandValues}

theorem lexes_bytes (values : List UInt8) :
    List.Forall₂ (fun text operand => Lexes text.toList (Operand.tokens operand))
      (values.map fun value => decimal value.toNat)
      (values.map fun value => .ofInt value.toNat) := by
  rw [List.forall₂_map_left_iff, List.forall₂_map_right_iff, List.forall₂_same]
  exact fun value _ => lexes_ofNat (Nat.lt_trans value.toNat_lt (by decide))

/-- The texts of operands read as the operands. -/
theorem lexes_sourceTexts {format : OperandFormat} (hValues : format.Holds values)
    (h : IsWritable hash? values) :
    ∃ texts, instruction.sourceTexts? hash? values = some texts ∧
      List.Forall₂ (fun text operand => Lexes text.toList (Operand.tokens operand)) texts
        (instruction.sourceOperands hash? values) := by
  have hName (address : Nat) := (isName_addressLabel address).lexes
  cases hValues with
  | none => exact ⟨[], rfl, .nil⟩
  | byte | twoBytes | threeBytes => exact ⟨_, rfl, lexes_bytes _⟩
  | word value =>
      obtain ⟨hLow, hHigh⟩ := word_range value
      exact ⟨_, rfl, .cons (lexes_ofInt hLow hHigh) .nil⟩
  | float value => exact ⟨_, rfl, .cons (lexes_float (h.float value rfl)) .nil⟩
  | @native arguments returns index few fewer place =>
      obtain ⟨hash, hHash⟩ := Option.isSome_iff_exists.mp (h.native arguments returns index rfl)
      refine ⟨_, congrArg (Option.map _) hHash, ?_⟩
      rw [sourceOperands, hHash]
      refine .cons (lexes_ofNat (by omega)) (.cons (lexes_ofNat (by omega)) (.cons ?_ .nil))
      simpa [Operand.tokens] using lexes_hex hash.toNat_lt
  | enter few room name =>
      exact ⟨_, rfl, .cons (lexes_ofNat (by omega)) (.cons (lexes_ofNat (by omega)) .nil)⟩
  | signed16 low high => exact ⟨_, rfl, .cons (lexes_ofInt (by omega) (by omega)) .nil⟩
  | unsigned16 high => exact ⟨_, rfl, .cons (lexes_ofNat (by omega)) .nil⟩
  | relative low high => exact ⟨_, rfl, .cons (hName _) .nil⟩
  | call high => exact ⟨_, rfl, .cons (hName _) .nil⟩
  | unsigned24 high => exact ⟨_, rfl, .cons (lexes_ofNat (by omega)) .nil⟩
  | switch few near =>
      refine ⟨_, rfl, ?_⟩
      rw [sourceOperands, List.forall₂_map_left_iff, List.forall₂_map_right_iff, List.forall₂_same]
      intro entry _
      obtain ⟨hLow, hHigh⟩ := word_range entry.1
      exact lexes_case hLow hHigh (isName_addressLabel entry.2)

/-- A mnemonic and texts of operands read as an instruction. -/
theorem lexes_sourceLine {mnemonic : String} {texts : List String} {operands : List Operand}
    (hMnemonic : IsName mnemonic)
    (h : List.Forall₂ (fun text operand =>
      Lexes text.toList (Operand.tokens operand)) texts operands) :
    Lexes ("    " ++ mnemonic ++
      if (commaSeparated texts).isEmpty then "" else " " ++ commaSeparated texts).toList
      (Content.instruction mnemonic operands).tokens := by
  have hOperands : Lexes (commaSeparated texts).toList (operandTokens operands) := lexes_separated h
  split
  · next hEmpty =>
      rw [String.isEmpty_iff.mp hEmpty] at hOperands
      have hTokens := hOperands.tokenize_eq
      simp only [String.toList_empty, tokenize_nil, Except.ok.injEq, Prod.mk.injEq] at hTokens
      rw [Content.tokens, ← hTokens.1]
      simpa using hMnemonic.lexes.indented
  · simpa [Content.tokens] using (hMnemonic.lexes.before hOperands.space).indented

/-- An instruction is written as its label and itself. -/
theorem writes_sourceLines (hRead : instruction.operands? = some values)
    (h : IsWritable hash? values) :
    ∃ lines, instruction.sourceLines? hash? = some lines ∧
      List.Forall₂ Writes lines (instruction.sourceStatements hash?) := by
  obtain ⟨texts, hTexts, hLexes⟩ := lexes_sourceTexts (OperandValues.holds_of_read? hRead) h
  obtain ⟨hPlain, hLocal⟩ := instruction.opcode.isPlainName_mnemonic
  refine ⟨_, by rw [sourceLines?, hRead]; exact congrArg (· >>= _) hTexts, .cons ?_ (.cons ?_ .nil)⟩
  · refine ⟨?_, by simp [Statement.IsLine, Statement.ofLabel], rfl, by simp [Statement.ofLabel]⟩
    have hLabel := (isName_addressLabel instruction.address).lexes.before lexes_nil.colon
    simpa [Statement.ofLabel, labelTokens, Content.tokens] using hLabel
  · refine ⟨?_, by simp [Statement.IsLine, Statement.ofInstruction], rfl, ?_⟩
    · rw [sourcePrimitive, hRead]
      exact lexes_sourceLine (isName_of_plain hPlain) hLexes
    · rintro _ _ ⟨⟩
      exact hLocal

/-- Instructions one by one are written as the unit of all. -/
theorem writes_sourceListing {instructions : List Instruction}
    (h : ∀ instruction ∈ instructions, ∃ values, instruction.operands? = some values ∧
      IsWritable hash? values) :
    ∃ lines, instructions.mapM (sourceLines? hash?) = some lines ∧
      List.Forall₂ Writes lines.flatten (instructions.flatMap (sourceStatements hash?)) := by
  induction instructions with
  | nil => exact ⟨[], rfl, .nil⟩
  | cons first rest ih =>
      rw [List.forall_mem_cons] at h
      obtain ⟨⟨values, hRead, hWritable⟩, hRest⟩ := h
      obtain ⟨own, hOwn, hWrites⟩ := writes_sourceLines hRead hWritable
      obtain ⟨others, hOthers, hLater⟩ := ih hRest
      refine ⟨own :: others, ?_, List.rel_append hWrites hLater⟩
      rw [List.mapM_cons, hOwn, hOthers]
      rfl

end Instruction

/-- Code that decodes into instructions that can be written has a listing, which
reads as their unit. -/
theorem Script.read_sourceListing {script : Script} {instructions : List Instruction}
    (hDecoded : Disassembly.ofCode script.code = ⟨instructions, none⟩)
    (h : ∀ instruction ∈ instructions, ∃ values, instruction.operands? = some values ∧
      Instruction.IsWritable script.nativeHash? values) :
    ∃ listing parsed, script.sourceListing? = some listing ∧ read listing = .ok parsed ∧
      parsed.map Statement.unnumbered =
        normalUnit (sourceUnit script.nativeHash? instructions) := by
  obtain ⟨lines, hLines, hWrites⟩ := Instruction.writes_sourceListing h
  have hHead : Writes ".code" (.ofDirective (.segment .code)) :=
    ⟨(Directive.isName_name (.segment .code)).lexes, by
      simp [Statement.IsLine, Statement.ofDirective], rfl, by simp [Statement.ofDirective]⟩
  obtain ⟨parsed, hRead, hParsed⟩ := read_lines (.cons hHead hWrites)
  refine ⟨_, parsed, ?_, hRead, hParsed⟩
  rw [sourceListing?, hDecoded]
  exact congrArg (Option.map _) hLines

end ScriptBackend
