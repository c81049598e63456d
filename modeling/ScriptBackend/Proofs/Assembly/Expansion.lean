import ScriptBackend.Assembly.Layout
import ScriptBackend.Proofs.Outcome
import ScriptBackend.Proofs.Table

/-!
The expansion of instructions. It depends on the string pages only through the
offset of the literal that it pushes, so an expansion stays the same when more
literals are stored; and an instruction that can be expanded at all has a first
primitive.
-/
namespace ScriptBackend.Assembly

open Outcome

namespace Expansion

/-- The same instruction seen with other string pages. -/
def withStrings (expansion : Expansion) (strings : StringPages) : Expansion :=
  { expansion with strings := strings }

variable (expansion : Expansion) (strings : StringPages)

theorem pushOperands_withStrings (operands : List Operand) :
    (expansion.withStrings strings).pushOperands operands = expansion.pushOperands operands := by
  induction operands with
  | nil => rfl
  | cons operand rest ih =>
      rw [pushOperands, pushOperands, ih]
      rfl

variable {expansion strings}

/-- A literal that has been pushed once is pushed by the same primitives later. -/
theorem pushText_of_keeps {operands : List Operand} {primitives : List Primitive}
    (hKeeps : expansion.strings.Keeps strings)
    (h : expansion.pushText operands = .ok primitives) :
    (expansion.withStrings strings).pushText operands = .ok primitives := by
  obtain ⟨operand, hSingle, hRest⟩ := bind_eq_ok.mp h
  have hSame : (expansion.withStrings strings).single operands = .ok operand := hSingle
  rw [pushText, hSame]
  cases operand with
  | text text =>
      cases hOffset : expansion.strings.offset? text with
      | none => simp [hOffset, fault] at hRest
      | some offset =>
          have hLater : (expansion.withStrings strings).strings.offset? text = some offset :=
            hKeeps text offset hOffset
          simp only [hOffset] at hRest
          simp only [bind, Except.bind, hLater]
          exact hRest
  | _ => simp [fault] at hRest

/-- A rule chooses the same primitives once more strings are stored, since
offsets stay. -/
theorem apply_of_keeps {rule : Rule} {operands : List Operand} {primitives : List Primitive}
    (hKeeps : expansion.strings.Keeps strings)
    (h : expansion.apply rule operands = .ok primitives) :
    (expansion.withStrings strings).apply rule operands = .ok primitives := by
  cases rule with
  | pushConstants =>
      rw [← h, apply, apply, pushOperands_withStrings]
      rfl
  | pushText => exact pushText_of_keeps hKeeps h
  | index narrow wide => exact h
  | globalId narrow wide => exact h
  | immediate narrow wide general => exact h

theorem unsigned_ne_nil {operands : List Operand} {narrow wide : Opcode}
    {narrowLimit wideLimit : Nat} {what : Quantity} {primitives : List Primitive}
    (h : expansion.unsigned operands narrow wide narrowLimit wideLimit what = .ok primitives) :
    primitives ≠ [] := by
  obtain ⟨operand, _, h⟩ := bind_eq_ok.mp h
  obtain ⟨value, _, h⟩ := bind_eq_ok.mp h
  split at h
  · cases h
    simp
  · split at h
    · cases h
      simp
    · simp [fault] at h

theorem immediate_ne_nil {operands : List Operand} {narrow wide : Opcode} {general : List Opcode}
    {primitives : List Primitive}
    (h : expansion.immediate operands narrow wide general = .ok primitives) : primitives ≠ [] := by
  obtain ⟨operand, _, h⟩ := bind_eq_ok.mp h
  obtain ⟨value, _, h⟩ := bind_eq_ok.mp h
  split at h
  · cases h
    simp
  · split at h
    · cases h
      simp
    · obtain ⟨push, _, h⟩ := bind_eq_ok.mp h
      cases h
      simp

/-- Whatever its rule, a shorthand is expanded to one primitive at least. -/
theorem apply_ne_nil {rule : Rule} {operands : List Operand} {primitives : List Primitive}
    (h : expansion.apply rule operands = .ok primitives) : primitives ≠ [] := by
  cases rule with
  | pushConstants =>
      cases operands with
      | nil => simp [apply, fault] at h
      | cons operand rest =>
          obtain ⟨first, _, hRest⟩ := bind_eq_ok.mp (show expansion.pushOperands _ = _ from h)
          obtain ⟨others, _, hOthers⟩ := bind_eq_ok.mp hRest
          cases hOthers
          simp
  | pushText =>
      obtain ⟨operand, _, hRest⟩ := bind_eq_ok.mp (show expansion.pushText _ = _ from h)
      cases operand with
      | text text =>
          cases hOffset : expansion.strings.offset? text with
          | none => simp [hOffset, fault] at hRest
          | some offset =>
              simp only [hOffset] at hRest
              obtain ⟨push, _, hPush⟩ := bind_eq_ok.mp hRest
              cases hPush
              simp
      | _ => simp [fault] at hRest
  | index narrow wide =>
      exact unsigned_ne_nil h
  | globalId narrow wide =>
      exact unsigned_ne_nil h
  | immediate narrow wide general =>
      exact immediate_ne_nil h

end Expansion

/-- Literals stored later do not change what an instruction stands for. -/
theorem expand_of_keeps {symbols : Symbols} {strings later : StringPages} {line : Line}
    {mnemonic : String} {operands : List Operand} {primitives : List Primitive}
    (hKeeps : strings.Keeps later)
    (h : expand symbols strings line mnemonic operands = .ok primitives) :
    expand symbols later line mnemonic operands = .ok primitives := by
  unfold expand at h ⊢
  cases hOpcode : Opcode.named? mnemonic with
  | some opcode => simpa only [hOpcode] using h
  | none =>
      cases hShorthand : Shorthand.named? mnemonic with
      | none => simp [hOpcode, hShorthand] at h
      | some shorthand =>
          simp only [hOpcode, hShorthand] at h ⊢
          exact Expansion.apply_of_keeps hKeeps h

/-- Every instruction stands for at least one primitive. -/
theorem expand_ne_nil {symbols : Symbols} {strings : StringPages} {line : Line}
    {mnemonic : String} {operands : List Operand} {primitives : List Primitive}
    (h : expand symbols strings line mnemonic operands = .ok primitives) : primitives ≠ [] := by
  unfold expand at h
  cases hOpcode : Opcode.named? mnemonic with
  | some opcode =>
      simp only [hOpcode, Except.ok.injEq] at h
      simp [← h]
  | none =>
      cases hShorthand : Shorthand.named? mnemonic with
      | none => simp [hOpcode, hShorthand] at h
      | some shorthand =>
          simp only [hOpcode, hShorthand] at h
          exact Expansion.apply_ne_nil h

namespace Line

/-- An instruction is found on lines of code only, and is what the statement
says. -/
theorem instruction?_eq_some_iff {line : Line} {mnemonic : String} {operands : List Operand} :
    line.instruction? = some (mnemonic, operands) ↔
      line.statement.content = .instruction mnemonic operands ∧ line.segment = .code := by
  unfold instruction?
  split
  · next hContent => simp [hContent, and_comm]
  · next hOther => simpa using fun hContent => absurd hContent (hOther _ _)

/-- The primitives of the instruction on a line. A line without an instruction
has none. -/
def primitives (line : Line) (symbols : Symbols) (strings : StringPages) :
    Except Fault (List Primitive) :=
  match line.instruction? with
  | none => .ok []
  | some (mnemonic, operands) => expand symbols strings line mnemonic operands

/-- The primitives of a line stay the same once more strings are stored. -/
theorem primitives_of_keeps {line : Line} {symbols : Symbols} {strings later : StringPages}
    {primitives : List Primitive} (hKeeps : strings.Keeps later)
    (h : line.primitives symbols strings = .ok primitives) :
    line.primitives symbols later = .ok primitives := by
  unfold Line.primitives at h ⊢
  cases hInstruction : line.instruction? with
  | none => simpa only [hInstruction] using h
  | some said =>
      simp only [hInstruction] at h ⊢
      exact expand_of_keeps hKeeps h

/-- Exactly the lines without an instruction have no primitives. -/
theorem primitives_eq_nil_iff {line : Line} {symbols : Symbols} {strings : StringPages}
    {primitives : List Primitive} (h : line.primitives symbols strings = .ok primitives) :
    primitives = [] ↔ line.instruction? = none := by
  unfold Line.primitives at h
  cases hInstruction : line.instruction? with
  | none =>
      simp only [hInstruction, Except.ok.injEq] at h
      simp [← h]
  | some said =>
      simp only [hInstruction] at h
      simpa using expand_ne_nil h

end Line
end ScriptBackend.Assembly
