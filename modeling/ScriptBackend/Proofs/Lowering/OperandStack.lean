import Mathlib.Data.List.Forall2
import Mathlib.Logic.Relation
import ScriptBackend.Proofs.Assembly.Mnemonics
import ScriptBackend.Proofs.Lowering.ControlMachine
import ScriptBackend.Word

/-!
The operand stack of the machine. Every instruction takes words from the stack
and leaves others; what words come from memory or from calls is left open, and
tests fall out either way. What is known of a stack beforehand is its shape: how
many words there are, and which of them are constants.
-/
namespace ScriptBackend

/-- How many words an instruction takes from the stack and how many it leaves in
their place, where neither its operands nor the words decide that. -/
def Opcode.traffic? : Opcode → Option (Nat × Nat)
  | .nop | .j => some (0, 0)
  | .iadd | .isub | .imul | .idiv | .imod | .iand | .ior | .ixor | .ieq | .ine | .igt | .ige
  | .ilt | .ile | .fadd | .fsub | .fmul | .fdiv | .fmod | .feq | .fne | .fgt | .fge | .flt | .fle
  | .storeRev | .arrayU8 | .arrayU16 | .arrayU8Load | .arrayU16Load | .ioffset => some (2, 1)
  | .vadd | .vsub | .vmul | .vdiv => some (6, 3)
  | .vneg => some (3, 3)
  | .f2v => some (1, 3)
  | .inot | .ineg | .fneg | .i2f | .f2i | .load | .iaddU8 | .iaddS16 | .imulU8 | .imulS16
  | .ioffsetU8 | .ioffsetS16 | .ioffsetU8Load | .ioffsetS16Load | .string => some (1, 1)
  | .dup => some (1, 2)
  | .drop | .jz | .switch | .localU8Store | .localU16Store | .staticU8Store | .staticU16Store
  | .globalU16Store | .globalU24Store => some (1, 0)
  | .store | .ioffsetU8Store | .ioffsetS16Store | .ieqJz | .ineJz | .igtJz | .igeJz | .iltJz
  | .ileJz | .textLabelAssignString | .textLabelAssignInt | .textLabelAppendString
  | .textLabelAppendInt => some (2, 0)
  | .arrayU8Store | .arrayU16Store => some (3, 0)
  | .localU8 | .localU16 | .localU8Load | .localU16Load | .staticU8 | .staticU16 | .staticU8Load
  | .staticU16Load | .globalU16 | .globalU24 | .globalU16Load | .globalU24Load => some (0, 1)
  | _ => none

/-- The constant that an instruction pushes without operands. -/
def Opcode.constant? : Opcode → Option Word
  | .pushConstM1 => some (.ofInt (-1))
  | .pushConst0 => some (.ofInt 0)
  | .pushConst1 => some (.ofInt 1)
  | .pushConst2 => some (.ofInt 2)
  | .pushConst3 => some (.ofInt 3)
  | .pushConst4 => some (.ofInt 4)
  | .pushConst5 => some (.ofInt 5)
  | .pushConst6 => some (.ofInt 6)
  | .pushConst7 => some (.ofInt 7)
  | .pushConstFm1 => some (.ofFloat (.ofInt (-1)))
  | .pushConstF0 => some (.ofFloat (.ofInt 0))
  | .pushConstF1 => some (.ofFloat (.ofInt 1))
  | .pushConstF2 => some (.ofFloat (.ofInt 2))
  | .pushConstF3 => some (.ofFloat (.ofInt 3))
  | .pushConstF4 => some (.ofFloat (.ofInt 4))
  | .pushConstF5 => some (.ofFloat (.ofInt 5))
  | .pushConstF6 => some (.ofFloat (.ofInt 6))
  | .pushConstF7 => some (.ofFloat (.ofInt 7))
  | _ => none

namespace Lowering

open ScriptBackend.Assembly

/-- What is known of the words on the stack, the topmost first. -/
abbrev Shape := List (Option Word)

def unknown (count : Nat) : Shape :=
  List.replicate count none

/-- Unknown words on top of unknown words are as many as both together. -/
theorem unknown_append (first second : Nat) (shape : Shape) :
    unknown second ++ (unknown first ++ shape) = unknown (first + second) ++ shape := by
  rw [← List.append_assoc, unknown, unknown, unknown, List.replicate_append_replicate, Nat.add_comm]

/-- Whether words on the stack are what is known of them. -/
def Matches (shape : Shape) (words : List Word) : Prop :=
  List.Forall₂ (fun known word => ∀ w ∈ known, word = w) shape words

namespace Matches

variable {shape above : Shape} {words top : List Word}

/-- A stack all of whose words are known. -/
theorem exact_iff {known : List Word} : Matches (known.map some) words ↔ words = known := by
  rw [Matches, List.forall₂_map_left_iff]
  simp only [Option.mem_def, Option.some.injEq, forall_eq']
  constructor
  · intro h
    exact List.forall₂_eq_eq_eq ▸ List.Forall₂.flip h
  · rintro rfl
    exact List.forall₂_same.mpr fun _ _ => rfl

/-- A shape matches stacks of its own length only. -/
theorem length_eq (h : Matches shape words) : words.length = shape.length :=
  (List.Forall₂.length_eq h).symm

/-- Words on top of a stack. -/
theorem append (hAbove : Matches above top) (h : Matches shape words) :
    Matches (above ++ shape) (top ++ words) :=
  List.rel_append hAbove h

/-- What is known of the words below others. -/
theorem below (h : Matches (above ++ shape) (top ++ words)) (hLength : above.length = top.length) :
    Matches shape words := by
  have hDrop := List.forall₂_drop_append _ _ _ h
  rwa [← hLength, List.drop_left] at hDrop

theorem unknown_of_length {count : Nat} (h : top.length = count) : Matches (unknown count) top := by
  rw [Matches, unknown, List.forall₂_iff_get]
  simp [h]

/-- A stack that is known in two parts. -/
theorem exists_append (h : Matches (above ++ shape) words) :
    ∃ top rest, words = top ++ rest ∧ Matches above top ∧ Matches shape rest := by
  have hTop := List.forall₂_take above.length h
  have hRest := List.forall₂_drop above.length h
  rw [List.take_left] at hTop
  rw [List.drop_left] at hRest
  exact ⟨_, _, (List.take_append_drop above.length words).symm, hTop, hRest⟩

end Matches

/-- What an instruction does to the stack. -/
inductive Effect where
  /-- Some words are taken and others are left in their place. -/
  | exchange (takes gives : Nat)
  /-- Constants are pushed, the topmost first. -/
  | push (constants : Shape)
  /-- An address and a count are taken, and as many words as counted left. -/
  | loadMany
  /-- An address and a count are taken, and as many words as counted with them. -/
  | storeMany
deriving DecidableEq

/-- How many words go into a function and how many come out of it. -/
structure Interface where
  takes : Nat
  gives : Nat
deriving DecidableEq, Inhabited

/-- What is known of a constant operand once it is pushed. -/
def pushed : Operand → Option Word
  | .int value => some (.ofInt value.toInt)
  | .float value => some (.ofFloat value)
  | _ => none

def counts (value : Int64) : Nat :=
  value.toInt.toNat

/-- What a primitive instruction does to the stack. A call does what the
function does that is called. -/
def opcodeEffect? (called : Interface) (operands : List Operand) (opcode : Opcode) :
    Option Effect :=
  match opcode with
  | .loadN => some .loadMany
  | .storeN => some .storeMany
  | .call => some (.exchange called.takes called.gives)
  | .callindirect => some (.exchange (called.takes + 1) called.gives)
  | .native =>
    match operands with
    | [.int takes, .int gives, _] => some (.exchange (counts takes) (counts gives))
    | _ => none
  | .leave =>
    match operands with
    | [_, .int results] => some (.exchange (counts results) 0)
    | _ => none
  | .pushConstU8 | .pushConstU8U8 | .pushConstU8U8U8 | .pushConstS16 | .pushConstU24 | .pushConstU32
  | .pushConstF => some (.push (operands.map pushed).reverse)
  | opcode =>
    match opcode.traffic? with
    | some (takes, gives) => some (.exchange takes gives)
    | none => opcode.constant?.map fun word => .push [some word]

/-- What a shorthand does to the stack: the same as the narrowest instruction
that it may stand for. -/
def ruleEffect? (operands : List Operand) : Rule → Option Effect
  | .pushConstants => some (.push (operands.map pushed).reverse)
  | .pushText => some (.exchange 0 1)
  | .index narrow _ | .globalId narrow _ | .immediate narrow _ _ =>
    narrow.traffic?.map fun (takes, gives) => .exchange takes gives

def effect? (called : Interface) (statement : Statement) : Option Effect :=
  match statement.content with
  | .empty => some (.exchange 0 0)
  | .directive _ => none
  | .instruction mnemonic operands =>
    match Opcode.named? mnemonic with
    | some opcode => opcodeEffect? called operands opcode
    | none => (Shorthand.named? mnemonic).bind fun shorthand => ruleEffect? operands shorthand.rule

section Effects

variable {called : Interface} {takes gives : Nat}

theorem effect_commented (comment : String) (statement : Statement) :
    effect? called (commented comment statement) = effect? called statement :=
  rfl

theorem transfer_commented (comment : String) (statement : Statement) :
    transfer (commented comment statement) = transfer statement :=
  rfl

/-- Only one instruction leaves a function. -/
theorem content_of_leave {statement : Statement} (h : transfer statement = .leave) :
    ∃ operands, statement.content = .instruction "LEAVE" operands := by
  unfold transfer at h
  split at h <;> first | exact ⟨_, ‹_›⟩ | cases h

/-- An opcode exchanges as many words as its traffic says, whatever its operands
are. -/
theorem opcodeEffect_of_traffic {opcode : Opcode} (h : opcode.traffic? = some (takes, gives))
    (operands : List Operand) :
    opcodeEffect? called operands opcode = some (.exchange takes gives) := by
  unfold opcodeEffect?
  split
  all_goals first
    | cases h
    | rw [h]

theorem effect_primitive (opcode : Opcode) (operands : List Operand) :
    effect? called (.ofInstruction opcode.mnemonic operands) =
      opcodeEffect? called operands opcode := by
  unfold effect? Statement.ofInstruction
  simp only [Opcode.named?_mnemonic]

/-- Instructions without operands do not transfer control. -/
theorem transfer_plain {opcode : Opcode} (h : opcode.format = .none) :
    transfer (plain opcode.mnemonic) = .pass := by
  have hSwitch : opcode.mnemonic ≠ "SWITCH" :=
    Opcode.mnemonic_ne .switch (by rintro rfl; cases h)
  have hLeave : opcode.mnemonic ≠ "LEAVE" :=
    Opcode.mnemonic_ne .leave (by rintro rfl; cases h)
  have hContent : (plain opcode.mnemonic).content = .instruction opcode.mnemonic [] := rfl
  simp [transfer, hContent, hSwitch, hLeave]

/-- Shorthands do not transfer control. -/
theorem transfer_shorthand {shorthand : Shorthand} (h : shorthand ∈ Shorthand.all)
    (operands : List Operand) : transfer (.ofInstruction shorthand.mnemonic operands) = .pass := by
  simp only [Shorthand.all, List.mem_cons, List.not_mem_nil, or_false] at h
  rcases h with rfl | rfl | rfl | rfl | rfl | rfl | rfl | rfl | rfl | rfl | rfl | rfl
    | rfl | rfl | rfl | rfl | rfl | rfl | rfl
  all_goals rfl

/-- Whether a name is that of a shorthand that takes and leaves given numbers of
words. -/
def hasTraffic (mnemonic : String) (takes gives : Nat) : Bool :=
  Shorthand.all.any fun shorthand =>
    shorthand.mnemonic == mnemonic && ruleEffect? [] shorthand.rule == some (.exchange takes gives)

theorem effect_of_shorthand {shorthand : Shorthand} (h : shorthand ∈ Shorthand.all)
    (operands : List Operand) :
    effect? called (.ofInstruction shorthand.mnemonic operands) =
      ruleEffect? operands shorthand.rule := by
  obtain ⟨hOpcode, hNamed⟩ := Shorthand.named?_mnemonic h
  unfold effect? Statement.ofInstruction
  simp only [hOpcode, hNamed, Option.bind_some]

/-- A shorthand exchanges as many words as its mnemonic says. -/
theorem effect_shorthand {mnemonic : String} (h : hasTraffic mnemonic takes gives = true)
    (operands : List Operand) :
    effect? called (.ofInstruction mnemonic operands) = some (.exchange takes gives) := by
  obtain ⟨shorthand, hAll, hShorthand⟩ := List.any_eq_true.mp h
  simp only [Bool.and_eq_true, beq_iff_eq] at hShorthand
  obtain ⟨rfl, hEffect⟩ := hShorthand
  rw [effect_of_shorthand hAll]
  cases hRule : shorthand.rule with
  | pushConstants =>
      rw [hRule] at hEffect
      cases hEffect
  | _ =>
      rw [hRule] at hEffect
      exact hEffect

theorem effect_counted {mnemonic : String}
    (h : hasTraffic mnemonic takes gives = true) (number : Nat) :
    effect? called (counted mnemonic [number]) = some (.exchange takes gives) :=
  effect_shorthand h _

/-- A push leaves one word for each operand, known where the operand is a number. -/
theorem effect_push (operands : List Operand) :
    effect? called (.ofInstruction "PUSH_CONST" operands) =
      some (.push (operands.map pushed).reverse) := by
  have hAll : ⟨"PUSH_CONST", .pushConstants⟩ ∈ Shorthand.all := by simp [Shorthand.all]
  exact effect_of_shorthand hAll _

theorem effect_pushText (text : String) :
    effect? called (.ofInstruction "PUSH_STRING" [.text text]) = some (.exchange 0 1) := by
  have hAll : ⟨"PUSH_STRING", .pushText⟩ ∈ Shorthand.all := by simp [Shorthand.all]
  exact effect_of_shorthand hAll _

end Effects

/-! The machine -/

/-- The stacks that an effect leaves of a stack. -/
inductive Effect.Moves : Effect → List Word → List Word → Prop where
  | exchange {takes gives : Nat} {taken given rest : List Word} (takes_eq : taken.length = takes)
      (gives_eq : given.length = gives) :
      Moves (.exchange takes gives) (taken ++ rest) (given ++ rest)
  | push {constants : Shape} {given : List Word} (rest : List Word)
      (constant : Matches constants given) : Moves (.push constants) rest (given ++ rest)
  | loadMany {address count : Word} {given : List Word} (rest : List Word)
      (counted : given.length = count.bits.toNat) :
      Moves .loadMany (address :: count :: rest) (given ++ rest)
  | storeMany {address count : Word} {taken rest : List Word}
      (counted : taken.length = count.bits.toNat) :
      Moves .storeMany (address :: count :: (taken ++ rest)) rest

/-- Whether a position of code has a label. -/
def IsLabelAt (code : Code) (label : String) (position : Nat) : Prop :=
  ∃ statement, code[position]? = some statement ∧ statement.label = some label

/-- Where a statement may lead. -/
def Leads (code : Code) (position : Nat) (statement : Statement) (next : Nat) : Prop :=
  match transfer statement with
  | .pass => next = position + 1
  | .jump label => IsLabelAt code label next
  | .test _ label => next = position + 1 ∨ IsLabelAt code label next
  | .select cases =>
    next = position + 1 ∨ ∃ value label, .case value label ∈ cases ∧ IsLabelAt code label next
  | .leave => False

/-- One step of the machine, from a position in code with a stack to another.
Functions that are called have the given interfaces. -/
inductive StackStep (called : Nat → Interface) (code : Code) :
    Nat × List Word → Nat × List Word → Prop where
  | step {position next : Nat} {statement : Statement} {effect : Effect} {stack left : List Word}
      (here : code[position]? = some statement)
      (effect_eq : effect? (called position) statement = some effect)
      (moves : effect.Moves stack left) (leads : Leads code position statement next) :
      StackStep called code (position, stack) (next, left)

/-- Any number of steps of the machine. -/
abbrev StackRuns (called : Nat → Interface) (code : Code) :
    Nat × List Word → Nat × List Word → Prop :=
  Relation.ReflTransGen (StackStep called code)

/-! Shapes -/

/-- The shape that an effect leaves of a shape. -/
inductive Effect.Turns : Effect → Shape → Shape → Prop where
  | exchange {takes gives : Nat} {taken : Shape} (rest : Shape) (takes_eq : taken.length = takes) :
      Turns (.exchange takes gives) (taken ++ rest) (unknown gives ++ rest)
  | push (constants rest : Shape) : Turns (.push constants) rest (constants ++ rest)
  | forget (constants rest : Shape) :
      Turns (.push constants) rest (unknown constants.length ++ rest)
  | loadMany (address : Option Word) (count : Word) (rest : Shape) :
      Turns .loadMany (address :: some count :: rest) (unknown count.bits.toNat ++ rest)
  | storeMany {address : Option Word} {count : Word} {taken rest : Shape}
      (counted : taken.length = count.bits.toNat) :
      Turns .storeMany (address :: some count :: (taken ++ rest)) rest

/-- Shapes tell what the machine does. -/
theorem Effect.Turns.sound {effect : Effect} {before after : Shape} {stack left : List Word}
    (h : effect.Turns before after) (hMoves : effect.Moves stack left)
    (hBefore : Matches before stack) :
    Matches after left := by
  cases h with
  | exchange rest takes_eq =>
      cases hMoves with
      | exchange taken_eq gives_eq =>
          exact (Matches.unknown_of_length gives_eq).append
            (hBefore.below (takes_eq.trans taken_eq.symm))
  | push constants rest =>
      cases hMoves with
      | push rest constant => exact constant.append hBefore
  | forget constants rest =>
      cases hMoves with
      | push rest constant => exact (Matches.unknown_of_length constant.length_eq).append hBefore
  | loadMany address count rest =>
      cases hMoves with
      | loadMany rest counted =>
          obtain _ | ⟨_, hCount⟩ := hBefore
          obtain _ | ⟨hCount, hRest⟩ := hCount
          rw [hCount _ rfl] at counted
          exact (Matches.unknown_of_length counted).append hRest
  | storeMany taken_eq =>
      cases hMoves with
      | storeMany counted =>
          obtain _ | ⟨_, hCount⟩ := hBefore
          obtain _ | ⟨hCount, hRest⟩ := hCount
          rw [hCount _ rfl] at counted
          exact Matches.below hRest (taken_eq.trans counted.symm)

/-- What is below does not matter to an effect. -/
theorem Effect.Turns.frame {effect : Effect} {before after : Shape} (h : effect.Turns before after)
    (below : Shape) : effect.Turns (before ++ below) (after ++ below) := by
  cases h with
  | exchange rest takes_eq =>
      rw [List.append_assoc, List.append_assoc]
      exact .exchange (rest ++ below) takes_eq
  | push constants rest =>
      rw [List.append_assoc]
      exact .push constants (before ++ below)
  | forget constants rest =>
      rw [List.append_assoc]
      exact .forget constants (before ++ below)
  | loadMany address count rest =>
      rw [List.append_assoc]
      exact .loadMany address count (rest ++ below)
  | @storeMany address count taken rest counted =>
      have hTurns : Effect.Turns .storeMany (address :: some count :: (taken ++ (after ++ below)))
        (after ++ below) := .storeMany counted
      simpa using hTurns

/-- An effect finds the words that it takes. -/
theorem Effect.Turns.moves {effect : Effect} {before after : Shape} {stack : List Word}
    (h : effect.Turns before after) (hStack : Matches before stack) :
    ∃ left, effect.Moves stack left := by
  have hConstants : ∀ constants : Shape,
      Matches constants (constants.map fun known => known.getD default) :=
    fun constants => by
      rw [Matches, List.forall₂_map_right_iff]
      exact List.forall₂_same.mpr fun known _ w hw => by rw [hw, Option.getD_some]
  cases h with
  | @exchange takes gives taken rest takes_eq =>
      have hLength : takes ≤ stack.length := by
        rw [hStack.length_eq, List.length_append, takes_eq]
        exact Nat.le_add_right _ _
      rw [← List.take_append_drop takes stack]
      have hGiven : (List.replicate gives Word.zero).length = gives := List.length_replicate
      exact ⟨_, .exchange (List.length_take_of_le hLength) hGiven⟩
  | push constants rest => exact ⟨_, .push stack (hConstants constants)⟩
  | forget constants rest => exact ⟨_, .push stack (hConstants constants)⟩
  | loadMany address count rest =>
      obtain _ | ⟨_, hCount⟩ := hStack
      obtain _ | @⟨_, word, _, words, _, _⟩ := hCount
      have hGiven : (List.replicate word.bits.toNat Word.zero).length = word.bits.toNat :=
        List.length_replicate
      exact ⟨_, .loadMany words hGiven⟩
  | @storeMany address count taken rest counted =>
      obtain _ | ⟨_, hCount⟩ := hStack
      obtain _ | @⟨_, word, _, words, hWord, hRest⟩ := hCount
      have hLength : count.bits.toNat ≤ words.length := by
        rw [Matches.length_eq hRest, List.length_append, counted]
        exact Nat.le_add_right _ _
      rw [← hWord _ rfl] at hLength
      rw [← List.take_append_drop word.bits.toNat words]
      exact ⟨_, .storeMany (List.length_take_of_le hLength)⟩

end Lowering
end ScriptBackend
