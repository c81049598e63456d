import ScriptBackend.Proofs.Lowering.BalancedExpressions
import ScriptBackend.Proofs.Machine.Motions

/-!
Code of expressions and assignments on the machine. Statements are gone through
in order; a jump, which in such code goes forward to a label of its own, passes
over the statements in front of the label. What a statement does that is neither
a motion nor a jump is left open: the machine computes and calls in any way.
-/
namespace ScriptBackend.Lowering

open ScriptBackend.Assembly

/-- A machine: where variables are, what the addresses of functions and the
offsets of texts are, and what instructions do that are no motions. -/
structure Machine where
  bases : Bases
  names : String → Word
  texts : String → Word
  others : Statement → Cells → Option Cells

/-- Cells on the way through code, and the label up to which statements are
passed over. -/
structure Passage where
  cells : Cells
  goal : Option String

namespace Machine

def word? (machine : Machine) : Operand → Option Word
  | .int value => some (.ofInt value.toInt)
  | .float value => some (.ofFloat value)
  | .name name => some (machine.names name)
  | _ => none

def word (machine : Machine) : Datum → Word
  | .int value => .ofInt value.toInt
  | .float value => .ofFloat value
  | .text value => machine.texts value
  | .address function => machine.names function

def shorthandMotion? (machine : Machine) (shorthand : Shorthand) (operands : List Operand) :
    Option Motion :=
  match shorthand.rule, operands with
  | .pushConstants, _ => (operands.mapM machine.word?).map .push
  | .pushText, [.text text] => some (.push [machine.texts text])
  | _, [.int number] => shorthand.numberedMotion? number.toInt
  | _, _ => none

/-- The motion of an instruction, if it is one. -/
def motion? (machine : Machine) : Content → Option Motion
  | .instruction mnemonic operands =>
    match Opcode.named? mnemonic with
    | some opcode => if operands = [] then opcode.bareMotion? else none
    | none =>
        (Shorthand.named? mnemonic).bind fun shorthand =>
        machine.shorthandMotion? shorthand operands
  | _ => none

/-- What a statement does where control reaches it. -/
def execute? (machine : Machine) (cells : Cells) (statement : Statement) : Option Passage :=
  match machine.motion? statement.content with
  | some motion => (motion.after? machine.bases cells).map (⟨·, none⟩)
  | none =>
    match statement.content, cells.stack with
    | .empty, _ => some ⟨cells, none⟩
    | .instruction "J" [.name label], _ => some ⟨cells, some label⟩
    | .instruction "JZ" [.name label], word :: rest =>
      some ⟨{ cells with stack := rest }, if word = .zero then some label else none⟩
    | .instruction "JZ" _, [] => none
    | _, _ => (machine.others statement cells).map (⟨·, none⟩)

def pass? (machine : Machine) (passage : Passage) (statement : Statement) : Option Passage :=
  if passage.goal = none ∨ passage.goal = statement.label then
    machine.execute? passage.cells statement
  else some passage

/-- Goes through code from its beginning to its end. -/
def Runs (machine : Machine) (code : Code) (cells next : Cells) : Prop :=
  code.foldlM machine.pass? ⟨cells, none⟩ = some ⟨next, none⟩

section Runs

variable {machine : Machine} {cells middle next : Cells} {first second : Code}

theorem Runs.nil (cells : Cells) : machine.Runs [] cells cells := rfl

/-- Code that leads from some cells to others is followed by what leads on from
there. -/
theorem Runs.append (h : machine.Runs first cells middle)
    (hSecond : machine.Runs second middle next) :
    machine.Runs (first ++ second) cells next := by
  rw [Runs, List.foldlM_append, h]
  exact hSecond

theorem Runs.cons {statement : Statement} {rest : Code} (h : machine.Runs [statement] cells middle)
    (hRest : machine.Runs rest middle next) : machine.Runs (statement :: rest) cells next :=
  h.append hRest

/-- What code does is determined. -/
theorem Runs.unique (h : machine.Runs first cells middle) (hOther : machine.Runs first cells next) :
    middle = next := by
  have hSame := h.symm.trans hOther
  cases hSame
  rfl

/-- An instruction that is a motion leads where the motion does. -/
theorem Runs.motion {statement : Statement} {motion : Motion}
    (h : machine.motion? statement.content = some motion)
    (hAfter : motion.after? machine.bases cells = some next) :
    machine.Runs [statement] cells next := by
  have hStatement : machine.pass? ⟨cells, none⟩ statement = some ⟨next, none⟩ := by
    rw [pass?, if_pos (.inl rfl), execute?, h]
    simp only [hAfter, Option.map_some]
  rw [Runs, List.foldlM_cons, hStatement]
  rfl

/-! Statements that are motions -/

theorem motion?_plain (opcode : Opcode) :
    machine.motion? (plain opcode.mnemonic).content = opcode.bareMotion? := by
  have hContent : (plain opcode.mnemonic).content = .instruction opcode.mnemonic [] := rfl
  simp only [hContent, motion?, Opcode.named?_mnemonic, if_true]

theorem motion?_shorthand {shorthand : Shorthand} (h : shorthand ∈ Shorthand.all)
    (operands : List Operand) :
    machine.motion? (.instruction shorthand.mnemonic operands) =
      machine.shorthandMotion? shorthand operands := by
  obtain ⟨hOpcode, hNamed⟩ := Shorthand.named?_mnemonic h
  simp only [motion?, hOpcode, hNamed, Option.bind_some]

def isNumbered (mnemonic : String) : Bool :=
  Shorthand.all.any fun shorthand =>
    shorthand.mnemonic == mnemonic && shorthand.rule != .pushConstants &&
      shorthand.rule != .pushText

/-- The shorthands with one number all move as their rule says, and the number
is read back as it was written. -/
theorem motion?_counted {mnemonic : String} (h : isNumbered mnemonic = true) {number : Nat}
    (hNumber : number < 2 ^ 63) {motion : Motion}
    (hMotion : ∀ rule, Shorthand.numberedMotion? ⟨mnemonic, rule⟩ number = some motion) :
    machine.motion? (counted mnemonic [number]).content = some motion := by
  obtain ⟨shorthand, hAll, hShorthand⟩ := List.any_eq_true.mp h
  simp only [Bool.and_eq_true, beq_iff_eq, bne_iff_ne, ne_eq] at hShorthand
  obtain ⟨⟨rfl, hConstants⟩, hText⟩ := hShorthand
  have hContent : (counted shorthand.mnemonic [number]).content =
      .instruction shorthand.mnemonic [.int (Int64.ofNat number)] := rfl
  rw [hContent, motion?_shorthand hAll, ← hMotion shorthand.rule]
  obtain ⟨mnemonic, rule⟩ := shorthand
  cases rule with
  | pushConstants => exact absurd rfl hConstants
  | pushText => exact absurd rfl hText
  | _ => simp only [shorthandMotion?, Int64.toInt_ofNat_of_lt hNumber]

/-- Operands are pushed in order, if each of them denotes a word. -/
theorem motion?_push (operands : List Operand) :
    machine.motion? (.instruction "PUSH_CONST" operands) =
      (operands.mapM machine.word?).map .push := by
  have hAll : ⟨"PUSH_CONST", .pushConstants⟩ ∈ Shorthand.all := by simp [Shorthand.all]
  exact motion?_shorthand hAll operands

theorem motion?_pushText (text : String) :
    machine.motion? (.instruction "PUSH_STRING" [.text text]) =
      some (.push [machine.texts text]) := by
  have hAll : ⟨"PUSH_STRING", .pushText⟩ ∈ Shorthand.all := by simp [Shorthand.all]
  exact motion?_shorthand hAll [.text text]

end Runs

/-- A way in which code acts on cells: where it accesses allowed positions only,
a motion does what it does on the machine, and code does what its parts do one
after the other. -/
structure Execution (machine : Machine) where
  allowed : Nat → Prop
  runs : Code → Cells → Cells → Prop
  nil : ∀ cells, runs [] cells cells
  append : ∀ {first second cells middle next}, runs first cells middle → runs second middle next →
    runs (first ++ second) cells next
  motion : ∀ {statement : Statement} {motion : Motion} {cells next : Cells},
    machine.motion? statement.content = some motion →
    motion.after? machine.bases cells = some next →
    (∀ i, motion.Accesses machine.bases cells i → allowed i) → runs [statement] cells next

/-- The machine itself, on which every position may be accessed. -/
def plainly (machine : Machine) : machine.Execution where
  allowed := fun _ => True
  runs := machine.Runs
  nil := Runs.nil
  append := Runs.append
  motion := fun hMotion hAfter _ => .motion hMotion hAfter

theorem Execution.cons {machine : Machine} (ways : machine.Execution)
    {statement : Statement} {rest : Code}
    {cells middle next : Cells} (h : ways.runs [statement] cells middle)
    (hRest : ways.runs rest middle next) :
    ways.runs (statement :: rest) cells next :=
  ways.append h hRest

/-! Pushes -/

section Pushes

variable {machine : Machine} (ways : machine.Execution) {cells : Cells}

/-- What is pushed are the words of the operands, the last one on top. -/
theorem Execution.push {statement : Statement} {operands : List Operand} {words : List Word}
    (hContent : statement.content = .instruction "PUSH_CONST" operands)
    (h : operands.mapM machine.word? = some words) :
    ways.runs [statement] cells { cells with stack := words.reverse ++ cells.stack } := by
  have hMotion : machine.motion? statement.content = some (.push words) := by
    rw [hContent, motion?_push, h]
    rfl
  exact ways.motion hMotion rfl fun _ hAccess => hAccess.elim

/-- A count is pushed as the word that loads and stores of many words read. -/
theorem Execution.pushCount (size : Nat) :
    ways.runs [counted "PUSH_CONST" [size]] cells
      { cells with stack := countWord size :: cells.stack } := by
  have hWords : [Operand.int (Int64.ofNat size)].mapM machine.word? = some [countWord size] := rfl
  exact ways.push rfl hWords

/-- Numbers can be pushed together, and a name by itself. -/
theorem mapM_operand {words : List Datum}
    (h : ∀ word ∈ words, word.isNumber = true ∨ words = [word])
    (hNoText : ∀ text, words ≠ [.text text]) :
    (words.map Datum.operand).mapM machine.word? = some (words.map machine.word) := by
  have hWords : ∀ word ∈ words, machine.word? word.operand = some (machine.word word) := by
    intro word hWord
    cases word with
    | text value =>
        rcases h _ hWord with hNumber | hSingle
        · cases hNumber
        · exact absurd hSingle (hNoText value)
    | _ => rfl
  clear h hNoText
  induction words with
  | nil => rfl
  | cons word rest ih =>
      rw [List.forall_mem_cons] at hWords
      rw [List.map_cons, List.mapM_cons, hWords.1, ih hWords.2]
      rfl

/-- A run of data is pushed by one instruction. -/
theorem Execution.pushRun {run : List Datum}
    (hChain : run.IsChain fun a b => (a.isNumber && b.isNumber) = true) :
    ways.runs [Lowering.pushRun run] cells
      { cells with stack := (run.map machine.word).reverse ++ cells.stack } := by
  unfold Lowering.pushRun
  split
  · next text =>
      exact ways.motion (motion?_pushText text) rfl fun _ hAccess => hAccess.elim
  · next hNoText =>
      exact ways.push rfl (mapM_operand (fun word hWord =>
        isNumber_of_isChain hChain hWord) hNoText)

/-- Runs of data are pushed one behind the other, which leaves all of their
words. -/
theorem Execution.pushRuns {runs : List (List Datum)}
    (h : ∀ run ∈ runs, run.IsChain fun a b => (a.isNumber && b.isNumber) = true) :
    ways.runs (runs.map Lowering.pushRun) cells
      { cells with stack := (runs.flatten.map machine.word).reverse ++ cells.stack } := by
  induction runs generalizing cells with
  | nil => exact ways.nil cells
  | cons run rest ih =>
      rw [List.forall_mem_cons] at h
      have hFirst := @pushRun machine ways cells run h.1
      simpa using ways.cons hFirst (ih h.2)

/-- Code that pushes words leaves them on the stack, the last one on top. -/
theorem Execution.pushData (words : List Datum) :
    ways.runs (Lowering.pushData words) cells
      { cells with stack := (words.map machine.word).reverse ++ cells.stack } := by
  have hWords := List.flatten_splitBy (fun a b : Datum => a.isNumber && b.isNumber) words
  have hRuns := @pushRuns machine ways cells (words.splitBy fun a b => a.isNumber && b.isNumber)
    fun run hRun => List.isChain_of_mem_splitBy hRun
  rwa [hWords] at hRuns

end Pushes

/-! Accesses -/

def suffix : Access → String
  | .locate => ""
  | .load => "_LOAD"
  | .store => "_STORE"

def location (slot : Slot) : Location :=
  match slot.region with
  | .globals => .globals slot.index
  | .statics | .arguments => .statics slot.index
  | .locals | .parameters => .frame slot.index

def position (machine : Machine) (slot : Slot) : Nat :=
  match slot.region with
  | .globals => machine.bases.globals slot.index
  | .statics | .arguments => machine.bases.statics + slot.index
  | .locals | .parameters => machine.bases.frame + slot.index

section Accesses

variable {machine : Machine} (ways : machine.Execution) {statement : Statement} {kind : Access}
  {word : Word} {stack : List Word} {memory : Memory} {cells next : Cells}

/-- An access that does more than locate a word needs its position to be allowed. -/
theorem Execution.access {location : Location} {rest : List Word}
    (hMotion : machine.motion? statement.content = some (.access location kind))
    (hAddress : location.address? machine.bases cells.stack = some (word, rest))
    (hAfter : kind.after? word { cells with stack := rest } = some next)
    (hAllowed : kind ≠ .locate → ways.allowed word.position) :
    ways.runs [statement] cells next := by
  refine ways.motion hMotion ?_ fun i hAccess => ?_
  · rw [Motion.after?, hAddress]
    exact hAfter
  · obtain ⟨hKind, _, _, hFound, rfl⟩ := hAccess
    cases hFound.symm.trans hAddress
    exact hAllowed hKind

theorem isNumbered_slot (region : Region) (kind : Access) :
    isNumbered (Region.mnemonic region ++ suffix kind) = true := by
  cases region <;> cases kind <;> decide

/-- The mnemonic for a slot is made of its region and the kind of access, and
means just that. -/
theorem numberedMotion?_slot (slot : Slot) (kind : Access) (rule : Rule) :
    Shorthand.numberedMotion? ⟨Region.mnemonic slot.region ++ suffix kind, rule⟩ slot.index =
      some (.access (location slot) kind) := by
  obtain ⟨region, index⟩ := slot
  cases region <;> cases kind <;> rfl

/-- A slot has its address without any word of the stack. -/
theorem address?_slot (slot : Slot) (stack : List Word) :
    (location slot).address? machine.bases stack =
      some (addressOf (machine.position slot), stack) := by
  obtain ⟨region, index⟩ := slot
  cases region <;> rfl

/-- An instruction that accesses a variable. -/
theorem Execution.slot {slot : Slot}
    (hContent : statement.content =
      (counted (Region.mnemonic slot.region ++ suffix kind) [slot.index]).content)
    (hIndex : slot.index < 2 ^ 63)
    (hAfter : kind.after? (addressOf (machine.position slot)) cells = some next)
    (hAllowed : kind ≠ .locate → ways.allowed (addressOf (machine.position slot)).position) :
    ways.runs [statement] cells next := by
  have hMotion := @motion?_counted machine _ (isNumbered_slot slot.region kind) _ hIndex _
    (numberedMotion?_slot slot kind)
  rw [← hContent] at hMotion
  exact ways.access hMotion (address?_slot slot cells.stack) hAfter hAllowed

/-- An instruction that accesses words behind an address. -/
theorem Execution.behind {offset : Nat}
    (hContent : statement.content = (counted ("IOFFSET_CONST" ++ suffix kind) [offset]).content)
    (hOffset : offset < 2 ^ 63)
    (hAfter : kind.after? (word.moved (Int32.ofNat offset)) ⟨stack, memory⟩ = some next)
    (hAllowed : kind ≠ .locate → ways.allowed (word.moved (Int32.ofNat offset)).position) :
    ways.runs [statement] ⟨word :: stack, memory⟩ next := by
  have hNumbered : isNumbered ("IOFFSET_CONST" ++ suffix kind) = true := by cases kind <;> decide
  have hMotion :=
    @motion?_counted machine _ hNumbered _ hOffset (.access (.behind (Int32.ofInt offset)) kind)
    fun rule => by cases kind <;> rfl
  rw [← hContent] at hMotion
  exact ways.access hMotion rfl hAfter hAllowed

/-- An instruction that accesses an item of an array. -/
theorem Execution.item {index : Word} {size : Nat}
    (hContent : statement.content = (counted ("ARRAY" ++ suffix kind) [size]).content)
    (hSize : size < 2 ^ 63)
    (hAfter : kind.after? (word.item index size) ⟨stack, memory⟩ = some next)
    (hAllowed : kind ≠ .locate → ways.allowed (word.item index size).position) :
    ways.runs [statement] ⟨word :: index :: stack, memory⟩ next := by
  have hNumbered : isNumbered ("ARRAY" ++ suffix kind) = true := by cases kind <;> decide
  have hMotion := @motion?_counted machine _ hNumbered _ hSize (.access (.item size) kind)
    fun rule => by cases kind <;> rfl
  rw [← hContent] at hMotion
  exact ways.access hMotion rfl hAfter hAllowed

/-- Moving an address by an offset. -/
theorem Execution.atOffset {offset : Nat} (hOffset : offset < 2 ^ 63) :
    ways.runs (Lowering.atOffset offset) ⟨word :: stack, memory⟩
      ⟨word.moved (Int32.ofNat offset) :: stack, memory⟩ := by
  unfold Lowering.atOffset
  split
  · next hZero =>
      have hSame : word.moved (Int32.ofNat offset) = word := by
        rw [hZero]
        exact word.moved_zero
      rw [hSame]
      exact ways.nil _
  · exact @behind machine ways _ .locate word stack memory _ offset rfl hOffset rfl
      fun hKind => (hKind rfl).elim

end Accesses

/-! Many words -/

section ManyWords

variable {machine : Machine} (ways : machine.Execution) {statement : Statement} {address : Word}
  {stack : List Word} {memory : Memory}

/-- Many words are loaded from an address if all of them may be accessed. -/
theorem Execution.loadMany {size : Nat} (hContent : statement.content = (plain "LOAD_N").content)
    (hSize : size < wordLimit)
    (hAllowed : ∀ i, address.position ≤ i → i < address.position + size → ways.allowed i) :
    ways.runs [statement] ⟨address :: countWord size :: stack, memory⟩
      ⟨(wordsAt memory address.position size).reverse ++ stack, memory⟩ := by
  have hMotion := (congrArg machine.motion? hContent).trans (motion?_plain .loadN)
  refine ways.motion hMotion ?_ fun i hAccess => ?_
  · simp only [Motion.after?, countWord_toNat hSize]
  · simp only [Motion.Accesses, countWord_toNat hSize] at hAccess
    exact hAllowed i hAccess.1 hAccess.2

/-- Many words are stored to an address if all of them may be accessed. -/
theorem Execution.storeMany {words : List Word}
    (hContent : statement.content = (plain "STORE_N").content) (hSize : words.length < wordLimit)
    (hAllowed : ∀ i, address.position ≤ i → i < address.position + words.length → ways.allowed i) :
    ways.runs [statement] ⟨address :: countWord words.length :: (words.reverse ++ stack), memory⟩
      ⟨stack, written memory address.position words⟩ := by
  have hMotion := (congrArg machine.motion? hContent).trans (motion?_plain .storeN)
  have hEnough : words.length ≤ (words.reverse ++ stack).length := by simp
  refine ways.motion hMotion ?_ fun i hAccess => ?_
  · simp only [Motion.after?, countWord_toNat hSize, if_pos hEnough]
    simp
  · simp only [Motion.Accesses, countWord_toNat hSize] at hAccess
    exact hAllowed i hAccess.1 hAccess.2

end ManyWords

end Machine
end ScriptBackend.Lowering
