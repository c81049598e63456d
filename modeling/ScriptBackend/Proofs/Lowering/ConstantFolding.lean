import ScriptBackend.Proofs.Lowering.KnownWords
import ScriptBackend.Proofs.Lowering.Rules
import ScriptBackend.Proofs.Lowering.ShortCircuit

/-!
Constant folding and the code that it replaces. Where every operand of an
expression has words of the kind that its type says, the code of the expression
leaves the words that folding finds, also with folding switched off.
-/
namespace ScriptBackend.Lowering

open ScriptBackend.Assembly

namespace Machine

variable {machine : Machine}

/-! Short circuits -/

/-- Code that leaves a word behind which a chain goes on, or from which control
is already on its way to the end of the chain because the word decides. -/
def Settles (machine : Machine) (op : BinaryOp) (finish : String) (code : Code)
    (word : Word) : Prop :=
  ∀ stack memory, ∃ goal, code.foldlM machine.pass? ⟨⟨stack, memory⟩, none⟩ =
    some ⟨⟨word :: stack, memory⟩, goal⟩ ∧
    (goal = none ∨ goal = some finish ∧ decides op word = true)

section ShortCircuits

variable {op : BinaryOp} {finish : String} {first second : Code} {word other : Word}

/-- Code that does not define a label is passed over on the way to the label. -/
theorem foldlM_pass?_over {label : String} {code : Code}
    (h : label ∉ definedLabels code) (cells : Cells) :
    code.foldlM machine.pass? ⟨cells, some label⟩ = some ⟨cells, some label⟩ := by
  induction code with
  | nil => rfl
  | cons statement rest ih =>
      rw [definedLabels_cons, List.mem_append, not_or] at h
      have hOther : ¬(some label = none ∨ some label = statement.label) := by
        rintro (hNone | hSame)
        · cases hNone
        · exact h.1 (by simp [← hSame])
      rw [List.foldlM_cons, pass?, if_neg hOther]
      exact ih h.2

/-- A test takes its word from the stack and goes on to the label if the word is
zero. -/
theorem pass?_test (label : String) (tested : Word) (stack : List Word) (memory : Memory) :
    machine.pass? ⟨⟨tested :: stack, memory⟩, none⟩ (naming "JZ" label) =
      some ⟨⟨stack, memory⟩, if tested = .zero then some label else none⟩ := by
  have hMotion : machine.motion? (naming "JZ" label).content = none := by
    have hContent : (naming "JZ" label).content =
        .instruction (Opcode.mnemonic .jz) [.name label] := rfl
    rw [hContent, motion?, Opcode.named?_mnemonic]
    rfl
  rw [pass?, if_pos (.inl rfl), execute?, hMotion]
  rfl

/-- A decision goes to the end of the chain with a word that decides, and drops
any other word. -/
theorem foldlM_decision (hMachine : machine.Computes) (word : Word) (stack : List Word)
    (memory : Memory) : (decision op finish).foldlM machine.pass? ⟨⟨word :: stack, memory⟩, none⟩ =
      some (if decides op word then ⟨⟨word :: stack, memory⟩, some finish⟩
        else ⟨⟨stack, memory⟩, none⟩) := by
  have hCopy : machine.Runs [plain "DUP"] ⟨word :: stack, memory⟩ ⟨word :: word :: stack, memory⟩ :=
    .motion (motion?_plain .dup) rfl
  have hDrop : machine.Runs [plain "DROP"] ⟨word :: stack, memory⟩ ⟨stack, memory⟩ :=
    .motion (motion?_plain .drop) rfl
  have hTest : ∀ (before : Code) (tested : Word),
      machine.Runs before ⟨word :: stack, memory⟩ ⟨tested :: word :: stack, memory⟩ →
      (before ++ [naming "JZ" finish, plain "DROP"]).foldlM machine.pass?
        ⟨⟨word :: stack, memory⟩, none⟩ =
        some (if tested = .zero then ⟨⟨word :: stack, memory⟩, some finish⟩
          else ⟨⟨stack, memory⟩, none⟩) := by
    intro before tested hBefore
    rw [List.foldlM_append, hBefore, Option.bind_eq_bind, Option.bind_some,
      List.foldlM_cons, pass?_test, Option.bind_eq_bind, Option.bind_some]
    by_cases hZero : tested = .zero
    · rw [if_pos hZero, if_pos hZero]
      exact foldlM_pass?_over (by simp) _
    · rw [if_neg hZero, if_neg hZero, ← Runs]
      exact hDrop
  by_cases hOr : op = .or
  · have hNot : machine.Runs [plain "INOT"] ⟨word :: word :: stack, memory⟩
        ⟨.ofBool (word == .zero) :: word :: stack, memory⟩ := .computed hMachine .inot rfl rfl
    have hCode : decision op finish = ([plain "DUP"] ++ [plain "INOT"]) ++
        [naming "JZ" finish, plain "DROP"] := by
      rw [decision, if_pos hOr]
      rfl
    have hNegated : Word.ofBool (word == .zero) = .zero ↔ decides op word = true := by
      rw [decides, if_pos hOr, bne]
      cases word == .zero <;> decide
    simp only [hCode, hTest _ _ (hCopy.append hNot), hNegated]
  · have hCode : decision op finish = [plain "DUP"] ++ [naming "JZ" finish, plain "DROP"] := by
      rw [decision, if_neg hOr]
    have hZero : word = .zero ↔ decides op word = true := by
      rw [decides, if_neg hOr, beq_iff_eq]
    simp only [hCode, hTest _ _ hCopy, hZero]

namespace Settles

theorem of_replaces (h : machine.Replaces first [] [word]) : machine.Settles op finish first word :=
  fun stack memory => ⟨none, h stack memory, .inl rfl⟩

/-- Operands behind a decision. -/
theorem next (hMachine : machine.Computes) (h : machine.Settles op finish first word)
    (hSecond : machine.Settles op finish second other) (hFinish : finish ∉ definedLabels second) :
    machine.Settles op finish (first ++ decision op finish ++ second)
      (if decides op word then word else other) := by
  have hDecision : finish ∉ definedLabels (decision op finish) := by simp
  intro stack memory
  obtain ⟨goal, hFirst, hGoal⟩ := h stack memory
  rw [List.append_assoc, List.foldlM_append, hFirst, Option.bind_eq_bind, Option.bind_some]
  rcases hGoal with rfl | ⟨rfl, hDecides⟩
  · rw [List.foldlM_append, foldlM_decision hMachine, Option.bind_eq_bind, Option.bind_some]
    by_cases hDecides : decides op word = true
    · rw [if_pos hDecides, if_pos hDecides]
      exact ⟨some finish, foldlM_pass?_over hFinish _, .inr ⟨rfl, hDecides⟩⟩
    · rw [if_neg hDecides, if_neg hDecides]
      exact hSecond stack memory
  · rw [if_pos hDecides]
    refine ⟨some finish, foldlM_pass?_over ?_ _, .inr ⟨rfl, hDecides⟩⟩
    rw [definedLabels_append, List.mem_append, not_or]
    exact ⟨hDecision, hFinish⟩

/-- Behind its end label a chain has left its word. -/
theorem close (h : machine.Settles op finish first word) :
    machine.Replaces (first ++ [.ofLabel finish]) [] [word] := by
  intro stack memory
  obtain ⟨goal, hFirst, hGoal⟩ := h stack memory
  have hArrived : goal = none ∨ goal = (Statement.ofLabel finish).label := hGoal.imp_right And.left
  have hLabel : machine.pass? ⟨⟨word :: stack, memory⟩, goal⟩ (.ofLabel finish) =
      some ⟨⟨word :: stack, memory⟩, none⟩ := by
    rw [pass?, if_pos hArrived]
    rfl
  rw [Runs, List.foldlM_append, List.reverse_nil, List.nil_append, hFirst,
    Option.bind_eq_bind, Option.bind_some, List.foldlM_cons, hLabel]
  rfl

end Settles

/-- The word of a truth value that a chain of truth values leaves. -/
theorem decided_eq (hShort : op.isShortCircuit = true) (a b : Bool) :
    ∃ result, Datum.fold op (.ofBool a) (.ofBool b) = some (.ofBool result) ∧
      (if decides op (.ofBool a) then Word.ofBool a else .ofBool b) = .ofBool result := by
  cases op with
  | and => cases a <;> cases b <;> exact ⟨_, rfl, rfl⟩
  | or => cases a <;> cases b <;> exact ⟨_, rfl, rfl⟩
  | _ => cases hShort

end ShortCircuits
end Machine

/-! Expressions -/

/-- Whether an expression has known words that are a value of its type. -/
def isTyped (setting : Setting) (e : Expr) : Bool :=
  (fold? setting.program e).any (isValueOf e.ty)

def isTruth (setting : Setting) (e : Expr) : Bool :=
  (fold? setting.program e).any fun words => words == [.ofBool true] || words == [.ofBool false]

/-- Whether operands have words of the kinds that their types say, wherever code
depends on types and folding on kinds: operands of chains are truth values, all
others values of their types; an operator on floats has no operands but numbers,
a conversion is one between types that can be converted, and one to a float is
from a number. A constant may be used where its use counts as known. -/
def kindsAgree (setting : Setting) : Expr → Bool
  | .vector _ x y z =>
    kindsAgree setting x && kindsAgree setting y && kindsAgree setting z &&
      (isTyped setting x && isTyped setting y && isTyped setting z)
  | .var info _ => info.isConstant
  | .neg _ operand => kindsAgree setting operand && isTyped setting operand
  | .not _ operand => kindsAgree setting operand
  | .binary _ op left right =>
    kindsAgree setting left && kindsAgree setting right &&
      if op.isShortCircuit then isTruth setting left && isTruth setting right
      else
        isTyped setting left && isTyped setting right &&
          ((left.ty != .float && right.ty != .float) || (isScalar left.ty && isScalar right.ty))
  | .convert info operand =>
    kindsAgree setting operand && isTyped setting operand &&
      (conversion setting.sizes operand.ty info.ty).isOk &&
        (info.ty != .float || isScalar operand.ty)
  | .member .. | .index .. | .call .. | .callNative .. | .callThrough .. => false
  | _ => true

section Expressions

variable {setting : Setting} {e : Expr} {words : List Datum}

/-- An expression whose kinds agree folds to words of its own type. -/
theorem isValueOf_of_isTyped (h : isTyped setting e = true)
    (hWords : fold? setting.program e = some words) :
    isValueOf e.ty words = true := by
  rwa [isTyped, hWords] at h

theorem exists_truth (h : isTruth setting e = true) :
    ∃ holds, fold? setting.program e = some [.ofBool holds] := by
  unfold isTruth at h
  cases hWords : fold? setting.program e with
  | none => simp [hWords] at h
  | some words =>
      rw [hWords, Option.any_some, Bool.or_eq_true, beq_iff_eq, beq_iff_eq] at h
      rcases h with rfl | rfl
      · exact ⟨true, rfl⟩
      · exact ⟨false, rfl⟩

/-- A chain whose kinds agree is one of truth values, and so is the word that
its code leaves. -/
theorem exists_truths {info : Info} {op : BinaryOp} {left right : Expr}
    (hShort : op.isShortCircuit = true)
    (hKinds : kindsAgree setting (.binary info op left right) = true)
    (hWords : fold? setting.program (.binary info op left right) = some words) :
    kindsAgree setting left = true ∧ kindsAgree setting right = true ∧
      ∃ a b result, fold? setting.program left = some [.ofBool a] ∧
        fold? setting.program right = some [.ofBool b] ∧ words = [.ofBool result] ∧
        (if decides op (.ofBool a) then Word.ofBool a else .ofBool b) = .ofBool result := by
  simp only [kindsAgree, hShort, if_true, Bool.and_eq_true] at hKinds
  obtain ⟨⟨hLeftKinds, hRightKinds⟩, hLeftTruth, hRightTruth⟩ := hKinds
  obtain ⟨a, hLeft⟩ := exists_truth hLeftTruth
  obtain ⟨b, hRight⟩ := exists_truth hRightTruth
  obtain ⟨result, hFold, hDecided⟩ := Machine.decided_eq hShort a b
  refine ⟨hLeftKinds, hRightKinds, a, b, result, hLeft, hRight, ?_, hDecided⟩
  unfold fold? at hWords hLeft hRight
  rw [foldWith, hLeft, hRight] at hWords
  simpa [single?, hFold, eq_comm] using hWords

end Expressions

namespace Machine

section Values

variable {machine : Machine} {environment : Environment} {constant : Expr → Gen Code}
  {op : BinaryOp} {k : Nat}

/-- The code of an operand of a chain settles on the known word of the operand. -/
def SettlesOperand (machine : Machine) (environment : Environment)
    (constant : Expr → Gen Code) (op : BinaryOp) (k : Nat) (e : Expr) : Prop :=
  ∀ word, fold? environment.program e = some [word] → kindsAgree environment.toSetting e = true →
    ∀ n, k < n → ∃ code m,
      (if continuesChain op e then chain environment constant op (chainEnd op k) e
        else value environment constant e).run n = .ok (code, m) ∧
      machine.Settles op (chainEnd op k) code (machine.word word)

/-- An operand settles if it does as a node of the chain, or else as a value. -/
theorem settlesOperand {e : Expr}
    (hChain : ∀ word, continuesChain op e = true → fold? environment.program e = some [word] →
      kindsAgree environment.toSetting e = true → ∀ n, k < n → ∃ code m,
        (chain environment constant op (chainEnd op k) e).run n = .ok (code, m) ∧
        machine.Settles op (chainEnd op k) code (machine.word word))
    (hValue : ∀ words, fold? environment.program e = some words →
      kindsAgree environment.toSetting e = true →
      ∀ n, ∃ code m, (value environment constant e).run n = .ok (code, m) ∧
        machine.Replaces code [] (words.map machine.word)) :
    machine.SettlesOperand environment constant op k e := by
  intro word hWord hKinds n hNumber
  cases hContinues : continuesChain op e with
  | true => simpa [hContinues] using hChain word hContinues hWord hKinds n hNumber
  | false =>
      obtain ⟨code, m, hRun, hCode⟩ := hValue _ hWord hKinds n
      exact ⟨code, m, by simpa [hContinues] using hRun, .of_replaces hCode⟩

/-- The code of a node of a chain, whose operands settle on their known words,
settles on the word of the node. -/
theorem exists_node (hMachine : machine.Computes)
    (hConstant : ∀ e, Closed (constant e)) {info : Info}
    {left right : Expr} {words : List Datum} (hShort : op.isShortCircuit = true)
    (hLeft : machine.SettlesOperand environment constant op k left)
    (hRight : machine.SettlesOperand environment constant op k right)
    (hWords : fold? environment.program (.binary info op left right) = some words)
    (hKinds : kindsAgree environment.toSetting (.binary info op left right) = true) {n : Nat}
    (hNumber : k < n) :
    ∃ first middle second m word,
      (if continuesChain op left then chain environment constant op (chainEnd op k) left
        else value environment constant left).run n = .ok (first, middle) ∧
      (if continuesChain op right then chain environment constant op (chainEnd op k) right
        else value environment constant right).run middle = .ok (second, m) ∧
      words = [word] ∧
      machine.Settles op (chainEnd op k) (first ++ decision op (chainEnd op k) ++ second)
        (machine.word word) := by
  have hClosed : ∀ e, Closed
      (if continuesChain op e then chain environment constant op (chainEnd op k) e
      else value environment constant e) := by
    intro e
    split
    · exact closed_chain hConstant op _ e
    · exact closed_value hConstant e
  obtain ⟨hLeftKinds, hRightKinds, a, b, result, hLeftWord, hRightWord, rfl, hDecided⟩ :=
    exists_truths hShort hKinds hWords
  obtain ⟨first, middle, hFirst, hFirstCode⟩ := hLeft _ hLeftWord hLeftKinds n hNumber
  have hMiddle := (hClosed left).le hFirst
  obtain ⟨second, m, hSecond, hSecondCode⟩ := hRight _ hRightWord hRightKinds middle (by omega)
  -- the end of the chain has a smaller number than any label of the second operand
  have hFinish : chainEnd op k ∉ definedLabels second := fun hLabel =>
    (marked_chainEnd op k).ne_of_owned ((hClosed right).owned hSecond _ hLabel)
      (.inl (by omega)) rfl
  have hBoth := hFirstCode.next hMachine hSecondCode hFinish
  rw [word_ofBool, word_ofBool, hDecided] at hBoth
  refine ⟨first, middle, second, m, _, hFirst, hSecond, rfl, ?_⟩
  rwa [word_ofBool]

mutual

/-- The code of an expression whose kinds agree leaves the words that folding
finds, by induction on the expression. -/
theorem exists_value (hMachine : machine.Computes) (hConstant : ∀ e, Closed (constant e)) :
    ∀ (e : Expr) (words : List Datum), fold? environment.program e = some words →
      kindsAgree environment.toSetting e = true → ∀ n, ∃ code m,
        (value environment constant e).run n = .ok (code, m) ∧
        machine.Replaces code [] (words.map machine.word) := by
  intro e words hWords hKinds n
  cases hKnown : knownWords? environment.toSetting e with
  | some found =>
      cases hWords.symm.trans (fold?_of_known hKnown)
      exact ⟨_, n, value_known hKnown constant n, .push words⟩
  | none =>
  rw [value.eq_def, hKnown]
  cases e with
  | int | bool | text | null =>
      cases hWords
      exact ⟨_, n, rfl, .push _⟩
  | float info number =>
      obtain ⟨finite, hFinite, rfl⟩ := Option.map_eq_some_iff.mp hWords
      obtain ⟨hNumber, hSame⟩ := Option.ite_none_right_eq_some.mp hFinite
      cases hSame
      dsimp only
      rw [if_pos hNumber]
      exact ⟨_, n, rfl, .push _⟩
  | vector info x y z =>
      simp only [kindsAgree, Bool.and_eq_true] at hKinds
      obtain ⟨⟨⟨hXKinds, hYKinds⟩, hZKinds⟩, ⟨hXTyped, hYTyped⟩, hZTyped⟩ := hKinds
      simp only [fold?, foldWith, Option.bind_eq_bind, Option.bind_eq_some_iff] at hWords
      obtain ⟨_, hX, _, hXWord, _, hXFloat, _, hY, _, hYWord, _, hYFloat, _, hZ, _,
        hZWord, _, hZFloat, h⟩ := hWords
      cases h
      rw [single?_eq_some hXWord] at hX
      rw [single?_eq_some hYWord] at hY
      rw [single?_eq_some hZWord] at hZ
      obtain ⟨first, n₁, hFirst, hFirstCode⟩ := exists_value hMachine hConstant x _ hX hXKinds n
      obtain ⟨second, n₂, hSecond, hSecondCode⟩ := exists_value hMachine hConstant y _ hY hYKinds n₁
      obtain ⟨third, n₃, hThird, hThirdCode⟩ := exists_value hMachine hConstant z _ hZ hZKinds n₂
      refine ⟨_, n₃, run_bind_eq_ok.mpr ⟨first, n₁, hFirst, run_bind_eq_ok.mpr ⟨second, n₂, hSecond,
        run_bind_eq_ok.mpr ⟨third, n₃, hThird, rfl⟩⟩⟩, ?_⟩
      have hXCode :=
        hFirstCode.append (replaces_component hMachine (isValueOf_of_isTyped hXTyped hX) hXFloat)
      have hYCode :=
        hSecondCode.append (replaces_component hMachine (isValueOf_of_isTyped hYTyped hY) hYFloat)
      have hZCode :=
        hThirdCode.append (replaces_component hMachine (isValueOf_of_isTyped hZTyped hZ) hZFloat)
      exact (hXCode.append (hYCode.frame [_])).append (hZCode.frame [_, _])
  | var info id =>
      have hConstantUse : info.isConstant = true := hKinds
      rw [knownWords?, Expr.isConstant, Expr.info, if_pos hConstantUse, hWords] at hKnown
      cases hKnown
  | functionRef info id =>
      obtain ⟨name, hName, rfl⟩ := Option.map_eq_some_iff.mp hWords
      have hFunction : functionName environment.toSetting id = .ok name := by
        rw [functionName, hName]
      refine ⟨_, n, run_lift_bind_eq_ok.mpr ⟨name, hFunction, rfl⟩, fun stack memory => ?_⟩
      exact machine.plainly.push rfl rfl
  | neg info operand =>
      simp only [kindsAgree, Bool.and_eq_true] at hKinds
      obtain ⟨found, hOperand, hOpposites⟩ := Option.bind_eq_some_iff.mp hWords
      obtain ⟨code, m, hRun, hCode⟩ :=
        exists_value hMachine hConstant operand found hOperand hKinds.1 n
      refine ⟨_, m, run_bind_eq_ok.mpr ⟨code, m, hRun, rfl⟩, ?_⟩
      exact hCode.append (replaces_neg hMachine (isValueOf_of_isTyped hKinds.2 hOperand) hOpposites)
  | not info operand =>
      simp only [fold?, foldWith, Option.bind_eq_bind, Option.bind_eq_some_iff] at hWords
      obtain ⟨found, hOperand, word, hWord, opposite, hOpposite, h⟩ := hWords
      cases h
      rw [single?_eq_some hWord] at hOperand
      obtain ⟨code, m, hRun, hCode⟩ := exists_value hMachine hConstant operand _ hOperand hKinds n
      refine ⟨_, m, run_bind_eq_ok.mpr ⟨code, m, hRun, rfl⟩, ?_⟩
      exact hCode.append (replaces_not hMachine hOpposite)
  | binary info op left right =>
      dsimp only
      by_cases hShort : op.isShortCircuit = true
      · rw [if_pos hShort]
        obtain ⟨first, middle, second, m, word, hFirst, hSecond, rfl, hBoth⟩ :=
          exists_node hMachine hConstant hShort
            (settlesOperand (exists_chain hMachine hConstant op n hShort left)
              (exists_value hMachine hConstant left))
            (settlesOperand (exists_chain hMachine hConstant op n hShort right)
              (exists_value hMachine hConstant right))
            hWords hKinds (Nat.lt_succ_self n)
        exact ⟨_, m, run_bind_eq_ok.mpr ⟨n, n + 1, run_freshNumber_eq_ok.mpr ⟨rfl, rfl⟩,
          run_either_eq_ok.mpr
          ⟨first, middle, hFirst, run_either_eq_ok.mpr ⟨second, m, hSecond, rfl⟩⟩⟩, hBoth.close⟩
      · simp only [kindsAgree, Bool.and_eq_true] at hKinds
        obtain ⟨⟨hLeftKinds, hRightKinds⟩, hOperands⟩ := hKinds
        simp only [fold?, foldWith, Option.bind_eq_bind, Option.bind_eq_some_iff] at hWords
        obtain ⟨_, hLeft, a, hA, _, hRight, b, hB, result, hFold, h⟩ := hWords
        cases h
        rw [single?_eq_some hA] at hLeft
        rw [single?_eq_some hB] at hRight
        rw [if_neg hShort] at hOperands ⊢
        simp only [Bool.and_eq_true] at hOperands
        obtain ⟨⟨hLeftTyped, hRightTyped⟩, hTypes⟩ := hOperands
        obtain ⟨first, middle, hFirst, hFirstCode⟩ :=
          exists_value hMachine hConstant left _ hLeft hLeftKinds n
        obtain ⟨second, m, hSecond, hSecondCode⟩ :=
          exists_value hMachine hConstant right _ hRight hRightKinds middle
        obtain ⟨family, mnemonic, hOperation, hCode⟩ :=
          exists_operation hMachine (Bool.eq_false_iff.mpr hShort)
          (isValueOf_of_isTyped hLeftTyped hLeft) (isValueOf_of_isTyped hRightTyped hRight)
            (by simpa using hTypes)
          hFold hFirstCode hSecondCode
        exact ⟨_, m, run_lift_bind_eq_ok.mpr ⟨(family, mnemonic), hOperation, run_bind_eq_ok.mpr
          ⟨first, middle, hFirst, run_bind_eq_ok.mpr ⟨second, m, hSecond, rfl⟩⟩⟩, hCode⟩
  | convert info operand =>
      simp only [kindsAgree, Bool.and_eq_true] at hKinds
      obtain ⟨⟨⟨hOperandKinds, hTyped⟩, hConverts⟩, hFloat⟩ := hKinds
      simp only [fold?, foldWith, Option.bind_eq_bind, Option.bind_eq_some_iff] at hWords
      obtain ⟨_, hOperand, word, hWord, h⟩ := hWords
      cases h
      rw [single?_eq_some hWord] at hOperand
      obtain ⟨code, m, hRun, hCode⟩ :=
        exists_value hMachine hConstant operand _ hOperand hOperandKinds n
      cases hChange : conversion environment.sizes operand.ty info.ty with
      | error fault =>
          rw [hChange] at hConverts
          cases hConverts
      | ok change =>
          have hScalar : info.ty = .float → isScalar operand.ty = true :=
            fun hTarget => by simpa [hTarget] using hFloat
          have hConverted :=
            replaces_conversion hMachine hChange (isValueOf_of_isTyped hTyped hOperand) hScalar
          exact ⟨_, m, run_bind_eq_ok.mpr ⟨code, m, hRun,
            run_lift_bind_eq_ok.mpr ⟨change, hChange, rfl⟩⟩, hCode.append hConverted⟩
  | _ => cases hKinds

/-- A chain whose operands fold has code that settles on the folded word. -/
theorem exists_chain (hMachine : machine.Computes) (hConstant : ∀ e, Closed (constant e))
    (op : BinaryOp) (k : Nat) (hShort : op.isShortCircuit = true) :
    ∀ (e : Expr) (word : Datum), continuesChain op e = true →
      fold? environment.program e = some [word] → kindsAgree environment.toSetting e = true →
      ∀ n, k < n → ∃ code m,
        (chain environment constant op (chainEnd op k) e).run n = .ok (code, m) ∧
        machine.Settles op (chainEnd op k) code (machine.word word) := by
  intro e word hNode hWords hKinds n hNumber
  cases e with
  | binary info inner left right =>
      obtain rfl : op = inner := (beq_iff_eq.mp hNode).symm
      obtain ⟨first, middle, second, m, _, hFirst, hSecond, hWord, hBoth⟩ :=
        exists_node hMachine hConstant hShort
          (settlesOperand (exists_chain hMachine hConstant op k hShort left)
            (exists_value hMachine hConstant left))
          (settlesOperand (exists_chain hMachine hConstant op k hShort right)
            (exists_value hMachine hConstant right))
          hWords hKinds hNumber
      cases hWord
      rw [chain]
      exact ⟨_, m, run_either_eq_ok.mpr ⟨first, middle, hFirst,
        run_either_eq_ok.mpr ⟨second, m, hSecond, rfl⟩⟩, hBoth⟩
  | _ => cases hNode

end

end Values
end Machine

/-! Folding switched off -/

/-- An expression with folding switched off: no node counts as known but
literals, and constants are replaced by given expressions. Nodes that never have
known words stay as they are. -/
def unfoldedWith (initializer? : Nat → Option Expr) : Expr → Expr
  | .vector info x y z =>
    .vector { info with isConstant := false } (unfoldedWith initializer? x)
      (unfoldedWith initializer? y) (unfoldedWith initializer? z)
  | .var info id => (initializer? id).getD (.var info id)
  | .neg info operand => .neg { info with isConstant := false } (unfoldedWith initializer? operand)
  | .not info operand => .not { info with isConstant := false } (unfoldedWith initializer? operand)
  | .binary info op left right =>
    .binary { info with isConstant := false } op (unfoldedWith initializer? left)
      (unfoldedWith initializer? right)
  | .convert info operand =>
      .convert { info with isConstant := false } (unfoldedWith initializer? operand)
  | e => e

/-- The initializer of a constant with folding switched off, constants nested up
to a given depth. -/
def unfoldedConstant? (program : Program) : Nat → Nat → Option Expr
  | 0, _ => none
  | depth + 1, id => do
    let declared ← program.vars[id]?
    if declared.storage == .constant then
      declared.initializer.map (unfoldedWith (unfoldedConstant? program depth))
    else
      none

/-- An expression with folding switched off and constants replaced by their
initializers. -/
def unfolded (program : Program) (e : Expr) : Expr :=
  unfoldedWith (unfoldedConstant? program program.vars.size) e

section Unfolded

variable {program : Program} {functionName? : Nat → Option String}

/-- Replacing constants by expressions with their words changes no words. -/
theorem foldWith_unfoldedWith {constant? : Nat → Option (List Datum)}
    {initializer? : Nat → Option Expr} (hConstant : ∀ id words, constant? id = some words →
      ∃ e, initializer? id = some e ∧ foldWith functionName? (fun _ => none) e = some words) :
    ∀ (e : Expr) (words : List Datum), foldWith functionName? constant? e = some words →
      foldWith functionName? (fun _ => none) (unfoldedWith initializer? e) = some words := by
  intro e words h
  cases e with
  | vector info x y z =>
      simp only [unfoldedWith, foldWith, Option.bind_eq_bind, Option.bind_eq_some_iff] at h ⊢
      obtain ⟨_, hX, _, hFirst, _, hFirstFloat, _, hY, _, hSecond, _, hSecondFloat, _, hZ, h⟩ := h
      exact ⟨_, foldWith_unfoldedWith hConstant x _ hX, _, hFirst, _, hFirstFloat,
        _, foldWith_unfoldedWith hConstant y _ hY, _, hSecond, _, hSecondFloat,
        _, foldWith_unfoldedWith hConstant z _ hZ, h⟩
  | var info id =>
      obtain ⟨e, hInitializer, hWords⟩ := hConstant id words h
      rwa [unfoldedWith, hInitializer]
  | neg info operand =>
      simp only [unfoldedWith, foldWith, Option.bind_eq_bind, Option.bind_eq_some_iff] at h ⊢
      obtain ⟨_, hOperand, h⟩ := h
      exact ⟨_, foldWith_unfoldedWith hConstant operand _ hOperand, h⟩
  | not info operand =>
      simp only [unfoldedWith, foldWith, Option.bind_eq_bind, Option.bind_eq_some_iff] at h ⊢
      obtain ⟨_, hOperand, h⟩ := h
      exact ⟨_, foldWith_unfoldedWith hConstant operand _ hOperand, h⟩
  | binary info op left right =>
      simp only [unfoldedWith, foldWith, Option.bind_eq_bind, Option.bind_eq_some_iff] at h ⊢
      obtain ⟨_, hLeft, _, hFirst, _, hRight, h⟩ := h
      exact ⟨_, foldWith_unfoldedWith hConstant left _ hLeft, _, hFirst,
        _, foldWith_unfoldedWith hConstant right _ hRight, h⟩
  | convert info operand =>
      simp only [unfoldedWith, foldWith, Option.bind_eq_bind, Option.bind_eq_some_iff] at h ⊢
      obtain ⟨_, hOperand, h⟩ := h
      exact ⟨_, foldWith_unfoldedWith hConstant operand _ hOperand, h⟩
  | _ => exact h

/-- The words of a constant are those to which the expression behind it folds. -/
theorem foldWith_unfoldedConstant? (depth : Nat) :
    ∀ id words, constantWithin? program depth id = some words →
      ∃ e, unfoldedConstant? program depth id = some e ∧
        foldWith program.functionName? (fun _ => none) e = some words := by
  induction depth with
  | zero =>
      intro id words h
      cases h
  | succ depth ih =>
      intro id words h
      obtain ⟨declared, hDeclared, h⟩ := Option.bind_eq_some_iff.mp h
      split at h
      · next hStorage =>
          obtain ⟨e, hInitializer, h⟩ := Option.bind_eq_some_iff.mp h
          refine ⟨_, Option.bind_eq_some_iff.mpr ⟨declared, hDeclared, ?_⟩,
            foldWith_unfoldedWith ih e words h⟩
          rw [if_pos hStorage, hInitializer, Option.map_some]
      · cases h

/-- An expression has the same words with folding switched off. -/
theorem fold?_unfolded {e : Expr} {words : List Datum} (h : fold? program e = some words) :
    fold? program (unfolded program e) = some words :=
  foldWith_mono (fun _ _ hNone => by cases hNone) _ words
    (foldWith_unfoldedWith (foldWith_unfoldedConstant? _) e words h)

end Unfolded

/-- Constant folding agrees with the code that it replaces, on every machine
that computes: an expression with known words has code with folding switched off
as well, and if its kinds agree, then that code leaves the words that the folded
code pushes. -/
theorem unfolded_agrees {machine : Machine} {environment : Environment} {e : Expr}
    {words : List Datum}
    (hMachine : machine.Computes) (hWords : fold? environment.program e = some words)
    (hKinds : kindsAgree environment.toSetting (unfolded environment.program e) = true) (n : Nat) :
    (∃ code m, (environment.value (unfolded environment.program e)).run n = .ok (code, m) ∧
      machine.Replaces code [] (words.map machine.word)) ∧
    (e.isConstant = true → (environment.value e).run n = .ok (pushData words, n) ∧
      machine.Replaces (pushData words) [] (words.map machine.word)) := by
  constructor
  · exact Machine.exists_value hMachine (closed_initializerWithin _) _ words
      (fold?_unfolded hWords) hKinds n
  · intro hConstant
    have hKnown : knownWords? environment.toSetting e = some words := by
      rw [knownWords?, if_pos hConstant, hWords]
    exact ⟨value_known hKnown _ n, .push words⟩

def calculating : Machine where
  bases := ⟨0, 0, id⟩
  names := fun _ => .zero
  texts := fun _ => .zero
  others := fun statement cells =>
    match statement.content with
    | .instruction mnemonic [] =>
      (Opcode.named? mnemonic).bind fun opcode =>
        (opcode.computed? cells.stack).map fun stack => { cells with stack }
    | _ => none

theorem computes_calculating : calculating.Computes := by
  intro opcode stack next memory h
  simp only [calculating, plain, Statement.ofInstruction, Opcode.named?_mnemonic, Option.bind_some,
    h, Option.map_some]

/-- Inside of a function that can use a float and an integer that are constants. -/
def constantEnvironment : Environment where
  program := ⟨"p", none, none, #[], #[],
    #[⟨"HALF", .float, .constant, some (.ofFloat ⟨0x3F000000⟩)⟩,
      ⟨"SIDES", .int, .constant, some (.ofInt 4)⟩], #[], #[]⟩
  sizes := ⟨#[], #[], #[]⟩
  slots := ⟨#[none, none], #[], [], [], [], 0, 0, 0⟩
  natives := NativeDatabase.empty
  frame := ⟨0, 0, 0, 0, #[]⟩

/-- One half is less than four, and four is not three. -/
def mixedExpression : Expr :=
  let half := Expr.ofVariable constantEnvironment.program 0
  let sides := Expr.ofVariable constantEnvironment.program 1
  .combined .and (.combined .lt half sides) (.inverted (.combined .eq sides (.ofInt 3)))

/-- The code of the expression with folding switched off. -/
def mixedCode : Code :=
  [.ofInstruction "PUSH_CONST" [.float ⟨0x3F000000⟩], .ofInstruction "PUSH_CONST" [.int 4],
    plain "I2F", plain "FLT", plain "DUP", naming "JZ" ".and_0", plain "DROP",
    .ofInstruction "PUSH_CONST" [.int 4],
    .ofInstruction "PUSH_CONST" [.int 3], plain "IEQ", plain "INOT", .ofLabel ".and_0"]

/-- The code compares as folding does, and leaves the same truth value. -/
theorem unfolded_agrees_mixed :
    fold? constantEnvironment.program mixedExpression = some [.int 1] ∧
    (constantEnvironment.value (unfolded constantEnvironment.program mixedExpression)).run 0 =
      .ok (mixedCode, 1) ∧
    calculating.Replaces mixedCode [] [.ofInt 1] := by
  have hWords : fold? constantEnvironment.program mixedExpression =
      some [.int 1] := by decide +kernel
  have hKinds : kindsAgree constantEnvironment.toSetting
      (unfolded constantEnvironment.program mixedExpression) = true := by decide +kernel
  have hCode : (constantEnvironment.value
      (unfolded constantEnvironment.program mixedExpression)).run 0 =
      .ok (mixedCode, 1) := rfl
  obtain ⟨⟨code, m, hRun, hLeaves⟩, _⟩ := unfolded_agrees computes_calculating hWords hKinds 0
  cases hRun.symm.trans hCode
  exact ⟨hWords, hCode, hLeaves⟩

/-- Kinds matter: folding makes a truth value a float, the code of the
conversion leaves it an integer. -/
example :
    let truth := Expr.converted (.ofBool true) .float
    fold? constantEnvironment.program truth = some [.float ⟨0x3F800000⟩] ∧
      (constantEnvironment.value (unfolded constantEnvironment.program truth)).run 0 =
        .ok (pushData [.int 1], 0) := by
  refine ⟨by decide +kernel, rfl⟩

end ScriptBackend.Lowering
