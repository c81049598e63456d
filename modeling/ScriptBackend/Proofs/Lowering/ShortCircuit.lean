import ScriptBackend.Proofs.Lowering.Numbering
import ScriptBackend.Proofs.Lowering.Realization
import ScriptBackend.Word

/-!
Chains of AND and of OR. However such a chain is nested, its code evaluates the
operands from left to right up to the first one that decides the result, and
leaves one word. Lowering every node with an end label of its own does the same.
-/
namespace ScriptBackend.Lowering

open ScriptBackend.Assembly

/-! What a chain means -/

/-- The operands of a chain, from left to right. -/
def operandsOf (op : BinaryOp) : Expr → List Expr
  | .binary info inner left right =>
    if inner = op then operandsOf op left ++ operandsOf op right
    else [.binary info inner left right]
  | e => [e]

/-- Whether a word decides a chain: for OR every word but zero, for AND zero. -/
def decides (op : BinaryOp) (word : Word) : Bool :=
  if op = .or then word != .zero else word == .zero

/-- Operands evaluated from left to right, each with its word, up to the first
whose word decides the chain or else to the last one. The result is the word of
the operand where this stops. -/
inductive StopsEarly (op : BinaryOp) : List Expr → List (Expr × Word) → Word → Prop where
  | last (e : Expr) (word : Word) : StopsEarly op [e] [(e, word)] word
  | decided {e : Expr} {rest : List Expr} {word : Word} (h : decides op word = true) :
      StopsEarly op (e :: rest) [(e, word)] word
  | on {e : Expr} {rest : List Expr} {word result : Word} {evaluated : List (Expr × Word)}
      (h : decides op word = false) (later : StopsEarly op rest evaluated result) :
      StopsEarly op (e :: rest) ((e, word) :: evaluated) result

namespace StopsEarly

variable {op : BinaryOp} {first second : List Expr} {evaluated : List (Expr × Word)} {result : Word}

/-- A single operand is evaluated, and its word is the result. -/
theorem single_iff {e : Expr} : StopsEarly op [e] evaluated result ↔ evaluated = [(e, result)] := by
  constructor
  · intro h
    cases h with
    | last => rfl
    | decided => rfl
    | on _ later => cases later
  · rintro rfl
    exact .last e result

/-- Whatever words the operands have, evaluation stops at one of them. -/
theorem exists_of_words {operands : List Expr} (hOperands : operands ≠ []) {words : List Word}
    (hLength : words.length = operands.length) :
    ∃ evaluated result, evaluated <+: operands.zip words ∧
      StopsEarly op operands evaluated result := by
  induction operands generalizing words with
  | nil => exact absurd rfl hOperands
  | cons e rest ih =>
      obtain ⟨word, others, rfl⟩ := List.exists_cons_of_length_eq_add_one hLength
      by_cases hRest : rest = []
      · subst hRest
        exact ⟨[(e, word)], word, by simp, .last e word⟩
      · cases hDecides : decides op word with
        | true => exact ⟨[(e, word)], word, by simp, .decided hDecides⟩
        | false =>
            obtain ⟨evaluated, result, hPrefix, hStops⟩ := ih hRest (Nat.succ.inj hLength)
            exact ⟨(e, word) :: evaluated, result, by simpa using hPrefix, .on hDecides hStops⟩

/-- The first operand is evaluated. It is the result when it decides, and
otherwise the others are evaluated in the same way. -/
theorem cons_iff {e : Expr} (hRest : second ≠ []) :
    StopsEarly op (e :: second) evaluated result ↔
      ∃ word, if decides op word then evaluated = [(e, word)] ∧ result = word
        else ∃ later, evaluated = (e, word) :: later ∧ StopsEarly op second later result := by
  constructor
  · intro h
    cases h with
    | last => exact absurd rfl hRest
    | decided hDecides => exact ⟨result, by simp [hDecides]⟩
    | @on _ _ word _ _ hDecides later => exact ⟨word, by simpa [hDecides] using later⟩
  · rintro ⟨word, h⟩
    split at h
    · next hDecides =>
        obtain ⟨rfl, rfl⟩ := h
        exact .decided hDecides
    · next hDecides =>
        obtain ⟨later, rfl, hLater⟩ := h
        exact .on (Bool.eq_false_iff.mpr hDecides) hLater

/-- Operands behind others are evaluated if none of those decides. -/
theorem append_iff (hFirst : first ≠ []) (hSecond : second ≠ []) :
    StopsEarly op (first ++ second) evaluated result ↔
      ∃ done word, StopsEarly op first done word ∧
        if decides op word then evaluated = done ∧ result = word
        else ∃ later, evaluated = done ++ later ∧ StopsEarly op second later result := by
  induction first generalizing evaluated with
  | nil => exact absurd rfl hFirst
  | cons e rest ih =>
      by_cases hRest : rest = []
      · subst hRest
        rw [List.singleton_append, cons_iff hSecond]
        simp only [single_iff]
        constructor
        · rintro ⟨word, h⟩
          exact ⟨_, word, rfl, h⟩
        · rintro ⟨_, word, rfl, h⟩
          exact ⟨word, h⟩
      · rw [List.cons_append, cons_iff (List.append_ne_nil_of_left_ne_nil hRest second)]
        simp only [ih hRest, cons_iff hRest]
        constructor
        · rintro ⟨word, h⟩
          split at h
          · next hDecides =>
              exact ⟨[(e, word)], word, ⟨word, by simp [hDecides]⟩, by simpa [hDecides] using h⟩
          · next hDecides =>
              obtain ⟨later, rfl, done, found, hDone, hLater⟩ := h
              refine ⟨(e, word) :: done, found, ⟨word, by simpa [hDecides] using hDone⟩, ?_⟩
              simpa using hLater
        · rintro ⟨done, found, ⟨word, hDone⟩, h⟩
          split at hDone
          · next hDecides =>
              obtain ⟨rfl, rfl⟩ := hDone
              exact ⟨found, by simpa [hDecides] using h⟩
          · next hDecides =>
              obtain ⟨start, rfl, hStart⟩ := hDone
              refine ⟨word, ?_⟩
              rw [if_neg hDecides]
              split at h
              · next hFound => exact ⟨start, h.1, start, found, hStart, by simp [hFound, h.2]⟩
              · next hFound =>
                  obtain ⟨later, rfl, hLater⟩ := h
                  exact ⟨start ++ later, rfl, start, found, hStart, by simpa [hFound] using hLater⟩

end StopsEarly

/-! The machine -/

/-- One step of a machine that goes through items with words on its stack, and
what it evaluates. The code of an operand is a black box which pushes one word,
whatever that is. -/
inductive ItemStep (program : List Item) :
    List Item × List Word → List (Expr × Word) → List Item × List Word → Prop
    where
  | operand {e : Expr} {code : Code} {rest : List Item} {stack : List Word} (word : Word) :
      ItemStep program (.action (.value e) code :: rest, stack) [(e, word)] (rest, word :: stack)
  | dup {statement : Statement} {rest : List Item} {word : Word} {stack : List Word}
      (kind : statement.content = .instruction "DUP" []) :
      ItemStep program (.control statement :: rest, word :: stack) [] (rest, word :: word :: stack)
  | inot {statement : Statement} {rest : List Item} {word : Word} {stack : List Word}
      (kind : statement.content = .instruction "INOT" []) :
      ItemStep program (.control statement :: rest, word :: stack) []
        (rest, (if word = .zero then .ofInt 1 else .zero) :: stack)
  | drop {statement : Statement} {rest : List Item} {word : Word} {stack : List Word}
      (kind : statement.content = .instruction "DROP" []) :
      ItemStep program (.control statement :: rest, word :: stack) [] (rest, stack)
  | jumpIfZero {statement : Statement} {label : String} {rest : List Item} {word : Word}
      {stack : List Word} (kind : statement.content = .instruction "JZ" [.name label]) :
      ItemStep program (.control statement :: rest, word :: stack) []
        (if word = .zero then entry program label else rest, stack)
  | label {statement : Statement} {rest : List Item} {stack : List Word}
      (kind : statement.content = .empty) :
      ItemStep program (.control statement :: rest, stack) [] (rest, stack)

/-- The way of the machine to the first time that it arrives at a position, what
it evaluates on that way, and the stack with which it arrives. -/
inductive Arrives (program stop : List Item) :
    List Item × List Word → List (Expr × Word) → List Word → Prop where
  | arrived (stack : List Word) : Arrives program stop (stop, stack) [] stack
  | step {state next : List Item × List Word} {done evaluated : List (Expr × Word)}
      {final : List Word} (under : state.1 ≠ stop) (first : ItemStep program state done next)
      (later : Arrives program stop next evaluated final) :
      Arrives program stop state (done ++ evaluated) final

/-- What a statement does is determined. -/
theorem ItemStep.unique {program rest : List Item} {statement : Statement} {stack : List Word}
    {done others : List (Expr × Word)} {next other : List Item × List Word}
    (h : ItemStep program (.control statement :: rest, stack) done next)
    (hOther : ItemStep program (.control statement :: rest, stack) others other) :
    done = others ∧ next = other := by
  cases h <;> cases hOther <;> simp_all

namespace Arrives

variable {program stop rest : List Item} {stack final : List Word} {evaluated : List (Expr × Word)}

@[simp] theorem stop_iff :
    Arrives program stop (stop, stack) evaluated final ↔ evaluated = [] ∧ final = stack := by
  constructor
  · intro h
    cases h with
    | arrived => exact ⟨rfl, rfl⟩
    | step under _ _ => exact absurd rfl under
  · rintro ⟨rfl, rfl⟩
    exact .arrived _

/-- A statement in front of the position. -/
theorem control_iff {statement : Statement} {next : List Item × List Word}
    (hStop : stop.length ≤ rest.length)
    (hStep : ItemStep program (.control statement :: rest, stack) [] next) :
    Arrives program stop (.control statement :: rest, stack) evaluated final ↔
      Arrives program stop next evaluated final := by
  have hUnder : .control statement :: rest ≠ stop := fun h => by
    have hLength := congrArg List.length h
    rw [List.length_cons] at hLength
    omega
  constructor
  · intro h
    cases h with
    | arrived => exact absurd rfl hUnder
    | step _ first later =>
        obtain ⟨rfl, rfl⟩ := hStep.unique first
        exact later
  · exact .step hUnder hStep

/-- Control passes a label without an effect on the stack. -/
theorem label_iff {label : String} (hStop : stop.length ≤ rest.length) :
    Arrives program stop (.control (.ofLabel label) :: rest, stack) evaluated final ↔
      Arrives program stop (rest, stack) evaluated final :=
  control_iff hStop (.label rfl)

/-- An operand is evaluated and leaves one word on the stack, whatever word that
is. -/
theorem operand_iff {e : Expr} {code : Code} (hStop : stop.length ≤ rest.length) :
    Arrives program stop (.action (.value e) code :: rest, stack) evaluated final ↔
      ∃ word later, evaluated = (e, word) :: later ∧
        Arrives program stop (rest, word :: stack) later final := by
  have hUnder : .action (.value e) code :: rest ≠ stop := fun h => by
    have hLength := congrArg List.length h
    rw [List.length_cons] at hLength
    omega
  constructor
  · intro h
    cases h with
    | arrived => exact absurd rfl hUnder
    | step _ first later =>
        cases first with
        | operand word => exact ⟨word, _, rfl, later⟩
  · rintro ⟨word, later, rfl, hLater⟩
    exact .step hUnder (.operand word) hLater

/-- A decision leaves a word that decides the chain on the stack and goes to the
end of the chain; it drops any other word and goes on. -/
theorem decision_iff {op : BinaryOp} {finish : String} {word : Word}
    (hStop : stop.length ≤ rest.length) :
    Arrives program stop ((decision op finish).map .control ++
      rest, word :: stack) evaluated final ↔
      if decides op word then Arrives program stop
        (entry program finish, word :: stack) evaluated final
      else Arrives program stop (rest, stack) evaluated final := by
  have hDrop : stop.length ≤ (Item.control (plain "DROP") :: rest).length := by
    rw [List.length_cons]
    omega
  have hJump : stop.length ≤
      (Item.control (naming "JZ" finish) :: .control (plain "DROP") :: rest).length := by
    simp only [List.length_cons]
    omega
  have hNot : stop.length ≤
      (Item.control (plain "INOT") :: .control (naming "JZ" finish) ::
        .control (plain "DROP") :: rest).length := by
    simp only [List.length_cons]
    omega
  unfold decision decides
  by_cases hOr : op = .or
  · simp only [if_pos hOr, List.cons_append, List.nil_append, List.map_cons, List.map_nil]
    rw [control_iff hNot (.dup rfl), control_iff hJump (.inot rfl),
      control_iff hDrop (.jumpIfZero rfl)]
    by_cases hZero : word = .zero
    · have hOne : Word.ofInt 1 ≠ .zero := by decide
      simp only [hZero, if_true, if_neg hOne, bne_self_eq_false, Bool.false_eq_true, if_false]
      exact control_iff hStop (.drop rfl)
    · simp [hZero]
  · simp only [if_neg hOr, List.nil_append, List.cons_append, List.map_cons, List.map_nil]
    rw [control_iff hJump (.dup rfl), control_iff hDrop (.jumpIfZero rfl)]
    by_cases hZero : word = .zero
    · simp [hZero]
    · simp only [if_neg hZero, beq_eq_false_iff_ne.mpr hZero, Bool.false_eq_true, if_false]
      exact control_iff hStop (.drop rfl)

end Arrives

/-! Code that evaluates operands -/

/-- Items that leave the end labels of chains free from a number on. -/
def LeavesFree (op : BinaryOp) (number : Nat) (items : List Item) : Prop :=
  ∀ k, number ≤ k → chainEnd op k ∉ definedLabels (listing items)

/-- Items that evaluate operands wherever they stand and leave the result on the
stack. -/
def Evaluates (op : BinaryOp) (operands : List Expr) (number : Nat) (items : List Item) : Prop :=
  ∀ program before rest stop stack evaluated final, program = before ++ (items ++ rest) →
    LeavesFree op number before → stop.length ≤ rest.length →
    (Arrives program stop (items ++ rest, stack) evaluated final ↔
      ∃ done result later, evaluated = done ++ later ∧ StopsEarly op operands done result ∧
        Arrives program stop (rest, result :: stack) later final)

section

variable {op : BinaryOp} {low number high : Nat} {items others : List Item}

theorem LeavesFree.mono (h : LeavesFree op low items) (hLow : low ≤ number) :
    LeavesFree op number items :=
  fun k hNumber => h k (Nat.le_trans hLow hNumber)

theorem LeavesFree.append (h : LeavesFree op number items) (hOthers : LeavesFree op number others) :
    LeavesFree op number (items ++ others) := fun k hNumber => by
  rw [listing_append, definedLabels_append, List.mem_append]
  exact fun hLabel => hLabel.elim (h k hNumber) (hOthers k hNumber)

/-- Labels of lower numbers only leave the end labels from the next number on
free. -/
theorem Covers.leavesFree (h : Covers low high items) : LeavesFree op high items :=
  fun k hHigh => h.not_mem (marked_chainEnd op k) (.inr hHigh)

theorem leavesFree_decision (finish : String) :
    LeavesFree op number ((decision op finish).map .control) := by
  simp [LeavesFree]

/-- The end of a chain is found behind the code of the chain. -/
theorem entry_chainEnd {before : List Item} (rest : List Item)
    (hBefore : LeavesFree op number before) (hItems : Covers (number + 1) high items) :
    entry (before ++ (items ++ .control (.ofLabel (chainEnd op number)) :: rest))
      (chainEnd op number) = .control (.ofLabel (chainEnd op number)) :: rest := by
  rw [← List.append_assoc]
  apply entry_eq
  rw [listing_append, definedLabels_append, List.mem_append]
  exact fun hLabel => hLabel.elim (hBefore number (Nat.le_refl _))
    (hItems.not_mem (marked_chainEnd op number) (.inl (Nat.lt_succ_self _)))

/-- One item is a chain of one operand. -/
theorem evaluates_operand (op : BinaryOp) (e : Expr) (code : Code) (number : Nat) :
    Evaluates op [e] number [.action (.value e) code] := by
  rintro program before rest stop stack evaluated final rfl hBefore hStop
  rw [List.singleton_append, Arrives.operand_iff hStop]
  simp only [StopsEarly.single_iff]
  constructor
  · rintro ⟨word, later, rfl, hLater⟩
    exact ⟨[(e, word)], word, later, rfl, rfl, hLater⟩
  · rintro ⟨_, word, later, rfl, rfl, hLater⟩
    exact ⟨word, later, rfl, hLater⟩

end

/-! Chains with one end -/

/-- The items of a chain: its operands in order, and a decision behind each of
them but the last. -/
def chainItems (op : BinaryOp) (finish : String) : List (Expr × Code) → List Item
  | [] => []
  | [(e, code)] => [.action (.value e) code]
  | (e, code) :: rest =>
      .action (.value e) code :: ((decision op finish).map .control ++ chainItems op finish rest)

section

variable {op : BinaryOp} {finish : String} {made others : List (Expr × Code)}

/-- Behind every operand but the last one comes the decision whether to leave
the chain. -/
theorem chainItems_cons {e : Expr} {code : Code} (h : others ≠ []) :
    chainItems op finish ((e, code) :: others) =
      .action (.value e) code ::
        ((decision op finish).map .control ++ chainItems op finish others) := by
  cases others with
  | nil => exact absurd rfl h
  | cons => rfl

/-- Two chains with the same end are one, with a decision between them. -/
theorem chainItems_append (hMade : made ≠ []) (hOthers : others ≠ []) :
    chainItems op finish (made ++ others) =
      chainItems op finish made ++
        ((decision op finish).map .control ++ chainItems op finish others) := by
  induction made with
  | nil => exact absurd rfl hMade
  | cons part rest ih =>
      obtain ⟨e, code⟩ := part
      by_cases hRest : rest = []
      · subst hRest
        exact chainItems_cons hOthers
      · rw [List.cons_append, chainItems_cons (List.append_ne_nil_of_left_ne_nil hRest _), ih hRest,
          chainItems_cons hRest, List.cons_append, List.append_assoc]

/-- A chain is evaluated from its first operand on, by induction on the
operands: each of them decides and leads to the end, or is dropped and leads to
the next. -/
theorem Arrives.chainItems_iff {program stop rest : List Item} {stack final : List Word}
    {evaluated : List (Expr × Word)} (hMade : made ≠ [])
    (hEntry : entry program finish = .control (.ofLabel finish) :: rest)
    (hStop : stop.length ≤ rest.length) :
    Arrives program stop (chainItems op finish made ++
      .control (.ofLabel finish) :: rest, stack) evaluated final ↔
      ∃ done result later, evaluated = done ++ later ∧
        StopsEarly op (made.map Prod.fst) done result ∧
        Arrives program stop (rest, result :: stack) later final := by
  induction made generalizing evaluated with
  | nil => exact absurd rfl hMade
  | cons part others ih =>
      obtain ⟨e, code⟩ := part
      by_cases hOthers : others = []
      · subst hOthers
        have hLabel : stop.length ≤ (Item.control (.ofLabel finish) :: rest).length := by
          rw [List.length_cons]
          omega
        simp only [chainItems, List.singleton_append, operand_iff hLabel, label_iff hStop,
          List.map_cons, List.map_nil, StopsEarly.single_iff]
        constructor
        · rintro ⟨word, later, rfl, hLater⟩
          exact ⟨_, word, later, rfl, rfl, hLater⟩
        · rintro ⟨_, word, later, rfl, rfl, hLater⟩
          exact ⟨word, later, rfl, hLater⟩
      · have hLast : stop.length ≤
            (chainItems op finish others ++ .control (.ofLabel finish) :: rest).length := by
          simp only [List.length_append, List.length_cons]
          omega
        have hFirst : stop.length ≤ ((decision op finish).map Item.control ++
            (chainItems op finish others ++ .control (.ofLabel finish) :: rest)).length := by
          rw [List.length_append]
          omega
        rw [chainItems_cons hOthers, List.cons_append, List.append_assoc,
          operand_iff hFirst, List.map_cons]
        simp only [decision_iff hLast, hEntry, label_iff hStop, ih hOthers,
          StopsEarly.cons_iff (mt List.map_eq_nil_iff.mp hOthers)]
        constructor
        · rintro ⟨word, behind, rfl, h⟩
          split at h
          · next hDecides => exact ⟨[(e, word)], word, behind, rfl, ⟨word, by simp [hDecides]⟩, h⟩
          · next hDecides =>
              obtain ⟨done, result, later, rfl, hDone, hLater⟩ := h
              exact ⟨(e, word) :: done, result, later, rfl,
                ⟨word, by simpa [hDecides] using hDone⟩, hLater⟩
        · rintro ⟨done, result, later, rfl, ⟨word, h⟩, hLater⟩
          split at h
          · next hDecides =>
              obtain ⟨rfl, rfl⟩ := h
              exact ⟨result, later, rfl, by rwa [if_pos hDecides]⟩
          · next hDecides =>
              obtain ⟨behind, rfl, hBehind⟩ := h
              refine ⟨word, behind ++ later, rfl, ?_⟩
              rw [if_neg hDecides]
              exact ⟨behind, result, later, rfl, hBehind, hLater⟩

/-- A chain with its end label evaluates its operands. -/
theorem evaluates_chainItems {number high : Nat} (hMade : made ≠ [])
    (hItems : Covers (number + 1) high (chainItems op (chainEnd op number) made)) :
    Evaluates op (made.map Prod.fst) number
      (chainItems op (chainEnd op number) made ++ [.control (.ofLabel (chainEnd op number))]) := by
  rintro program before rest stop stack evaluated final rfl hBefore hStop
  rw [List.append_assoc, List.singleton_append]
  exact Arrives.chainItems_iff hMade (entry_chainEnd rest hBefore hItems) hStop

end

/-! Nodes with ends of their own -/

/-- A node evaluates its left operands, and its right ones unless the result of
the left ones decides. -/
theorem evaluates_node {op : BinaryOp} {number middle high : Nat} {left right : List Expr}
    {first second : List Item}
    (hLeft : left ≠ []) (hRight : right ≠ []) (hMiddle : number + 1 ≤ middle)
    (hHigh : middle ≤ high)
    (hFirst : Evaluates op left (number + 1) first)
    (hFirstLabels : Covers (number + 1) middle first)
    (hSecond : Evaluates op right middle second) (hSecondLabels : Covers middle high second) :
    Evaluates op (left ++ right) number
      (first ++ ((decision op (chainEnd op number)).map .control ++
        (second ++ [.control (.ofLabel (chainEnd op number))]))) := by
  intro program before rest stop stack evaluated final hProgram hBefore hStop
  have hLabels : Covers (number + 1) high
      (first ++ ((decision op (chainEnd op number)).map .control ++ second)) := by
    rw [Covers.append_iff, Covers.append_iff]
    refine ⟨hFirstLabels.mono (Nat.le_refl _) hHigh, fun label hLabel => ?_,
      hSecondLabels.mono hMiddle (Nat.le_refl _)⟩
    simp at hLabel
  -- the label of the node is nowhere in front of it, and behind it comes what follows the node
  have hEntry := entry_chainEnd rest hBefore hLabels
  simp only [List.append_assoc, List.singleton_append] at hProgram hEntry ⊢
  rw [← hProgram] at hEntry
  have hLast : stop.length ≤ (Item.control (.ofLabel (chainEnd op number)) :: rest).length := by
    rw [List.length_cons]
    omega
  have hBehind : stop.length ≤
      (second ++ Item.control (.ofLabel (chainEnd op number)) :: rest).length := by
    rw [List.length_append]
    omega
  have hDecision : stop.length ≤ ((decision op (chainEnd op number)).map Item.control ++
      (second ++ Item.control (.ofLabel (chainEnd op number)) :: rest)).length := by
    rw [List.length_append]
    omega
  have hFree : LeavesFree op middle
      (before ++ (first ++ (decision op (chainEnd op number)).map .control)) :=
    (hBefore.mono (by omega)).append (hFirstLabels.leavesFree.append (leavesFree_decision _))
  have hRightOperands := fun evaluated => hSecond program _ _ stop stack evaluated final
    (by simpa only [List.append_assoc] using hProgram) hFree hLast
  rw [hFirst program before _ stop stack evaluated final hProgram
    (hBefore.mono (Nat.le_succ _)) hDecision]
  simp only [Arrives.decision_iff hBehind, hEntry, Arrives.label_iff hStop, hRightOperands,
    StopsEarly.append_iff hLeft hRight]
  constructor
  · rintro ⟨done, word, behind, rfl, hDone, h⟩
    split at h
    · next hDecides => exact ⟨done, word, behind, rfl, ⟨done, word, hDone, by simp [hDecides]⟩, h⟩
    · next hDecides =>
        obtain ⟨others, result, later, rfl, hOthers, hLater⟩ := h
        refine ⟨done ++ others, result, later, by rw [List.append_assoc],
          ⟨done, word, hDone, ?_⟩, hLater⟩
        rw [if_neg hDecides]
        exact ⟨others, rfl, hOthers⟩
  · rintro ⟨_, result, later, rfl, ⟨done, word, hDone, h⟩, hLater⟩
    split at h
    · next hDecides =>
        obtain ⟨rfl, rfl⟩ := h
        exact ⟨_, result, later, rfl, hDone, by rwa [if_pos hDecides]⟩
    · next hDecides =>
        obtain ⟨others, rfl, hOthers⟩ := h
        refine ⟨done, word, others ++ later, by rw [List.append_assoc], hDone, ?_⟩
        rw [if_neg hDecides]
        exact ⟨others, result, later, rfl, hOthers, hLater⟩

/-- The code of a tree of one operator whose nodes are lowered one by one, each
with an end label of its own. -/
def nodewise (environment : Environment) (constant : Expr → Gen Code) (op : BinaryOp) :
    Expr → Gen Code
  | .binary info inner left right =>
    if inner = op then do
      let finish := chainEnd op (← freshNumber)
      let first ← nodewise environment constant op left
      let second ← nodewise environment constant op right
      return first ++ (decision op finish ++ (second ++ [.ofLabel finish]))
    else value environment constant (.binary info inner left right)
  | e => value environment constant e

/-- The operands in items, with the code of each. -/
def operandCodes (items : List Item) : List (Expr × Code) :=
  items.filterMap fun
    | .action (.value e) code => some (e, code)
    | _ => none

theorem operandCodes_append (items others : List Item) :
    operandCodes (items ++ others) = operandCodes items ++ operandCodes others :=
  List.filterMap_append

/-- Operands in order, each with code that lowering makes for it. -/
structure Supplies (environment : Environment) (constant : Expr → Gen Code) (operands : List Expr)
    (made : List (Expr × Code)) : Prop where
  operands : made.map Prod.fst = operands
  codes : ∀ part ∈ made, ∃ n m, (value environment constant part.1).run n = .ok (part.2, m)

section Lowered

variable {environment : Environment} {constant : Expr → Gen Code} {op : BinaryOp}

theorem Supplies.single {e : Expr} {code : Code} {n m : Nat}
    (h : (value environment constant e).run n = .ok (code, m)) :
    Supplies environment constant [e] [(e, code)] := by
  refine ⟨rfl, fun part hPart => ?_⟩
  rw [List.mem_singleton] at hPart
  subst hPart
  exact ⟨n, m, h⟩

theorem Supplies.append {left right : List Expr} {made others : List (Expr × Code)}
    (h : Supplies environment constant left made)
    (hOthers : Supplies environment constant right others) :
    Supplies environment constant (left ++ right) (made ++ others) := by
  refine ⟨by rw [List.map_append, h.operands, hOthers.operands], fun part hPart => ?_⟩
  exact (List.mem_append.mp hPart).elim (h.codes part) (hOthers.codes part)

theorem operandsOf_binary {info : Info} {left right : Expr} :
    operandsOf op (.binary info op left right) = operandsOf op left ++ operandsOf op right := by
  rw [operandsOf, if_pos rfl]

theorem operandsOf_of_not_continues {e : Expr} (h : continuesChain op e = false) :
    operandsOf op e = [e] := by
  cases e with
  | binary info inner left right => rw [operandsOf, if_neg (by simpa [continuesChain] using h)]
  | _ => rfl

/-- Each expression is at least one operand. -/
theorem operandsOf_ne_nil (op : BinaryOp) : ∀ e : Expr, operandsOf op e ≠ [] := by
  intro e
  cases hContinues : continuesChain op e with
  | false =>
      rw [operandsOf_of_not_continues hContinues]
      exact List.cons_ne_nil _ _
  | true =>
      cases e with
      | binary info inner left right =>
          obtain rfl : op = inner := (beq_iff_eq.mp hContinues).symm
          rw [operandsOf_binary]
          exact List.append_ne_nil_of_left_ne_nil (operandsOf_ne_nil op left) _
      | _ => cases hContinues

theorem Supplies.ne_nil {e : Expr} {made : List (Expr × Code)}
    (h : Supplies environment constant (operandsOf op e) made) : made ≠ [] := by
  rintro rfl
  exact operandsOf_ne_nil op e h.operands.symm

/-- The code of a part of a chain is that of its operands with decisions between
them, by induction on the nesting. -/
theorem part_items (finish : String) :
    ∀ (e : Expr) (n : Nat) (code : Code) (m : Nat),
      (if continuesChain op e then chain environment constant op finish e
        else value environment constant e).run n = .ok (code, m) →
      ∃ made, Supplies environment constant (operandsOf op e) made ∧
        code = listing (chainItems op finish made) := by
  intro e n code m h
  cases hContinues : continuesChain op e with
  | false =>
      rw [if_neg (by simp [hContinues])] at h
      rw [operandsOf_of_not_continues hContinues]
      exact ⟨[(e, code)], .single h, (List.append_nil _).symm⟩
  | true =>
      rw [if_pos hContinues] at h
      cases e with
      | binary info inner left right =>
          obtain rfl : op = inner := (beq_iff_eq.mp hContinues).symm
          rw [chain] at h
          obtain ⟨first, _, hFirst, h⟩ := run_either_eq_ok.mp h
          obtain ⟨second, _, hSecond, h⟩ := run_either_eq_ok.mp h
          obtain ⟨rfl, rfl⟩ := run_pure_eq_ok.mp h
          obtain ⟨made, hMade, rfl⟩ := part_items finish left _ _ _ hFirst
          obtain ⟨others, hOthers, rfl⟩ := part_items finish right _ _ _ hSecond
          refine ⟨made ++ others, operandsOf_binary ▸ hMade.append hOthers, ?_⟩
          rw [chainItems_append hMade.ne_nil hOthers.ne_nil]
          simp
      | _ => cases hContinues

/-- The code of a tree whose nodes are lowered one by one evaluates the operands
of the tree. -/
theorem nodewise_items (hConstant : ∀ e, Closed (constant e)) :
    ∀ (e : Expr) (n : Nat) (code : Code) (m : Nat),
      (nodewise environment constant op e).run n = .ok (code, m) →
      n ≤ m ∧ ∃ nodes, code = listing nodes ∧
      Supplies environment constant (operandsOf op e) (operandCodes nodes) ∧
        Covers n m nodes ∧ Evaluates op (operandsOf op e) n nodes := by
  intro e n code m h
  cases hContinues : continuesChain op e with
  | false =>
      have hValue : (value environment constant e).run n = .ok (code, m) := by
        cases e with
        | binary info inner left right =>
            rwa [nodewise, if_neg (by simpa [continuesChain] using hContinues)] at h
        | _ => exact h
      have hClosed : Closed (value environment constant e) := closed_value hConstant e
      rw [operandsOf_of_not_continues hContinues]
      refine ⟨hClosed.le hValue, [.action (.value e) code],
        (List.append_nil _).symm, .single hValue, fun label hLabel =>
          hClosed.owned hValue label ?_, evaluates_operand op e code n⟩
      simpa using hLabel
  | true =>
      cases e with
      | binary info inner left right =>
          obtain rfl : op = inner := (beq_iff_eq.mp hContinues).symm
          rw [nodewise, if_pos rfl] at h
          obtain ⟨number, _, hNumber, h⟩ := run_bind_eq_ok.mp h
          obtain ⟨rfl, rfl⟩ := run_freshNumber_eq_ok.mp hNumber
          obtain ⟨_, middle, hLeft, h⟩ := run_bind_eq_ok.mp h
          obtain ⟨_, high, hRight, h⟩ := run_bind_eq_ok.mp h
          obtain ⟨rfl, rfl⟩ := run_pure_eq_ok.mp h
          obtain ⟨hMiddle, first, rfl, hFirst, hFirstLabels, hFirstRuns⟩ :=
            nodewise_items hConstant left _ _ _ hLeft
          obtain ⟨hHigh, second, rfl, hSecond, hSecondLabels, hSecondRuns⟩ :=
            nodewise_items hConstant right _ _ _ hRight
          refine ⟨by omega, first ++ ((decision op (chainEnd op number)).map .control ++
            (second ++ [.control (.ofLabel (chainEnd op number))])), by simp, ?_, ?_, ?_⟩
          · have hDecision : operandCodes ((decision op (chainEnd op number)).map .control) =
                [] := by
              simp [operandCodes]
            have hLabel : operandCodes [.control (.ofLabel (chainEnd op number))] = [] := rfl
            rw [operandsOf_binary, operandCodes_append, operandCodes_append, operandCodes_append,
              hDecision, hLabel, List.nil_append, List.append_nil]
            exact hFirst.append hSecond
          · have hMarked :=
              (marked_chainEnd op number).owned (Nat.le_refl _) (by omega : number < m)
            have hOwn := hFirstLabels.mono (Nat.le_succ _) hHigh
            have hOthers := hSecondLabels.mono (by omega : number ≤ middle) (Nat.le_refl _)
            simp only [Covers.append_iff, Covers.ofLabel_iff, Covers.nil, and_true]
            refine ⟨hOwn, fun label hLabel => ?_, hOthers, hMarked⟩
            simp at hLabel
          · rw [operandsOf_binary]
            exact evaluates_node (operandsOf_ne_nil _ _) (operandsOf_ne_nil _ _) hMiddle hHigh
              hFirstRuns hFirstLabels hSecondRuns hSecondLabels
      | _ => cases hContinues

/-- Nodes can be lowered one by one wherever the chain can be lowered as a whole. -/
theorem accompanies_nodewise (hConstant : ∀ e, Accompanies (constant e) (constant e))
    (finish : String) :
    ∀ e : Expr,
      Accompanies (if continuesChain op e then chain environment constant op finish e
        else value environment constant e) (nodewise environment constant op e) := by
  intro e
  cases hContinues : continuesChain op e with
  | false =>
      rw [if_neg Bool.false_ne_true]
      cases e with
      | binary info inner left right =>
          rw [nodewise, if_neg (beq_eq_false_iff_ne.mp hContinues)]
          exact accompanies_value hConstant _
      | _ => exact accompanies_value hConstant _
  | true =>
      rw [if_pos rfl]
      cases e with
      | binary info inner left right =>
          obtain rfl : op = inner := (beq_iff_eq.mp hContinues).symm
          intro n code m h number
          rw [chain] at h
          obtain ⟨first, _, hFirst, h⟩ := run_either_eq_ok.mp h
          obtain ⟨second, _, hSecond, _⟩ := run_either_eq_ok.mp h
          obtain ⟨before, middle, hLeft⟩ :=
            accompanies_nodewise hConstant finish left _ _ _ hFirst (number + 1)
          obtain ⟨behind, high, hRight⟩ :=
            accompanies_nodewise hConstant finish right _ _ _ hSecond middle
          let finish := chainEnd op number
          refine ⟨before ++ (decision op finish ++ (behind ++ [.ofLabel finish])), high, ?_⟩
          rw [nodewise, if_pos rfl]
          refine run_bind_eq_ok.mpr ⟨number, number + 1, run_freshNumber_eq_ok.mpr ⟨rfl, rfl⟩, ?_⟩
          refine run_bind_eq_ok.mpr ⟨before, middle, hLeft,
            run_bind_eq_ok.mpr ⟨behind, high, hRight, ?_⟩⟩
          exact run_pure_eq_ok.mpr ⟨rfl, rfl⟩
      | _ => cases hContinues

/-- A chain that is no known constant takes a number for its end, and its
operands take the numbers behind. -/
theorem chain_of_value {e : Expr} {n m : Nat} {code : Code} (hShort : op.isShortCircuit = true)
    (hNode : continuesChain op e = true) (hUnknown : knownWords? environment.toSetting e = none)
    (h : (value environment constant e).run n = .ok (code, m)) :
    ∃ inner, (chain environment constant op (chainEnd op n) e).run (n + 1) = .ok (inner, m) ∧
      code = inner ++ [.ofLabel (chainEnd op n)] := by
  cases e with
  | binary info inner left right =>
      obtain rfl : op = inner := (beq_iff_eq.mp hNode).symm
      rw [value.eq_def, hUnknown] at h
      dsimp only at h
      rw [if_pos hShort] at h
      obtain ⟨number, _, hNumber, h⟩ := run_bind_eq_ok.mp h
      obtain ⟨rfl, rfl⟩ := run_freshNumber_eq_ok.mp hNumber
      obtain ⟨first, _, hFirst, h⟩ := run_either_eq_ok.mp h
      obtain ⟨second, _, hSecond, h⟩ := run_either_eq_ok.mp h
      obtain ⟨rfl, rfl⟩ := run_pure_eq_ok.mp h
      refine ⟨first ++ decision op (chainEnd op number) ++ second, ?_, rfl⟩
      rw [chain]
      exact run_either_eq_ok.mpr ⟨first, _, hFirst, run_either_eq_ok.mpr ⟨second, _, hSecond, rfl⟩⟩
  | _ => cases hNode

end Lowered

/-- Items that stop early wherever they stand: the machine evaluates operands
from left to right up to the first one that decides, and arrives behind the
items with the result on top of the stack. -/
def ShortCircuits (op : BinaryOp) (operands : List Expr) (number : Nat) (items : List Item) :
    Prop :=
  ∀ before after stack evaluated final, LeavesFree op number before →
    (Arrives (before ++ (items ++ after)) after (items ++ after, stack) evaluated final ↔
      ∃ result, StopsEarly op operands evaluated result ∧ final = result :: stack)

/-- Items that evaluate their operands in order, whatever stands around them, do
so within a program. -/
theorem Evaluates.shortCircuits {op : BinaryOp} {operands : List Expr} {number : Nat}
    {items : List Item}
    (h : Evaluates op operands number items) : ShortCircuits op operands number items := by
  intro before after stack evaluated final hBefore
  rw [h _ before after after stack evaluated final rfl hBefore (Nat.le_refl _)]
  constructor
  · rintro ⟨done, result, later, rfl, hDone, hLater⟩
    obtain ⟨rfl, rfl⟩ := Arrives.stop_iff.mp hLater
    exact ⟨result, by rwa [List.append_nil], rfl⟩
  · rintro ⟨result, hStops, rfl⟩
    exact ⟨evaluated, result, [], (List.append_nil _).symm, hStops, Arrives.stop_iff.mpr ⟨rfl, rfl⟩⟩

/-- Short-circuit chains, whatever their shape and whatever words their operands
have. The code of a chain, with one end for all of its operands, evaluates them
from left to right, goes on to no operand behind one that decides, and leaves
one word. The code in which every node of the same tree has an end of its own
exists as well, and shows the same runs. -/
theorem value_shortCircuits {environment : Environment} {depth n m : Nat} {op : BinaryOp}
    {e : Expr} {code : Code}
    (hShort : op.isShortCircuit = true) (hNode : continuesChain op e = true)
    (hUnknown : knownWords? environment.toSetting e = none)
    (hCode : (value environment (initializerWithin environment depth) e).run n = .ok (code, m)) :
    ∃ made items, Supplies environment (initializerWithin environment depth)
      (operandsOf op e) made ∧
      items = chainItems op (chainEnd op n) made ++ [.control (.ofLabel (chainEnd op n))] ∧
      code = listing items ∧ ShortCircuits op (operandsOf op e) n items ∧
      (∀ words : List Word, words.length = (operandsOf op e).length →
        ∃ evaluated result, evaluated <+: (operandsOf op e).zip words ∧
          StopsEarly op (operandsOf op e) evaluated result) ∧
      ∀ number, ∃ others high nodes,
        (nodewise environment (initializerWithin environment depth) op e).run number =
          .ok (others, high) ∧
        others = listing nodes ∧
        Supplies environment (initializerWithin environment depth) (operandsOf op e)
          (operandCodes nodes) ∧
        ∀ before after front back stack evaluated final, LeavesFree op n before →
          LeavesFree op number front →
          (Arrives (before ++ (items ++ after)) after (items ++ after, stack) evaluated final ↔
            Arrives (front ++ (nodes ++ back)) back (nodes ++ back, stack) evaluated final) := by
  have hClosed : ∀ e, Closed (initializerWithin environment depth e) :=
    closed_initializerWithin depth
  obtain ⟨inner, hChain, rfl⟩ := chain_of_value hShort hNode hUnknown hCode
  have hPart : (if continuesChain op e
      then chain environment (initializerWithin environment depth) op (chainEnd op n) e
      else value environment (initializerWithin environment depth) e).run (n + 1) =
        .ok (inner, m) := by
    rwa [if_pos hNode]
  obtain ⟨made, hMade, rfl⟩ := part_items (chainEnd op n) e _ _ _ hPart
  have hLabels : Covers (n + 1) m (chainItems op (chainEnd op n) made) :=
    (closed_chain hClosed op (chainEnd op n) e).owned hChain
  have hRuns : Evaluates op (operandsOf op e) n _ :=
    hMade.operands ▸ evaluates_chainItems hMade.ne_nil hLabels
  refine ⟨made, _, hMade, rfl, by simp, hRuns.shortCircuits,
    fun words hWords =>
      StopsEarly.exists_of_words (operandsOf_ne_nil op e) hWords, fun number => ?_⟩
  obtain ⟨others, high, hOthers⟩ :=
    accompanies_nodewise (accompanies_initializerWithin depth) (chainEnd op n) e _ _ _ hPart number
  obtain ⟨_, nodes, rfl, hSupplies, _, hNodes⟩ := nodewise_items hClosed e _ _ _ hOthers
  refine ⟨_, high, nodes, hOthers, rfl, hSupplies, ?_⟩
  intro before after front back stack evaluated final hBefore hFront
  rw [hRuns.shortCircuits before after stack evaluated final hBefore,
    hNodes.shortCircuits front back stack evaluated final hFront]

def flagEnvironment : Environment where
  program := ⟨"p", none, none, #[], #[], #[⟨"flag", .bool, .placed .statics, none⟩], #[], #[]⟩
  sizes := ⟨#[], #[], #[]⟩
  slots := ⟨#[some ⟨.statics, 0⟩], #[], [], [], [], 0, 0, 0⟩
  natives := NativeDatabase.empty
  frame := ⟨0, 0, 0, 0, #[]⟩

/-- A chain that is nested to the right, with its flag twice in front of a
negation. -/
def nestedChain : Expr :=
  let flag := Expr.ofVariable flagEnvironment.program 0
  .combined .and flag (.combined .and flag (.inverted flag))

/-- With a first word that is not zero and a second one that is, the machine
evaluates two operands and leaves the second word. -/
theorem value_shortCircuits_nested :
    knownWords? flagEnvironment.toSetting nestedChain = none ∧
    ∃ items evaluated, (flagEnvironment.value nestedChain).run 0 = .ok (listing items, 1) ∧
      evaluated.map Prod.snd = [Word.ofInt 1, Word.zero] ∧
      Arrives items [] (items, []) evaluated [Word.zero] := by
  have hUnknown : knownWords? flagEnvironment.toSetting nestedChain = none := rfl
  have hCode : ∃ code, (flagEnvironment.value nestedChain).run 0 = .ok (code, 1) := ⟨_, rfl⟩
  obtain ⟨code, hCode⟩ := hCode
  have hShort : BinaryOp.and.isShortCircuit = true := rfl
  obtain ⟨made, items, _, _, rfl, hRuns, _⟩ := value_shortCircuits hShort rfl hUnknown hCode
  have hOperands : ∃ first second third, operandsOf .and nestedChain =
      [first, second, third] := ⟨_, _, _, rfl⟩
  obtain ⟨first, second, third, hOperands⟩ := hOperands
  have hStops :
      StopsEarly .and (operandsOf .and nestedChain) [(first, Word.ofInt 1),
        (second, Word.zero)] Word.zero := by
    rw [hOperands]
    exact .on (by decide) (.decided (by decide))
  have hFree : LeavesFree .and 0 [] := fun _ _ => by simp
  have hArrives := (hRuns [] [] [] _ _ hFree).mpr ⟨Word.zero, hStops, rfl⟩
  rw [List.append_nil, List.nil_append] at hArrives
  exact ⟨hUnknown, items, _, hCode, rfl, hArrives⟩

end ScriptBackend.Lowering
