import ScriptBackend.Proofs.Assembly.DeclaredData
import ScriptBackend.Proofs.Assembly.Lookups

/-!
Names of functions inside of their frame instructions do not change a program. A
name makes its instruction longer, so that whatever comes behind moves, padding
included; what is the same is which primitive each address belongs to.
-/
namespace ScriptBackend.Assembly

open Outcome

/-! Places -/

/-- Where instructions begin, and where the code ends. -/
def places (instructions : List Instruction) (finish : Nat) : List Nat :=
  instructions.map Instruction.address ++ [finish]

/-- Two addresses of one place: the same instruction begins at both, at neither
of them another one does, or both are the end of the code. -/
def SamePlace (first second : List Nat) (address other : Nat) : Prop :=
  ∃ k, ∀ n : Nat, (first[n]? = some address ↔ n = k) ∧ (second[n]? = some other ↔ n = k)

/-- Each primitive takes at least the byte of its opcode. -/
theorem Primitive.size_pos {primitive : Primitive} {line : Line} {options : Options} {size : Nat}
    (h : primitive.size line options = .ok size) : 0 < size := by
  cases hBytes : primitive.opcode.format.size? with
  | some count =>
      obtain ⟨rfl, _⟩ := size_of_fixed h hBytes
      exact Nat.succ_pos count
  | none =>
      have hFormat : primitive.opcode.format = .enter ∨ primitive.opcode.format = .switch := by
        cases hFormat : primitive.opcode.format <;> simp_all [OperandFormat.size?]
      rcases hFormat with hEnter | hSwitch
      · obtain ⟨name, _, rfl, _⟩ := size_of_enter h hEnter
        unfold Opcode.enterSize
        split <;> omega
      · obtain ⟨_, rfl⟩ := size_of_switch h hSwitch
        unfold Opcode.switchSize
        omega

/-- Each primitive begins behind the one before it. -/
theorem Contiguous.increasing {options : Options} {row : List Located} {start finish : Nat}
    (h : Contiguous options start row finish) :
    (row.map Located.address ++ [finish]).Pairwise (· < ·) ∧
      ∀ address ∈ row.map Located.address ++ [finish], start ≤ address := by
  induction row generalizing start with
  | nil =>
      obtain rfl : start = finish := h
      simp
  | cons located rest ih =>
      obtain ⟨hSize, hAddress, hRest⟩ := h
      have hPlace := hAddress ▸ Page.le_place start located.size
      have hPositive := Primitive.size_pos hSize
      obtain ⟨hOrder, hBehind⟩ := ih hRest
      simp only [Located.endAddress] at hBehind
      rw [List.map_cons, List.cons_append, List.pairwise_cons, List.forall_mem_cons]
      refine ⟨⟨fun address hLater => ?_, hOrder⟩, hPlace, fun address hLater => ?_⟩
      all_goals
        have hLess := hBehind address hLater
        omega

/-- The first primitive of the second of two parts is at the place that the
first part counts. -/
theorem getElem?_places (first second : List Located) (finish : Nat) :
    ((first ++ second).map Located.address ++ [finish])[first.length]? =
      some (firstAddress second finish) := by
  cases second with
  | nil => simp [firstAddress]
  | cons located rest => simp [firstAddress]

/-! Two layouts of the same lines -/

/-- Primitives in place that come from the same statement. -/
def Located.Twin (located other : Located) : Prop :=
  located.line = other.line ∧ located.primitive = other.primitive

theorem twins_of_map {line : Line} {row others : List Located}
    (hPrimitives : row.map Located.primitive = others.map Located.primitive)
    (hOwn : ∀ located ∈ row, located.line = line)
    (hOthers : ∀ located ∈ others, located.line = line) :
    List.Forall₂ Located.Twin row others := by
  induction row generalizing others with
  | nil =>
      obtain rfl : others = [] := by simpa using hPrimitives.symm
      exact .nil
  | cons located rest ih =>
      obtain ⟨other, later, rfl, hFirst, hRest⟩ := List.map_eq_cons_iff.mp hPrimitives.symm
      rw [List.forall_mem_cons] at hOwn hOthers
      exact .cons ⟨hOwn.1.trans hOthers.1.symm, hFirst.symm⟩ (ih hRest.symm hOwn.2 hOthers.2)

section

variable {symbols : Symbols} {strings stored : StringPages} {options others : Options}
  {lines : List Line}

/-- Two layouts of the same lines hold the same primitives in the same order, at
places of their own. -/
theorem Arranged.twins {start begin finish stop : Nat} {rows columns : List (List Located)}
    (h : Arranged symbols strings options start lines rows finish)
    (hOther : Arranged symbols strings others begin lines columns stop) :
    List.Forall₂ (List.Forall₂ Located.Twin) rows columns := by
  induction h generalizing begin columns with
  | nil =>
      cases hOther
      exact .nil
  | cons primitives own places rest ih =>
      cases hOther with
      | cons otherPrimitives otherOwn _ otherRest =>
          have hSame := Except.ok.inj (primitives.symm.trans otherPrimitives)
          exact .cons (twins_of_map hSame own otherOwn) (ih otherRest)

end

/-- A label of the code stands for the same place in both layouts. -/
theorem samePlace_label {symbols : Symbols} {strings : StringPages} {lines : List Line}
    {plain named : Options} {layout other : Layout} {rows columns : List (List Located)}
    (hRows : Arranged symbols strings plain 0 lines rows layout.codeLength)
    (hColumns : Arranged symbols strings named 0 lines columns other.codeLength)
    (hLabels : ∀ i line label, lines[i]? = some line → line.segment = .code →
      line.label = some label →
      layout.labels.find? label = some (firstAddress (rows.drop i).flatten layout.codeLength))
    (hOthers : ∀ i line label, lines[i]? = some line → line.segment = .code →
      line.label = some label →
      other.labels.find? label = some (firstAddress (columns.drop i).flatten other.codeLength))
    {label : String} (hLabel : label ∈ codeLabels lines) :
    ∃ address moved, layout.labels.find? label = some address ∧
      other.labels.find? label = some moved ∧
      SamePlace (rows.flatten.map Located.address ++ [layout.codeLength])
        (columns.flatten.map Located.address ++ [other.codeLength]) address moved := by
  obtain ⟨line, hLine, hOwn⟩ := List.mem_filterMap.mp hLabel
  obtain ⟨i, hi⟩ := List.getElem?_of_mem hLine
  obtain ⟨hCode, hName⟩ : line.segment = .code ∧ line.label = some label := by
    simpa [Line.codeLabel?] using hOwn
  refine ⟨_, _, hLabels i line label hi hCode hName, hOthers i line label hi hCode hName,
    (rows.take i).flatten.length, fun n => ?_⟩
  have hCount : (rows.take i).flatten.length = (columns.take i).flatten.length :=
    (List.rel_flatten (List.forall₂_take i (hRows.twins hColumns))).length_eq
  have hPlace := getElem?_places (rows.take i).flatten (rows.drop i).flatten layout.codeLength
  have hMoved := getElem?_places (columns.take i).flatten (columns.drop i).flatten other.codeLength
  rw [← List.flatten_append, List.take_append_drop] at hPlace hMoved
  rw [← hCount] at hMoved
  have hOrder := hRows.contiguous.increasing.1.imp Nat.ne_of_lt
  have hOtherOrder := hColumns.contiguous.increasing.1.imp Nat.ne_of_lt
  constructor
  · constructor
    · intro hFound
      exact (List.getElem?_inj (List.getElem?_eq_some_iff.mp hFound).1 hOrder).mp
        (hFound.trans hPlace.symm)
    · rintro rfl
      exact hPlace
  · constructor
    · intro hFound
      exact (List.getElem?_inj (List.getElem?_eq_some_iff.mp hFound).1 hOtherOrder).mp
        (hFound.trans hMoved.symm)
    · rintro rfl
      exact hMoved

/-! One primitive under two layouts -/

namespace Environment

variable {first second : Environment}

/-- The native table behind a primitive does not depend on the layout. -/
theorem Like.natives (h : Like first second) {located other : Located} (hTwin : located.Twin other)
    {natives later final : NativeTable} {bytes others : List UInt8}
    (hFirst : first.operandBytes located.line located.primitive located.address natives =
      .ok (bytes, later))
    (hSecond : second.operandBytes other.line other.primitive other.address natives =
      .ok (others, final)) :
    later = final := by
  by_cases hFormat : located.primitive.opcode.format = .native
  · have hSame : second.operandBytes located.line located.primitive other.address natives =
        first.operandBytes located.line located.primitive located.address natives :=
      h.operandBytes (by rw [hFormat]; rfl) fun _ _ _ hAddress => by
        rw [hFormat] at hAddress
        cases hAddress
    rw [hFirst, hTwin.1, hTwin.2, hSecond] at hSame
    cases hSame
    rfl
  · rw [operandBytes_natives hFormat hFirst, operandBytes_natives (hTwin.2 ▸ hFormat) hSecond]

/-- Two layouts in which every label of the code stands for one place. -/
structure Moves (labels : List String) (before behind : List Nat) (first second : Environment) :
    Prop extends Like first second where
  moved : ∀ label ∈ labels, ∃ address other, first.labels.find? label = some address ∧
    second.labels.find? label = some other ∧ SamePlace before behind address other
  limits : ∀ label address, first.labels.find? label = some address ∨
    second.labels.find? label = some address →
    label ∈ labels ∧ address ≤ codeLimit ∧ first.symbols.contains label = false

end Environment

/-- Instructions of one primitive in two artifacts. Where the operand names a
label of the code, both denote the same place, and so do all jumps and all
cases; names inside of frame instructions aside, everything else is equal. -/
structure Corresponds (labels : List String) (before behind : List Nat) (located : Located)
    (instruction other : Instruction) : Prop where
  opcode : instruction.opcode = located.primitive.opcode ∧ other.opcode = located.primitive.opcode
  same : isRelocated located.primitive.opcode.format = false →
    (∀ name, holdsAddress located.primitive.opcode.format = true →
      located.primitive.operands = [.name name] →
      located.line.qualify name ∉ labels) → instruction.operandBytes = other.operandBytes
  frame : located.primitive.opcode.format = .enter → ∃ parameters frame name renamed,
    instruction.operands? = some (.enter parameters frame name) ∧
    other.operands? = some (.enter parameters frame renamed)
  jump : located.primitive.opcode.format = .relative → ∃ target moved,
    instruction.jumpTarget? = some target ∧ other.jumpTarget? = some moved ∧
      SamePlace before behind target moved
  branch : located.primitive.opcode.format = .switch →
    List.Forall₂ (fun entry moved => entry.1 = moved.1 ∧ SamePlace before behind entry.2 moved.2)
      instruction.switchCases other.switchCases
  call : ∀ name, located.primitive.opcode.format = .call →
    located.primitive.operands = [.name name] →
    located.line.qualify name ∈ labels → ∃ target moved, instruction.callTarget? = some target ∧
      other.callTarget? = some moved ∧ SamePlace before behind target moved
  unsigned24 : ∀ name, located.primitive.opcode.format = .unsigned24 →
    located.primitive.operands = [.name name] →
    located.line.qualify name ∈ labels → ∃ address moved,
      instruction.operands? = some (.unsigned24 address) ∧
      other.operands? = some (.unsigned24 moved) ∧ SamePlace before behind address moved
  word : ∀ name, located.primitive.opcode.format = .word →
    located.primitive.operands = [.name name] →
    located.line.qualify name ∈ labels → ∃ address moved,
      instruction.operands? = some (.word (UInt32.ofNat address)) ∧
      other.operands? = some (.word (UInt32.ofNat moved)) ∧ SamePlace before behind address moved

theorem CasesDenote.operand {environment : Environment} {line : Line} {entry : Nat}
    {operands : List Operand}
    {cases : List (UInt32 × Int)} (h : CasesDenote environment line entry operands cases) :
    cases.length = operands.length ∧ ∀ k < operands.length, ∃ value name target,
      operands[k]? = some (.case value name) ∧ environment.codeLabel line name = .ok target := by
  induction operands generalizing entry cases with
  | nil =>
      cases cases with
      | nil => simp
      | cons => exact h.elim
  | cons operand rest ih =>
      cases cases with
      | nil => cases operand <;> exact h.elim
      | cons found others =>
          cases operand with
          | case value name =>
              obtain ⟨_, ⟨target, hTarget, _⟩, hRest⟩ := h
              obtain ⟨hLength, hOperands⟩ := ih hRest
              refine ⟨by rw [List.length_cons, List.length_cons, hLength], fun k hk => ?_⟩
              cases k with
              | zero => exact ⟨value, name, target, rfl, hTarget⟩
              | succ k => exact hOperands k (Nat.succ_lt_succ_iff.mp hk)
          | _ => exact h.elim

/-- Wherever labels of the code are allowed besides jumps, there is one operand. -/
theorem Carries.alone {environment : Environment} {located : Located} {instruction : Instruction}
    {operand : Operand} {rest : List Operand} (h : Carries environment located instruction)
    (hFormat : holdsAddress located.primitive.opcode.format = true)
    (hOperands : located.primitive.operands = operand :: rest) : rest = [] := by
  obtain ⟨found, hFound⟩ : ∃ found, located.primitive.operands = [found] := by
    simp only [holdsAddress, Bool.or_eq_true, decide_eq_true_eq] at hFormat
    rcases hFormat with (hWord | hCall) | hUnsigned
    · obtain ⟨_, _, hRead, hDenotes⟩ := h.operands?_eq hWord
      obtain ⟨_, rfl⟩ := OperandValues.word_of_read? hRead
      obtain ⟨found, _, hFound, _⟩ := hDenotes
      exact ⟨found, hFound⟩
    · obtain ⟨_, _, hRead, hDenotes⟩ := h.operands?_eq hCall
      obtain ⟨_, rfl⟩ := OperandValues.call_of_read? hRead
      obtain ⟨found, hFound, _⟩ := hDenotes
      exact ⟨found, hFound⟩
    · obtain ⟨_, _, hRead, hDenotes⟩ := h.operands?_eq hUnsigned
      obtain ⟨_, rfl⟩ := OperandValues.unsigned24_of_read? hRead
      obtain ⟨found, hFound, _⟩ := hDenotes
      exact ⟨found, hFound⟩
  exact (List.cons.inj (hOperands.symm.trans hFound)).2

/-- A branch has a case for each of its operands, which name labels of the code. -/
theorem Carries.switchCases_length {environment : Environment} {located : Located}
    {instruction : Instruction}
    (h : Carries environment located instruction)
    (hFormat : located.primitive.opcode.format = .switch) :
    instruction.switchCases.length = located.primitive.operands.length ∧
      ∀ k < located.primitive.operands.length, ∃ value name target,
        located.primitive.operands[k]? = some (.case value name) ∧
        environment.codeLabel located.line name = .ok target := by
  obtain ⟨_, hValues, hRead, hDenotes⟩ := h.operands?_eq hFormat
  obtain ⟨cases, rfl, _⟩ := OperandValues.switch_of_read? hRead
  obtain ⟨hLength, hOperands⟩ := CasesDenote.operand hDenotes
  refine ⟨?_, hOperands⟩
  rw [Instruction.switchCases, hValues]
  simpa using hLength

namespace Environment.Moves

variable {labels : List String} {before behind : List Nat} {first second : Environment}
  {located other : Located} {instruction copy : Instruction}

/-- A label of the code that is mentioned is one of those that move. -/
theorem mem_of_codeLabel (h : Moves labels before behind first second) {line : Line}
    {name : String} {target : Nat}
    (hTarget : first.codeLabel line name = .ok target) : line.qualify name ∈ labels := by
  unfold codeLabel at hTarget
  split at hTarget
  · next address hFound => exact (h.limits _ address (.inl hFound)).1
  · cases hTarget

/-- A label outside of the code stands for the same value in both environments. -/
theorem find?_eq (h : Moves labels before behind first second) {label : String}
    (hLabel : label ∉ labels) :
    second.labels.find? label = first.labels.find? label := by
  have hNone : first.labels.find? label = none := by
    by_contra hSome
    obtain ⟨address, hFound⟩ := Option.ne_none_iff_exists'.mp hSome
    exact hLabel (h.limits label address (.inl hFound)).1
  have hOther : second.labels.find? label = none := by
    by_contra hSome
    obtain ⟨address, hFound⟩ := Option.ne_none_iff_exists'.mp hSome
    exact hLabel (h.limits label address (.inr hFound)).1
  rw [hNone, hOther]

/-- What both instructions say of a label that their primitive names. -/
theorem reaches (h : Moves labels before behind first second) (hTwin : located.Twin other)
    (hFirst : Carries first located instruction)
    (hSecond : Carries second other copy) {label : String}
    (hLabel : label ∈ labels) : ∃ address moved, Reaches label address located instruction ∧
      Reaches label moved located copy ∧ SamePlace before behind address moved := by
  obtain ⟨address, moved, hAddress, hMoved, hPlace⟩ := h.moved label hLabel
  obtain ⟨_, hLimit, hUnknown⟩ := h.limits label address (.inl hAddress)
  obtain ⟨_, hOtherLimit, _⟩ := h.limits label moved (.inr hMoved)
  have hReaches := hSecond.reaches hMoved ((h.symbols.contains label).trans hUnknown) hOtherLimit
  refine ⟨address, moved, hFirst.reaches hAddress hUnknown hLimit, ?_, hPlace⟩
  exact ⟨fun name => hTwin.1 ▸ hTwin.2 ▸ hReaches.jump name,
    fun k value name => hTwin.1 ▸ hTwin.2 ▸ hReaches.branch k value name,
    fun name => hTwin.1 ▸ hTwin.2 ▸ hReaches.call name, fun name =>
      hTwin.1 ▸ hTwin.2 ▸ hReaches.unsigned24 name,
    fun name => hTwin.1 ▸ hTwin.2 ▸ hReaches.word name⟩

theorem frame (h : Moves labels before behind first second) (hTwin : located.Twin other)
    (hFirst : Carries first located instruction) (hSecond : Carries second other copy)
    (hFormat : located.primitive.opcode.format = .enter) :
    ∃ parameters frame name renamed, instruction.operands? = some (.enter parameters frame name) ∧
      copy.operands? = some (.enter parameters frame renamed) := by
  obtain ⟨_, hValues, hRead, hDenotes⟩ := hFirst.operands?_eq hFormat
  obtain ⟨_, hOtherValues, hOtherRead, hOtherDenotes⟩ := hSecond.operands?_eq (hTwin.2 ▸ hFormat)
  obtain ⟨parameters, frame, name, rfl⟩ := OperandValues.enter_of_read? hRead
  obtain ⟨others, size, renamed, rfl⟩ := OperandValues.enter_of_read? hOtherRead
  obtain ⟨one, two, rest, _, hOperands, hParameters, hFrame, _⟩ := hDenotes
  obtain ⟨three, four, more, _, hOtherOperands, hOthers, hSize, _⟩ := hOtherDenotes
  rw [← hTwin.2, hOperands] at hOtherOperands
  cases hOtherOperands
  rw [← hTwin.1, h.integer (by simp)] at hOthers hSize
  have hSame : (parameters : Int) = others := Except.ok.inj (hParameters.symm.trans hOthers)
  have hFrames : (frame : Int) = size := Except.ok.inj (hFrame.symm.trans hSize)
  obtain rfl := Int.ofNat.inj hSame
  obtain rfl := Int.ofNat.inj hFrames
  exact ⟨_, _, _, _, hValues, hOtherValues⟩

theorem jump (h : Moves labels before behind first second) (hTwin : located.Twin other)
    (hFirst : Carries first located instruction) (hSecond : Carries second other copy)
    (hFormat : located.primitive.opcode.format = .relative) :
    ∃ target moved, instruction.jumpTarget? = some target ∧ copy.jumpTarget? = some moved ∧
      SamePlace before behind target moved := by
  obtain ⟨_, _, hRead, hDenotes⟩ := hFirst.operands?_eq hFormat
  obtain ⟨distance, rfl, _⟩ := OperandValues.relative_of_read? hRead
  obtain ⟨name, target, hOperands, hTarget, _⟩ := hDenotes
  obtain ⟨address, moved, hReach, hMoved, hPlace⟩ :=
    h.reaches hTwin hFirst hSecond (h.mem_of_codeLabel hTarget)
  exact ⟨address, moved, (hReach.jump name hFormat hOperands rfl).1,
    (hMoved.jump name hFormat hOperands rfl).1, hPlace⟩

/-- The cases of a branch are those of its operands, and their labels are labels
of the code. -/
theorem branch (h : Moves labels before behind first second) (hTwin : located.Twin other)
    (hFirst : Carries first located instruction) (hSecond : Carries second other copy)
    (hFormat : located.primitive.opcode.format = .switch) :
    List.Forall₂ (fun entry moved => entry.1 = moved.1 ∧ SamePlace before behind entry.2 moved.2)
      instruction.switchCases copy.switchCases := by
  obtain ⟨hLength, hCases⟩ := hFirst.switchCases_length hFormat
  obtain ⟨hOtherLength, _⟩ := hSecond.switchCases_length (hTwin.2 ▸ hFormat)
  rw [← hTwin.2] at hOtherLength
  rw [List.forall₂_iff_get]
  refine ⟨hLength.trans hOtherLength.symm, fun k hk hOther => ?_⟩
  obtain ⟨value, name, target, hOperand, hTarget⟩ := hCases k (hLength ▸ hk)
  obtain ⟨address, moved, hReach, hMoved, hPlace⟩ :=
    h.reaches hTwin hFirst hSecond (h.mem_of_codeLabel hTarget)
  obtain ⟨found, hEntry, hFound, _⟩ := hReach.branch k value name hFormat hOperand rfl
  obtain ⟨again, hAgain, hSame, _⟩ := hMoved.branch k value name hFormat hOperand rfl
  rw [List.get_eq_getElem, List.get_eq_getElem,
    Option.some.inj ((List.getElem?_eq_getElem hk).symm.trans hEntry),
    Option.some.inj ((List.getElem?_eq_getElem hOther).symm.trans hAgain)]
  have hValues : (found.toNat : Int) = again.toNat := hFound.trans hSame.symm
  exact ⟨UInt32.toNat_inj.mp (Int.ofNat.inj hValues), hPlace⟩

/-- Primitives of one statement are encoded as instructions that correspond. -/
theorem corresponds (h : Moves labels before behind first second) (hTwin : located.Twin other)
    (hFirst : Carries first located instruction) (hSecond : Carries second other copy)
    {natives later final : NativeTable}
    (hBytes : first.operandBytes located.line located.primitive located.address natives =
      .ok (instruction.operandBytes, later))
    (hOther : second.operandBytes other.line other.primitive other.address natives =
      .ok (copy.operandBytes, final)) :
    Corresponds labels before behind located instruction copy where
  opcode := ⟨hFirst.opcode, hTwin.2 ▸ hSecond.opcode⟩
  same := fun hFormat hLabel => by
    have hSame : second.operandBytes located.line located.primitive other.address natives =
        first.operandBytes located.line located.primitive located.address natives :=
      h.operandBytes hFormat fun name rest hOperands hKind => by
        obtain rfl := hFirst.alone hKind hOperands
        exact h.find?_eq (hLabel name hKind hOperands)
    rw [hBytes, hTwin.1, hTwin.2, hOther] at hSame
    exact congrArg Prod.fst (Except.ok.inj hSame.symm)
  frame := h.frame hTwin hFirst hSecond
  jump := h.jump hTwin hFirst hSecond
  branch := h.branch hTwin hFirst hSecond
  call := fun name hFormat hOperands hLabel => by
    obtain ⟨address, moved, hReach, hMoved, hPlace⟩ := h.reaches hTwin hFirst hSecond hLabel
    exact ⟨address, moved, hReach.call name hFormat hOperands rfl,
      hMoved.call name hFormat hOperands rfl, hPlace⟩
  unsigned24 := fun name hFormat hOperands hLabel => by
    obtain ⟨address, moved, hReach, hMoved, hPlace⟩ := h.reaches hTwin hFirst hSecond hLabel
    exact ⟨address, moved, hReach.unsigned24 name hFormat hOperands rfl,
      hMoved.unsigned24 name hFormat hOperands rfl, hPlace⟩
  word := fun name hFormat hOperands hLabel => by
    obtain ⟨address, moved, hReach, hMoved, hPlace⟩ := h.reaches hTwin hFirst hSecond hLabel
    exact ⟨address, moved, hReach.word name hFormat hOperands rfl,
      hMoved.word name hFormat hOperands rfl, hPlace⟩

/-- Rows of the same primitives are encoded with the same natives, as
instructions that correspond. -/
theorem encodes (h : Moves labels before behind first second) {row others : List Located}
    (hTwins : List.Forall₂ Located.Twin row others) {start begin finish stop : Nat}
    {natives later final : NativeTable} {instructions copies : List Instruction}
    (hRow : Contiguous first.options start row finish)
    (hOthers : Contiguous second.options begin others stop)
    (hFirst : Encodes first natives row instructions later)
    (hSecond : Encodes second natives others copies final) :
    later = final ∧ instructions.length = row.length ∧ copies.length = row.length ∧
      List.Forall₂ (fun located pair => Corresponds labels before behind located pair.1 pair.2) row
        (instructions.zip copies) := by
  induction hTwins generalizing start begin natives instructions copies with
  | nil =>
      cases hFirst
      cases hSecond
      exact ⟨rfl, rfl, rfl, .nil⟩
  | @cons located other row others hTwin hRest ih =>
      cases hFirst with
      | @cons _ _ _ _ _ bytes _ hBytes hFirstRest =>
          cases hSecond with
          | @cons _ _ _ _ _ copied _ hOther hSecondRest =>
              obtain ⟨hSize, _, hRowRest⟩ := hRow
              obtain ⟨hOtherSize, _, hOthersRest⟩ := hOthers
              obtain ⟨hLength, hReads⟩ := Environment.operandBytes_ok hSize hBytes
              obtain ⟨hOtherLength, hOtherReads⟩ := Environment.operandBytes_ok hOtherSize hOther
              have hCarries : Carries first located ⟨located.address,
                  located.primitive.opcode, bytes⟩ :=
                ⟨rfl, rfl, hLength, hReads⟩
              have hOtherCarries : Carries second other ⟨other.address,
                  other.primitive.opcode, copied⟩ :=
                ⟨rfl, rfl, hOtherLength, hOtherReads⟩
              have hHere := h.corresponds hTwin hCarries hOtherCarries hBytes hOther
              obtain rfl := h.natives hTwin hBytes hOther
              obtain ⟨hSame, hCount, hOtherCount, hAll⟩ :=
                ih hRowRest hOthersRest hFirstRest hSecondRest
              refine ⟨hSame, ?_, ?_, .cons hHere hAll⟩
              · rw [List.length_cons, List.length_cons, hCount]
              · rw [List.length_cons, List.length_cons, hOtherCount]

end Environment.Moves

/-! Words -/

/-- Words of one source in two scripts. Where the source is a label of the code,
both are addresses of one place. -/
structure WordsCorrespond (labels : List String) (before behind : List Nat)
    (source : Option WordSource) (word other : Word) : Prop where
  same : (∀ line name, source = some ⟨line, .int, .name name⟩ → line.qualify name ∉ labels) →
    word = other
  label : ∀ line name, source = some ⟨line, .int, .name name⟩ → line.qualify name ∈ labels →
    ∃ address moved : Nat, word = Word.ofInt address ∧ other = Word.ofInt moved ∧
      SamePlace before behind address moved

/-- A label of the code is left to its address. -/
theorem PendingWord.evaluate_label {symbols : Symbols} {line : Line} {name : String} {offset : Nat}
    (h : symbols.contains (line.qualify name) = false) :
    evaluate ⟨line, offset, .int, .name name⟩ symbols = .ok (.address (line.qualify name)) := by
  unfold evaluate
  simp only [reduceCtorEq, if_false, Symbols.intOperand, Symbols.value?_of_contains h]

/-- A word of the data changes only if it holds the address of a label of the
code, and then moves with it. -/
theorem Environment.Moves.words {labels : List String} {before behind : List Nat}
    {first second : Environment}
    (h : Moves labels before behind first second) {source : Option WordSource} {word other : Word}
    (hWord : WordDenotes first.symbols first.labels source word)
    (hOther : WordDenotes second.symbols second.labels source other) :
    WordsCorrespond labels before behind source word other := by
  rw [h.symbols.wordDenotes] at hOther
  cases source with
  | none => exact ⟨fun _ => hWord.trans hOther.symm, fun _ _ hNone => by cases hNone⟩
  | some source =>
      obtain ⟨line, kind, operand⟩ := source
      constructor
      · intro hLabel
        -- a word that waits for a label waits for one of the code
        have hKnown : ∀ label address,
            PendingWord.evaluate ⟨line, 0, kind, operand⟩ first.symbols = .ok (.address label) →
            first.labels.find? label = some address → False := by
          intro label address hWaits hAddress
          cases kind with
          | float =>
              rcases PendingWord.evaluate_float hWaits
                with ⟨_, _, hFound⟩ | ⟨_, _, hFound⟩ <;> cases hFound
          | int =>
              rcases PendingWord.evaluate_int hWaits with ⟨_, _, _, _, hFound⟩ | ⟨name, rfl, hFound⟩
              · cases hFound
              · cases hFound
                exact hLabel line name rfl (h.limits _ address (.inl hAddress)).1
        rcases hWord with hValue | ⟨label, address, hWaits, hAddress, _⟩
        · rcases hOther with hSame | ⟨_, _, hWaits, _⟩
          · rw [hValue] at hSame
            cases hSame
            rfl
          · rw [hValue] at hWaits
            cases hWaits
        · exact (hKnown label address hWaits hAddress).elim
      · rintro line' name hSource hLabel
        cases hSource
        obtain ⟨address, moved, hAddress, hMoved, hPlace⟩ := h.moved _ hLabel
        have hWaits : PendingWord.evaluate ⟨line, 0, .int, .name name⟩ first.symbols =
            .ok (.address (line.qualify name)) :=
          PendingWord.evaluate_label (h.limits _ address (.inl hAddress)).2.2
        exact ⟨address, moved, hWord.unique (.inr ⟨_, address, hWaits, hAddress, rfl⟩),
          hOther.unique (.inr ⟨_, moved, hWaits, hMoved, rfl⟩), hPlace⟩

/-! Two scripts of one unit -/

namespace Assembled

variable {source : NativeSource} {options others : Options} {statements : List Statement}
  {script copy : Script}

/-- The data of a unit does not depend on its options. -/
theorem data_eq (unit : Assembled source options statements script)
    (other : Assembled source others statements copy) :
    unit.data = other.data :=
  Except.ok.inj (unit.collected.symm.trans other.collected)

/-- The strings of a unit do not depend on its options. -/
theorem strings_same (unit : Assembled source options statements script)
    (other : Assembled source others statements copy) : unit.strings = other.strings := by
  rw [layoutCode_stores unit.laidOut, layoutCode_stores other.laidOut, unit.data_eq other]

/-- The image of the script has the header of the collected data. -/
theorem header_eq (unit : Assembled source options statements script) :
    unit.image.name = unit.data.image.name ∧ unit.image.hash = unit.data.image.hash ∧
      unit.image.block = unit.data.image.block := by
  obtain ⟨stores, hImage, _⟩ := resolveReferences_ok unit.resolved
  obtain ⟨hName, hHash⟩ := header_storeAll unit.data.image stores
  rw [hImage]
  exact ⟨hName, hHash, block_storeAll ..⟩

theorem statics_denote (unit : Assembled source options statements script) :
    List.Forall₂ (WordDenotes unit.data.symbols unit.layout.labels)
      (wordSources .statics (scopeLines statements) ++
        wordSources .arguments (scopeLines statements))
      script.statics.toList := by
  have hStatics : script.statics = unit.image.statics ++ unit.image.arguments :=
    congrArg Script.statics unit.linked
  rw [hStatics, Array.toList_append]
  exact List.rel_append (unit.holdsData.denote .statics) (unit.holdsData.denote .arguments)

theorem globals_denote (unit : Assembled source options statements script) :
    List.Forall₂ (WordDenotes unit.data.symbols unit.layout.labels)
      (wordSources .globals (scopeLines statements)) script.globalsPages.flatten := by
  have hGlobals : script.globalsPages = Page.split unit.image.globals.toList :=
    congrArg Script.globalsPages unit.linked
  rw [hGlobals, Page.flatten_split]
  exact unit.holdsData.denote .globals

/-- Between two scripts of a unit, every label of the code stays at its place. -/
theorem moves (unit : Assembled source options statements script)
    (other : Assembled source others statements copy) {rows columns : List (List Located)}
    (hRows : Arranged unit.data.symbols unit.strings options 0 (scopeLines statements) rows
      unit.layout.codeLength)
    (hColumns : Arranged unit.data.symbols unit.strings others 0 (scopeLines statements) columns
      other.layout.codeLength)
    (hLabels : ∀ i line label, (scopeLines statements)[i]? = some line → line.segment = .code →
      line.label = some label → unit.layout.labels.find? label =
        some (firstAddress (rows.drop i).flatten unit.layout.codeLength))
    (hOthers : ∀ i line label, (scopeLines statements)[i]? = some line → line.segment = .code →
      line.label = some label → other.layout.labels.find? label =
        some (firstAddress (columns.drop i).flatten other.layout.codeLength)) :
    Environment.Moves (codeLabels (scopeLines statements))
      (rows.flatten.map Located.address ++ [unit.layout.codeLength])
      (columns.flatten.map Located.address ++ [other.layout.codeLength]) unit.environment
        other.environment where
  symbols := by
    rw [environment, environment, ← unit.data_eq other]
    exact .refl unit.data.symbols
  source := rfl
  moved := fun label hLabel => samePlace_label hRows hColumns hLabels hOthers hLabel
  limits := by
    obtain ⟨_, _, _, _, hBound⟩ := layoutCode_ok unit.laidOut
    obtain ⟨_, _, _, _, hOtherBound⟩ := layoutCode_ok other.laidOut
    rintro label address (hFound | hFound)
    · obtain ⟨hLimit, hUnknown⟩ := hBound label address hFound
      exact ⟨(layoutCode_found unit.laidOut).2 label address hFound,
        hLimit.trans unit.reachable, hUnknown⟩
    · obtain ⟨hLimit, hUnknown⟩ := hOtherBound label address hFound
      rw [← unit.data_eq other] at hUnknown
      exact ⟨(layoutCode_found other.laidOut).2 label address hFound,
        hLimit.trans other.reachable, hUnknown⟩

end Assembled

/-- The places of instructions are those of the primitives that they carry. -/
theorem places_eq {environment : Environment} {row : List Located} {instructions : List Instruction}
    (h : List.Forall₂ (Carries environment) row instructions) (finish : Nat) :
    places instructions finish = row.map Located.address ++ [finish] := by
  induction h with
  | nil => rfl
  | cons hFirst _ ih =>
      rw [places] at ih ⊢
      rw [List.map_cons, List.map_cons, List.cons_append, List.cons_append, ih, hFirst.address]

theorem forall₂_zip {α β γ : Type} {first : α → β → Prop} {second : α → γ → Prop}
    {both : α → β → γ → Prop} {origins : List α} {left : List β} {right : List γ}
    (h : ∀ origin one two, first origin one → second origin two → both origin one two)
    (hFirst : List.Forall₂ first origins left) (hSecond : List.Forall₂ second origins right) :
    List.Forall₂ (fun origin pair => both origin pair.1 pair.2) origins (left.zip right) := by
  induction hFirst generalizing right with
  | nil =>
      cases hSecond
      exact .nil
  | cons hOne _ ih =>
      cases hSecond with
      | cons hTwo hRest => exact .cons (h _ _ _ hOne hTwo) (ih hRest)

/-- Two scripts that are one program: the same primitives in order, whose
operands correspond, padding aside; the same strings and natives; and the same
words, but for the addresses in them. -/
structure SameProgram (lines : List Line) (row : List Located) (plain named : Script)
    (first second : List Instruction) : Prop where
  decoded : Disassembly.ofCode plain.code = ⟨Instruction.padded 0 first, none⟩ ∧
    Disassembly.ofCode named.code = ⟨Instruction.padded 0 second, none⟩
  count : first.length = row.length ∧ second.length = row.length
  instructions : List.Forall₂ (fun located pair =>
    Corresponds (codeLabels lines) (places first plain.codeLength)
    (places second named.codeLength) located pair.1 pair.2) row (first.zip second)
  strings : plain.strings = named.strings
  natives : ∀ index, plain.nativeHash? index = named.nativeHash? index
  sizes : plain.statics.size = named.statics.size ∧ plain.argumentCount = named.argumentCount ∧
    plain.globalsLength = named.globalsLength
  statics : List.Forall₂ (fun source pair =>
      WordsCorrespond (codeLabels lines) (places first plain.codeLength)
      (places second named.codeLength) source pair.1 pair.2)
    (wordSources .statics lines ++ wordSources .arguments lines)
      (plain.statics.toList.zip named.statics.toList)
  globals : List.Forall₂ (fun source pair =>
      WordsCorrespond (codeLabels lines) (places first plain.codeLength)
      (places second named.codeLength) source pair.1 pair.2)
    (wordSources .globals lines) (plain.globalsPages.flatten.zip named.globalsPages.flatten)
  header : plain.name = named.name ∧ plain.hash = named.hash ∧
    plain.globalsBlock = named.globalsBlock

/-- Options with or without the names of functions inside of frame instructions. -/
def naming (options : Options) (names : Bool) : Options :=
  { options with includeFunctionNames := names }

/-- Names of functions inside of frame instructions do not change the program:
wherever labels of the code are named, both scripts have the address of the same
primitive, or of the end, and whatever is not such an address is equal. -/
theorem functionNames_keep_program {source : NativeSource} {options : Options}
    {statements : List Statement}
    {plain named : Script} (hPlain : assemble source (naming options false) statements = .ok plain)
    (hNamed : assemble source (naming options true) statements = .ok named) :
    ∃ (unit : Assembled source (naming options false) statements plain) (rows : List (List Located))
      (first second : List Instruction),
      Arranged unit.data.symbols unit.strings (naming options false) 0 (scopeLines statements) rows
        plain.codeLength ∧
      SameProgram (scopeLines statements) rows.flatten plain named first second := by
  obtain ⟨unit⟩ := assemble_ok hPlain
  obtain ⟨other⟩ := assemble_ok hNamed
  obtain ⟨rows, hRows, hAddresses, hLabels, _⟩ := layoutCode_ok unit.laidOut
  obtain ⟨columns, hColumns, hOtherAddresses, hOtherLabels, _⟩ := layoutCode_ok other.laidOut
  obtain ⟨first, hFirst, hDecoded⟩ := unit.encodes hRows hAddresses
  obtain ⟨second, hSecond, hOtherDecoded⟩ := other.encodes hColumns hOtherAddresses
  have hPlaces := places_eq (hFirst.carries hRows.contiguous) unit.layout.codeLength
  have hOtherPlaces := places_eq (hSecond.carries hColumns.contiguous) other.layout.codeLength
  have hShared := hColumns
  rw [← unit.data_eq other, ← unit.strings_same other] at hShared
  have hMoves := unit.moves other hRows hShared hLabels hOtherLabels
  rw [← hPlaces, ← hOtherPlaces, ← unit.codeLength_eq, ← other.codeLength_eq] at hMoves
  have hNatives : unit.data.natives = other.data.natives :=
    congrArg DataUnit.natives (unit.data_eq other)
  rw [← hNatives] at hSecond
  obtain ⟨hSame, hCount, hOtherCount, hAll⟩ :=
    hMoves.encodes (List.rel_flatten (hRows.twins hShared))
    hRows.contiguous hShared.contiguous hFirst hSecond
  obtain ⟨hName, hHash, hBlock⟩ := unit.header_eq
  obtain ⟨hOtherName, hOtherHash, hOtherBlock⟩ := other.header_eq
  rw [← unit.data_eq other] at hOtherName hOtherHash hOtherBlock
  have hSizes : ∀ region, (unit.image.regionWords region).size =
      (other.image.regionWords region).size :=
    fun region => (unit.holdsData.sizes region).trans (other.holdsData.sizes region).symm
  refine ⟨unit, rows, first, second, unit.codeLength_eq ▸ hRows, ⟨hDecoded, hOtherDecoded⟩,
    ⟨hCount, hOtherCount⟩, hAll, ?_, fun index => ?_, ⟨?_, ?_, ?_⟩, ?_, ?_, ?_, ?_, ?_⟩
  · rw [unit.strings_eq, other.strings_eq, unit.strings_same other]
  · rw [unit.nativeHash?_eq, other.nativeHash?_eq, hSame]
  · rw [unit.linked, other.linked, link, link, Array.size_append, Array.size_append]
    exact congrArg₂ (· + ·) (hSizes .statics) (hSizes .arguments)
  · rw [unit.linked, other.linked]
    exact hSizes .arguments
  · rw [unit.linked, other.linked]
    exact hSizes .globals
  · exact forall₂_zip (fun _ _ _ => hMoves.words) unit.statics_denote other.statics_denote
  · exact forall₂_zip (fun _ _ _ => hMoves.words) unit.globals_denote other.globals_denote
  · rw [unit.linked, other.linked, link, link, hName, hOtherName]
    rfl
  · rw [unit.linked, other.linked, link, link, hHash, hOtherHash]
  · rw [unit.linked, other.linked, link, link, hBlock, hOtherBlock]

def callingUnit (operand : Operand) : List Statement := [
  { Statement.ofInstruction "ENTER" [.int 0, .int 2] with label := some "MAIN" },
  { Statement.ofInstruction "CALL" [operand] with label := some "SELF" }]

def enteringSize (names : Bool) : Nat :=
  if names then 10 else 5

def enteringName (names : Bool) : Option String :=
  if names then some "MAIN" else none

def callingInstructions (names : Bool) (target : Nat) : List Instruction := [
  ⟨0, .enter, [0, 2, 0] ++ Environment.frameNameBytes (enteringName names)⟩,
  ⟨enteringSize names, .call, Bytes.littleInt 3 target⟩]

/-- The unit is assembled to two instructions. A label that is called moves with
the size of the first one, a number does not. -/
theorem assemble_calling {operand : Operand} {target : Bool → Nat}
    (h : operand = .name "SELF" ∧ target = enteringSize ∨ operand = .int 5 ∧ target = fun _ => 5)
    (names : Bool) :
    ∃ script, assemble NativeDatabase.empty (naming .default names)
      (callingUnit operand) = .ok script ∧
      script.codeLength = enteringSize names + 4 ∧ Disassembly.ofCode script.code =
        ⟨Instruction.padded 0 (callingInstructions names (target names)), none⟩ := by
  rcases h with ⟨rfl, rfl⟩ | ⟨rfl, rfl⟩ <;> cases names <;> exact exists_of_any (by decide +kernel)

theorem functionNames_keep_program_calling :
    ∃ plain named, assemble NativeDatabase.empty (naming .default false)
      (callingUnit (.name "SELF")) = .ok plain ∧
      assemble NativeDatabase.empty (naming .default true) (callingUnit (.name "SELF")) =
        .ok named ∧
      Disassembly.ofCode plain.code = ⟨Instruction.padded 0 (callingInstructions false 5), none⟩ ∧
      Disassembly.ofCode named.code = ⟨Instruction.padded 0 (callingInstructions true 10), none⟩ ∧
      ∃ (row : List Located) (first second : List Instruction),
        SameProgram (scopeLines (callingUnit (.name "SELF"))) row plain named first second := by
  have hSelf := assemble_calling (.inl ⟨rfl, rfl⟩)
  obtain ⟨plain, hPlain, _, hCode⟩ := hSelf false
  obtain ⟨named, hNamed, _, hOther⟩ := hSelf true
  obtain ⟨_, rows, first, second, _, hSame⟩ := functionNames_keep_program hPlain hNamed
  exact ⟨plain, named, hPlain, hNamed, hCode, hOther, rows.flatten, first, second, hSame⟩

/-- A number in place of a label stays as it is, so that the call of the second
instruction no longer is one when a name makes the first instruction longer. -/
theorem number_keeps_target :
    ∃ plain named, assemble NativeDatabase.empty (naming .default false)
      (callingUnit (.int 5)) = .ok plain ∧
      assemble NativeDatabase.empty (naming .default true) (callingUnit (.int 5)) = .ok named ∧
      Disassembly.ofCode plain.code = ⟨Instruction.padded 0 (callingInstructions false 5), none⟩ ∧
      Disassembly.ofCode named.code = ⟨Instruction.padded 0 (callingInstructions true 5), none⟩ ∧
      (callingInstructions false 5).map Instruction.callTarget? = [none, some 5] ∧
      (callingInstructions true 5).map Instruction.callTarget? = [none, some 5] ∧
      (places (callingInstructions false 5) plain.codeLength)[1]? = some 5 ∧
      5 ∉ places (callingInstructions true 5) named.codeLength := by
  have hNumber := assemble_calling (.inr ⟨rfl, rfl⟩)
  obtain ⟨plain, hPlain, hLength, hCode⟩ := hNumber false
  obtain ⟨named, hNamed, hOtherLength, hOther⟩ := hNumber true
  refine ⟨plain, named, hPlain, hNamed, hCode, hOther, ?_, ?_, rfl, ?_⟩
  · decide
  · rfl
  · rw [hOtherLength]
    decide

end ScriptBackend.Assembly
