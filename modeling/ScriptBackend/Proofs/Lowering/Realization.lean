import ScriptBackend.Proofs.Lowering.ActionCode
import ScriptBackend.Proofs.Lowering.ControlMachine

/-!
Code that realizes a run. Wherever such code stands, the machine shows on its
way through it what can be seen of the run, and goes on where the exit of the
run leads. Pieces of code can be put together if the labels that lowering made
up for them are different.
-/
namespace ScriptBackend.Lowering

open ScriptBackend.Assembly

/-! Labels of pieces of code -/

/-- Items that define labels of a range of numbers only. -/
def Covers (low high : Nat) (items : List Item) : Prop :=
  ∀ label ∈ definedLabels (listing items), Owned low high label

/-- Pieces of code that share no labels but those of the program. -/
def Apart (first second : List Item) : Prop :=
  ∀ label ∈ definedLabels (listing first), label ∈ definedLabels (listing second) →
    isUserLabel label = true

namespace Covers

variable {low middle high : Nat} {items first second : List Item}

@[simp] theorem nil : Covers low high [] := by
  intro label hLabel
  cases hLabel

@[simp] theorem append_iff :
    Covers low high (first ++ second) ↔ Covers low high first ∧ Covers low high second := by
  simp [Covers, or_imp, forall_and]

@[simp] theorem instruction_iff {mnemonic : String} {operands : List Operand} :
    Covers low high (.control (.ofInstruction mnemonic operands) :: items) ↔
      Covers low high items := by
  simp [Covers]

@[simp] theorem naming_iff {mnemonic label : String} :
    Covers low high (.control (naming mnemonic label) :: items) ↔ Covers low high items :=
  instruction_iff

@[simp] theorem ofLabel_iff {label : String} :
    Covers low high (.control (.ofLabel label) :: items) ↔
      Owned low high label ∧ Covers low high items := by
  simp [Covers]

theorem mono {lower higher : Nat} (h : Covers low high items) (hLow : lower ≤ low)
    (hHigh : high ≤ higher) : Covers lower higher items :=
  fun label hLabel => (h label hLabel).mono hLow hHigh

/-- A label of a number outside the range is not defined. -/
theorem not_mem {number : Nat} {label : String} (h : Covers low high items)
    (hMarked : Marked number label) (hOutside : number < low ∨ high ≤ number) :
    label ∉ definedLabels (listing items) :=
  fun hLabel => hMarked.ne_of_owned (h label hLabel) hOutside rfl

/-- Ranges one behind the other are apart. -/
theorem apart {lower higher : Nat} (hFirst : Covers lower low first)
    (hSecond : Covers high higher second) (h : low ≤ high) : Apart first second := by
  intro label hLabel hSame
  rcases hFirst label hLabel with hUser | hNumber
  · exact hUser
  · rcases hSecond label hSame with hUser | hOther
    · exact hUser
    · omega

end Covers

namespace Apart

variable {items first second : List Item}

@[simp] theorem nil_left : Apart [] items := by
  intro label hLabel
  cases hLabel

@[simp] theorem nil_right : Apart items [] := by
  intro label _ hLabel
  cases hLabel

@[simp] theorem append_left :
    Apart (first ++ second) items ↔ Apart first items ∧ Apart second items := by
  simp [Apart, or_imp, forall_and]

@[simp] theorem append_right :
    Apart items (first ++ second) ↔ Apart items first ∧ Apart items second := by
  simp [Apart, or_imp, forall_and]

@[simp] theorem instruction_left {mnemonic : String} {operands : List Operand} :
    Apart (.control (.ofInstruction mnemonic operands) :: first) items ↔ Apart first items := by
  simp [Apart]

@[simp] theorem instruction_right {mnemonic : String} {operands : List Operand} :
    Apart items (.control (.ofInstruction mnemonic operands) :: first) ↔ Apart items first := by
  simp [Apart]

@[simp] theorem naming_left {mnemonic label : String} :
    Apart (.control (naming mnemonic label) :: first) items ↔ Apart first items :=
  instruction_left

@[simp] theorem naming_right {mnemonic label : String} :
    Apart items (.control (naming mnemonic label) :: first) ↔ Apart items first :=
  instruction_right

@[simp] theorem ofLabel_left {label : String} (h : isUserLabel label = false) :
    Apart (.control (.ofLabel label) :: first) items ↔
      label ∉ definedLabels (listing items) ∧ Apart first items := by
  simp [Apart, h]

@[simp] theorem ofLabel_right {label : String} (h : isUserLabel label = false) :
    Apart items (.control (.ofLabel label) :: first) ↔
      label ∉ definedLabels (listing items) ∧ Apart items first := by
  constructor
  · intro hApart
    refine ⟨fun hLabel => ?_, fun other hOther hFirst => hApart other hOther (by simp [hFirst])⟩
    have hUser := hApart label hLabel (by simp)
    rw [h] at hUser
    cases hUser
  · rintro ⟨hAbsent, hFirst⟩ other hOther hLabel
    rcases List.mem_cons.mp (by simpa using hLabel) with rfl | hRest
    · exact absurd hOther hAbsent
    · exact hFirst other hOther hRest

end Apart

/-! Realized runs -/

/-- What the machine shows behind a jump to a target, if there is one. -/
def reached (program : List Item) : Option String → Traces
  | some label => Performs program (entry program label)
  | none => silence

def destinations (program : List Item) (targets : Targets) (rest : List Item) : Exit → Traces
  | .finished => Performs program rest
  | .broken => reached program targets.break?
  | .continued => reached program targets.continue?
  | .returned => silence

/-- The code of every action is what the generator of the action generates. -/
def Made (environment : Environment) (items : List Item) : Prop :=
  ∀ action code, .action action code ∈ items →
    ∃ n m, (action.code environment).run n = .ok (code, m)

/-- Items whose way through the machine is a run, behind any labels but their
own. -/
structure Realizes (environment : Environment) (targets : Targets) (run : Run) (items : List Item) :
    Prop where
  made : Made environment items
  performs : ∀ program before rest, program = before ++ items ++ rest → Apart before items →
    Performs program (items ++ rest) = Run.after run (destinations program targets rest)

namespace Made

variable {environment : Environment} {items first second : List Item}

@[simp] theorem nil : Made environment [] := by
  intro action code h
  cases h

@[simp] theorem append_iff :
    Made environment (first ++ second) ↔ Made environment first ∧ Made environment second := by
  simp [Made, or_imp, forall_and]

@[simp] theorem control_iff {statement : Statement} :
    Made environment (.control statement :: items) ↔ Made environment items := by
  simp [Made]

end Made

namespace Realizes

variable {environment : Environment} {targets : Targets} {first second run : Run}
variable {items start others : List Item}

/-- Nothing, which finishes at once. -/
theorem finished : Realizes environment targets (.exiting .finished) [] where
  made := Made.nil
  performs := by
    intro program before rest _ _
    rw [List.nil_append, Run.after_exiting]
    rfl

/-- The code of an action. -/
theorem perform {action : Action} {code : Code} {n m : Nat}
    (h : (action.code environment).run n = .ok (code, m)) :
    Realizes environment targets (.perform action) [.action action code] where
  made := by
    intro other found hFound
    simp at hFound
    obtain ⟨rfl, rfl⟩ := hFound
    exact ⟨n, m, h⟩
  performs := by
    intro program before rest _ _
    rw [List.singleton_append, Performs.action_eq, Run.after_perform]
    rfl

/-- Pieces of code one behind the other. -/
theorem andThen (hFirst : Realizes environment targets first start)
    (hSecond : Realizes environment targets second others) (hApart : Apart start others) :
    Realizes environment targets (.andThen first second) (start ++ others) where
  made := Made.append_iff.mpr ⟨hFirst.made, hSecond.made⟩
  performs := by
    intro program before rest hProgram hBefore
    obtain ⟨hBeforeStart, hBeforeOthers⟩ := Apart.append_right.mp hBefore
    have hStart := hFirst.performs program before (others ++ rest) (by simp [hProgram]) hBeforeStart
    have hOthers := hSecond.performs program (before ++ start) rest (by simp [hProgram])
      (Apart.append_left.mpr ⟨hBeforeOthers, hApart⟩)
    rw [List.append_assoc, hStart, Run.after_andThen]
    congr 1
    funext exit
    cases exit with
    | finished => exact hOthers
    | _ => rfl

/-- A jump to the target of an exit. -/
theorem jump {exit : Exit} {label : String}
    (h : ∀ program rest, destinations program targets rest exit =
      Performs program (entry program label)) :
    Realizes environment targets (.exiting exit) [.control (naming "J" label)] where
  made := by simp
  performs := by
    intro program before rest _ _
    rw [List.singleton_append, Performs.jump_eq rfl, Run.after_exiting, h]

/-- A label that nothing jumps to. -/
theorem ofLabel (label : String) :
    Realizes environment targets (.exiting .finished) [.control (.ofLabel label)] where
  made := by simp
  performs := by
    intro program before rest _ _
    rw [List.singleton_append, Performs.ofLabel_eq, Run.after_exiting]
    rfl

/-- Code behind a label that it does not define. -/
theorem behindLabel {label : String} (hMade : isUserLabel label = false)
    (hAbsent : label ∉ definedLabels (listing items)) (h : Realizes environment targets run items) :
    Realizes environment targets run (.control (.ofLabel label) :: items) where
  made := Made.control_iff.mpr h.made
  performs := by
    intro program before rest hProgram hBefore
    rw [Apart.ofLabel_right hMade] at hBefore
    rw [List.cons_append, Performs.ofLabel_eq]
    apply h.performs program (before ++ [.control (.ofLabel label)]) rest (by simp [hProgram])
    simp [hMade, hAbsent, hBefore.2]

/-- Code before a label. -/
theorem beforeLabel (label : String) (h : Realizes environment targets run items) :
    Realizes environment targets run (items ++ [.control (.ofLabel label)]) where
  made := by simp [h.made]
  performs := by
    intro program before rest hProgram hBefore
    rw [Apart.append_right] at hBefore
    rw [List.append_assoc, List.singleton_append,
      h.performs program before (.control (.ofLabel label) :: rest) (by simp [hProgram]) hBefore.1]
    congr 1
    funext exit
    cases exit with
    | finished => exact Performs.ofLabel_eq label
    | _ => rfl

/-- The instruction that leaves the function. -/
theorem leave (frame : Frame) :
    Realizes environment targets .leave [.control (Lowering.leave frame)] where
  made := by simp
  performs := by
    intro program before rest _ _
    rw [List.singleton_append, Performs.leave_eq rfl, Run.after_leave]
    rfl

/-- A test that breaks if it fails. -/
theorem tested {mnemonic finish : String} {event : Bool → Event}
    (h : Realizes environment targets run items)
    (hTransfer : transfer (naming mnemonic finish) = .test event finish)
    (hTarget : targets.break? = some finish) :
    Realizes environment targets (.decide event run (.exiting .broken))
      (.control (naming mnemonic finish) :: items) where
  made := Made.control_iff.mpr h.made
  performs := by
    intro program before rest hProgram hBefore
    have hItems := h.performs program (before ++ [.control (naming mnemonic finish)]) rest
      (by simp [hProgram]) (by simpa using hBefore)
    apply Performs.test_eq_after hTransfer hItems
    rw [Run.after_exiting, destinations, hTarget]
    rfl

end Realizes
end ScriptBackend.Lowering
