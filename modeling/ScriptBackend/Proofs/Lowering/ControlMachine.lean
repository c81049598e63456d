import ScriptBackend.Proofs.Lowering.Labels
import ScriptBackend.Proofs.Lowering.Run

/-!
Code as the machine goes through it. The code of an action is one item,
performed in one piece; every other statement is an item of its own. Jumps,
tests and selections transfer control to the first item that defines their
label, anything else passes on to the next item.
-/
namespace ScriptBackend.Lowering

open ScriptBackend.Assembly

/-- A piece of code that control goes through at once. -/
inductive Item where
  | action (action : Action) (code : Code)
  | control (statement : Statement)

namespace Item

def code : Item → Code
  | action _ code => code
  | control statement => [statement]

end Item

/-- The items from the first one on that defines a label. -/
def entry (program : List Item) (label : String) : List Item :=
  program.dropWhile fun item => !(definedLabels item.code).contains label

/-- How a statement transfers control. -/
inductive Transfer where
  | pass
  | jump (label : String)
  | test (event : Bool → Event) (label : String)
  | select (cases : List Operand)
  | leave

/-- The transfer of control of a statement. Conditional jumps are taken when the
test fails. -/
def transfer (statement : Statement) : Transfer :=
  match statement.content with
  | .instruction "J" [.name label] => .jump label
  | .instruction "JZ" [.name label] => .test .tested label
  | .instruction "ILT_JZ" [.name label] => .test .limited label
  | .instruction "SWITCH" cases => .select cases
  | .instruction "LEAVE" _ => .leave
  | _ => .pass

/-- The label of the first case with a value. Values have 32 bits. -/
def caseTarget? (value : Int32) (cases : List Operand) : Option String :=
  cases.findSome? fun
    | .case found label => if found.toInt32 = value then some label else none
    | _ => none

/-- What the machine shows on its way through a program from a position on.
Tests, limits and selections may fall out in any way. -/
inductive Performs (program : List Item) : List Item → List Event → Prop where
  | watched (position : List Item) : Performs program position []
  | action {action : Action} {code : Code} {rest : List Item} {events : List Event}
      (later : Performs program rest events) :
      Performs program (.action action code :: rest) (.performed action :: events)
  | pass {statement : Statement} {rest : List Item} {events : List Event}
      (kind : transfer statement = .pass) (later : Performs program rest events) :
      Performs program (.control statement :: rest) events
  | jump {statement : Statement} {label : String} {rest : List Item} {events : List Event}
      (kind : transfer statement = .jump label)
      (later : Performs program (entry program label) events) :
      Performs program (.control statement :: rest) events
  | test {statement : Statement} {event : Bool → Event} {label : String} {rest : List Item}
      {events : List Event} (holds : Bool) (kind : transfer statement = .test event label)
      (later : Performs program (if holds then rest else entry program label) events) :
      Performs program (.control statement :: rest) (event holds :: events)
  | select {statement : Statement} {cases : List Operand} {rest : List Item} {events : List Event}
      (value : Int32) (kind : transfer statement = .select cases)
      (later : Performs program
        (((caseTarget? value cases).map (entry program)).getD rest) events) :
      Performs program (.control statement :: rest) (.selected value :: events)
  | leave {statement : Statement} {rest : List Item} (kind : transfer statement = .leave) :
      Performs program (.control statement :: rest) [.left]

namespace Performs

variable {program rest : List Item} {statement : Statement} {label : String}

@[simp] theorem action_eq (action : Action) (code : Code) :
    Performs program (.action action code :: rest) =
      ask (fun _ : Unit => .performed action) fun _ => Performs program rest := by
  funext events
  apply propext
  constructor
  · intro h
    cases h with
    | watched => exact .inl rfl
    | action later => exact .inr ⟨(), _, rfl, later⟩
  · intro hRun
    rcases hRun with rfl | ⟨_, events, rfl, later⟩
    · exact .watched _
    · exact .action later

/-- Control goes on behind an instruction that does not jump. -/
theorem pass_eq (h : transfer statement = .pass) :
    Performs program (.control statement :: rest) = Performs program rest := by
  funext events
  apply propext
  constructor
  · intro hPerforms
    cases hPerforms with
    | watched => exact .watched _
    | pass kind later => exact later
    | _ => simp_all
  · exact .pass h

/-- Control goes on at the label of a jump. -/
theorem jump_eq (h : transfer statement = .jump label) :
    Performs program (.control statement :: rest) = Performs program (entry program label) := by
  funext events
  apply propext
  constructor
  · intro hPerforms
    cases hPerforms with
    | watched => exact .watched _
    | jump kind later =>
        rw [h] at kind
        cases kind
        exact later
    | _ => simp_all
  · exact .jump h

/-- A test decides between what follows it and what stands at its label. -/
theorem test_eq {event : Bool → Event} (h : transfer statement = .test event label) :
    Performs program (.control statement :: rest) =
      ask event fun holds => Performs program (if holds then rest else entry program label) := by
  funext events
  apply propext
  constructor
  · intro hPerforms
    cases hPerforms with
    | watched => exact .inl rfl
    | test holds kind later =>
        rw [h] at kind
        cases kind
        exact .inr ⟨holds, _, rfl, later⟩
    | _ => simp_all
  · intro hRun
    rcases hRun with rfl | ⟨holds, events, rfl, later⟩
    · exact .watched _
    · exact .test holds h later

/-- A selection decides among its labels, and control goes on behind it when no
case is wanted. -/
theorem select_eq {cases : List Operand} (h : transfer statement = .select cases) :
    Performs program (.control statement :: rest) =
      ask .selected fun value =>
        Performs program (((caseTarget? value cases).map (entry program)).getD rest) := by
  funext events
  apply propext
  constructor
  · intro hPerforms
    cases hPerforms with
    | watched => exact .inl rfl
    | select value kind later =>
        rw [h] at kind
        cases kind
        exact .inr ⟨value, _, rfl, later⟩
    | _ => simp_all
  · intro hRun
    rcases hRun with rfl | ⟨value, events, rfl, later⟩
    · exact .watched _
    · exact .select value h later

/-- Nothing can be seen once a function is left. -/
theorem leave_eq (h : transfer statement = .leave) :
    Performs program (.control statement :: rest) =
      ask (fun _ : Unit => .left) fun _ => silence := by
  funext events
  apply propext
  constructor
  · intro hPerforms
    cases hPerforms with
    | watched => exact .inl rfl
    | leave kind => exact .inr ⟨(), [], rfl, rfl⟩
    | _ => simp_all
  · intro hRun
    rcases hRun with rfl | ⟨_, _, rfl, rfl⟩
    · exact .watched _
    · exact .leave h

end Performs

/-! Code whose way is a run -/

namespace Performs

variable {program rest : List Item} {statement : Statement} {label : String} {next : Exit → Traces}

/-- A test in front of the ways of two runs. -/
theorem test_eq_after {event : Bool → Event} {yes no : Run}
    (hTransfer : transfer statement = .test event label)
    (hYes : Performs program rest = Run.after yes next)
    (hNo : Performs program (entry program label) = Run.after no next) :
    Performs program (.control statement :: rest) = Run.after (.decide event yes no) next := by
  rw [test_eq hTransfer, Run.after_decide]
  congr 1
  funext holds
  cases holds with
  | true => exact hYes
  | false => exact hNo

end Performs

/-! The way to a label -/

/-- The statements of items, in order. -/
def listing (items : List Item) : Code :=
  items.flatMap Item.code

@[simp] theorem listing_nil : listing [] = [] :=
  rfl

@[simp] theorem listing_action (action : Action) (code : Code) (rest : List Item) :
    listing (.action action code :: rest) = code ++ listing rest :=
  rfl

@[simp] theorem listing_control (statement : Statement) (rest : List Item) :
    listing (.control statement :: rest) = statement :: listing rest :=
  rfl

@[simp] theorem listing_append (first second : List Item) :
    listing (first ++ second) = listing first ++ listing second :=
  List.flatMap_append

@[simp] theorem listing_map_control (code : Code) : listing (code.map .control) = code := by
  induction code with
  | nil => rfl
  | cons statement rest ih => rw [List.map_cons, listing_control, ih]

/-- A label is found where it stands, if no code before defines it. -/
theorem entry_eq {before rest : List Item} {label : String}
    (hBefore : label ∉ definedLabels (listing before)) :
    entry (before ++ .control (.ofLabel label) :: rest) label =
      .control (.ofLabel label) :: rest := by
  unfold entry
  rw [List.dropWhile_append_of_pos]
  · simp [Item.code]
  · intro item hItem
    have hAbsent : label ∉ definedLabels item.code := by
      intro hDefined
      obtain ⟨statement, hStatement, hLabel⟩ := List.mem_filterMap.mp hDefined
      exact hBefore (List.mem_filterMap.mpr
        ⟨statement, List.mem_flatMap.mpr ⟨item, hItem, hStatement⟩, hLabel⟩)
    simp [hAbsent]

theorem Performs.ofLabel_eq {program rest : List Item} (label : String) :
    Performs program (.control (.ofLabel label) :: rest) = Performs program rest :=
  Performs.pass_eq rfl

/-- What the machine shows from a label on. -/
theorem Performs.entry_eq {program before rest : List Item} {label : String}
    (hProgram : program = before ++ .control (.ofLabel label) :: rest)
    (hBefore : label ∉ definedLabels (listing before)) :
    Performs program (entry program label) = Performs program rest := by
  have hEntry : entry program label = .control (.ofLabel label) :: rest := by
    rw [hProgram]
    exact Lowering.entry_eq hBefore
  rw [hEntry, Performs.ofLabel_eq]

end ScriptBackend.Lowering
