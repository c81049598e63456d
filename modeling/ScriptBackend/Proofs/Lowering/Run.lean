import ScriptBackend.Program.Basic

/-!
Runs of structured code as sequences of events. A run lists what is performed
and how every decision falls out, up to where it stops being watched or to the
exit it leaves by; nothing is said about places in code. What follows a run
depends on its exit.
-/
namespace ScriptBackend.Lowering

/-- What is performed in one piece: a declaration, an assignment, the value of
an expression, or an expression evaluated for its effects. -/
inductive Action where
  | declare (id : Nat)
  | assign (target : Expr) (op : Option BinaryOp) (value : Expr)
  | value (e : Expr)
  | evaluate (e : Expr)

/-- What can be seen of a run: an action performed, a condition or a limit
tested, a case chosen by a value, the function left. -/
inductive Event where
  | performed (action : Action)
  | tested (holds : Bool)
  | limited (below : Bool)
  | selected (value : Int32)
  | left

/-- How control leaves a statement: behind it, out of the innermost loop or
selection, on to the next round of the innermost loop, or out of the function. -/
inductive Exit where
  | finished
  | broken
  | continued
  | returned

/-- Sequences of events that can be seen. -/
abbrev Traces := List Event → Prop

/-- Sequences of events with the exit behind them, or none where the run is
still under way. -/
abbrev Run := List Event → Option Exit → Prop

namespace Run

def exiting (exit : Exit) : Run :=
  fun events result => events = [] ∧ result = some exit

/-- One event of a family, and then what it decides on. -/
def choose {α : Type} (event : α → Event) (branch : α → Run) : Run :=
  fun events result =>
    events = [] ∧ result = none ∨ ∃ a rest, events = event a :: rest ∧ branch a rest result

def bind (first : Run) (next : Exit → Run) : Run :=
  fun events result =>
    first events none ∧ result = none ∨
      ∃ exit done rest, events = done ++ rest ∧ first done (some exit) ∧ next exit rest result

/-- A run over and over, as long as it finishes. -/
inductive Rounds (round : Run) : Run where
  | watched {events : List Event} (h : round events none) : Rounds round events none
  | leaves {events : List Event} {exit : Exit} (h : round events (some exit))
      (other : exit ≠ .finished) : Rounds round events (some exit)
  | again {done rest : List Event} {result : Option Exit} (h : round done (some .finished))
      (later : Rounds round rest result) : Rounds round (done ++ rest) result

def perform (action : Action) : Run :=
  choose (fun _ : Unit => .performed action) fun _ => exiting .finished

def leave : Run :=
  choose (fun _ : Unit => .left) fun _ => exiting .returned

/-- One run behind another, unless the first one leaves some other way. -/
def andThen (first second : Run) : Run :=
  bind first fun
    | .finished => second
    | exit => exiting exit

def decide (event : Bool → Event) (yes no : Run) : Run :=
  choose event fun
    | true => yes
    | false => no

def stopping (body : Run) : Run :=
  bind body fun
    | .broken => exiting .finished
    | exit => exiting exit

def resuming (body : Run) : Run :=
  bind body fun
    | .continued => exiting .finished
    | exit => exiting exit

/-- A round over and over. A continue ends the round, a break all of them. -/
def looping (round : Run) : Run :=
  stopping (Rounds (resuming round))

def after (run : Run) (next : Exit → Traces) : Traces :=
  fun events => run events none ∨
    ∃ exit done rest, events = done ++ rest ∧ run done (some exit) ∧ next exit rest

end Run

/-- What can be seen when one event of a family comes next. -/
def ask {α : Type} (event : α → Event) (next : α → Traces) : Traces :=
  fun events => events = [] ∨ ∃ a rest, events = event a :: rest ∧ next a rest

def silence : Traces :=
  fun events => events = []

namespace Run

variable {next : Exit → Traces}

@[simp] theorem after_exiting (exit : Exit) : after (exiting exit) next = next exit := by
  funext events
  apply propext
  constructor
  · intro hMeets
    rcases hMeets with ⟨_, hNone⟩ | ⟨_, done, rest, rfl, ⟨rfl, hExit⟩, hNext⟩
    · cases hNone
    · cases hExit
      exact hNext
  · intro hNext
    exact .inr ⟨exit, [], events, rfl, ⟨rfl, rfl⟩, hNext⟩

@[simp] theorem after_choose {α : Type} (event : α → Event) (branch : α → Run) :
    after (choose event branch) next = ask event fun a => after (branch a) next := by
  funext events
  apply propext
  constructor
  · intro hMeets
    rcases hMeets with h | ⟨exit, done, rest, rfl, h, hNext⟩
    · rcases h with ⟨rfl, _⟩ | ⟨a, rest, rfl, hBranch⟩
      · exact .inl rfl
      · exact .inr ⟨a, rest, rfl, .inl hBranch⟩
    · rcases h with ⟨_, hNone⟩ | ⟨a, others, rfl, hBranch⟩
      · cases hNone
      · exact .inr ⟨a, others ++ rest, rfl, .inr ⟨exit, others, rest, rfl, hBranch, hNext⟩⟩
  · intro hMeets
    rcases hMeets with rfl | ⟨a, rest, rfl, h | ⟨exit, done, others, rfl, hBranch, hNext⟩⟩
    · exact .inl (.inl ⟨rfl, rfl⟩)
    · exact .inl (.inr ⟨a, rest, rfl, h⟩)
    · exact .inr ⟨exit, event a :: done, others, rfl, .inr ⟨a, done, rfl, hBranch⟩, hNext⟩

@[simp] theorem after_bind (first : Run) (second : Exit → Run) :
    after (bind first second) next = after first fun exit => after (second exit) next := by
  funext events
  apply propext
  constructor
  · intro hMeets
    rcases hMeets with h | ⟨exit, done, rest, rfl, h, hNext⟩
    · rcases h with ⟨hFirst, _⟩ | ⟨exit, done, rest, rfl, hFirst, hSecond⟩
      · exact .inl hFirst
      · exact .inr ⟨exit, done, rest, rfl, hFirst, .inl hSecond⟩
    · rcases h with ⟨_, hNone⟩ | ⟨middle, start, others, rfl, hFirst, hSecond⟩
      · cases hNone
      · exact .inr ⟨middle, start, others ++ rest, List.append_assoc _ _ _, hFirst,
          .inr ⟨exit, others, rest, rfl, hSecond, hNext⟩⟩
  · intro hMeets
    rcases hMeets with h
        | ⟨exit, done, rest, rfl, hFirst, h | ⟨last, start, others, rfl, hSecond, hNext⟩⟩
    · exact .inl (.inl ⟨h, rfl⟩)
    · exact .inl (.inr ⟨exit, done, rest, rfl, hFirst, h⟩)
    · exact .inr ⟨last, done ++ start, others, (List.append_assoc _ _ _).symm,
        .inr ⟨exit, done, start, rfl, hFirst, hSecond⟩, hNext⟩

/-- Behind a run only those of its exits matter that it takes. -/
theorem after_congr {run : Run} {other : Exit → Traces}
    (h : ∀ exit, (∃ done, run done (some exit)) → next exit = other exit) :
    after run next = after run other := by
  funext events
  apply propext
  constructor
  · intro hMeets
    rcases hMeets with hRun | ⟨exit, done, rest, hEvents, hRun, hNext⟩
    · exact .inl hRun
    · exact .inr ⟨exit, done, rest, hEvents, hRun, h exit ⟨done, hRun⟩ ▸ hNext⟩
  · intro hMeets
    rcases hMeets with hRun | ⟨exit, done, rest, hEvents, hRun, hOther⟩
    · exact .inl hRun
    · exact .inr ⟨exit, done, rest, hEvents, hRun, h exit ⟨done, hRun⟩ ▸ hOther⟩

/-- What follows two runs in a row follows the second one, unless the first one
has not finished. -/
theorem after_andThen (first second : Run) :
    after (andThen first second) next = after first fun
      | .finished => after second next
      | exit => next exit := by
  rw [andThen, after_bind]
  congr 1
  funext exit
  cases exit <;> simp

/-- Behind a run that breaks stop, a break goes on as if the run had finished. -/
theorem after_stopping (body : Run) :
    after (stopping body) next = after body fun
      | .broken => next .finished
      | exit => next exit := by
  rw [stopping, after_bind]
  congr 1
  funext exit
  cases exit <;> simp

/-- Behind a run that continues end, a continue goes on as if the run had
finished. -/
theorem after_resuming (body : Run) :
    after (resuming body) next = after body fun
      | .continued => next .finished
      | exit => next exit := by
  rw [resuming, after_bind]
  congr 1
  funext exit
  cases exit <;> simp

@[simp] theorem after_perform (action : Action) :
    after (perform action) next = ask (fun _ : Unit => .performed action)
      fun _ => next .finished := by
  simp [perform]

@[simp] theorem after_leave :
    after leave next = ask (fun _ : Unit => .left) fun _ => next .returned := by
  simp [leave]

@[simp] theorem after_decide (event : Bool → Event) (yes no : Run) :
    after (decide event yes no) next = ask event fun holds =>
      if holds then after yes next else after no next := by
  rw [decide, after_choose]
  congr 1
  funext holds
  cases holds <;> rfl

/-- Rounds are one round, and rounds again if it finishes. -/
theorem after_rounds (round : Run) :
    after (Rounds round) next = after round fun
      | .finished => after (Rounds round) next
      | exit => next exit := by
  funext events
  apply propext
  constructor
  · intro hMeets
    rcases hMeets with h | ⟨exit, done, rest, rfl, h, hNext⟩
    · cases h with
      | watched h => exact .inl h
      | again h later => exact .inr ⟨.finished, _, _, rfl, h, .inl later⟩
    · cases h with
      | leaves h other =>
          refine .inr ⟨exit, done, rest, rfl, h, ?_⟩
          cases exit with
          | finished => exact absurd rfl other
          | _ => exact hNext
      | again h later =>
          exact .inr ⟨.finished, _, _, List.append_assoc _ _ _, h,
            .inr ⟨exit, _, rest, rfl, later, hNext⟩⟩
  · intro hMeets
    rcases hMeets with h | ⟨exit, done, rest, rfl, h, hNext⟩
    · exact .inl (.watched h)
    · cases exit with
      | finished =>
          rcases hNext with hLater | ⟨exit, start, others, rfl, hLater, hNext⟩
          · exact .inl (.again h hLater)
          · exact .inr ⟨exit, done ++ start, others, (List.append_assoc _ _ _).symm,
              .again h hLater, hNext⟩
      | broken => exact .inr ⟨.broken, done, rest, rfl, .leaves h (by simp), hNext⟩
      | continued => exact .inr ⟨.continued, done, rest, rfl, .leaves h (by simp), hNext⟩
      | returned => exact .inr ⟨.returned, done, rest, rfl, .leaves h (by simp), hNext⟩

/-- One run behind another only finishes if both do. -/
theorem finished_of_andThen {first second : Run} {done : List Event}
    (h : andThen first second done (some .finished)) :
    (∃ start, first start (some .finished)) ∧ ∃ rest, second rest (some .finished) := by
  rcases h with ⟨_, hNone⟩ | ⟨exit, start, rest, _, hFirst, hSecond⟩
  · cases hNone
  · cases exit with
    | finished => exact ⟨⟨start, hFirst⟩, rest, hSecond⟩
    | _ => cases hSecond.2

theorem leave_not_finished (done : List Event) : ¬ leave done (some .finished) := by
  intro hMeets
  rcases hMeets with ⟨_, hNone⟩ | ⟨_, _, _, hExit⟩
  · cases hNone
  · cases hExit.2

/-- A run whose exits are never silent. -/
def Audible (run : Run) : Prop :=
  ∀ exit done, run done (some exit) → done ≠ []

/-- A run that begins with an event is audible, whatever the event decides on. -/
theorem audible_choose {α : Type} (event : α → Event) (branch : α → Run) :
    Audible (choose event branch) := by
  rintro exit done (⟨_, hNone⟩ | ⟨a, rest, rfl, _⟩)
  · cases hNone
  · simp

theorem audible_bind {first : Run} {second : Exit → Run} (h : Audible first) :
    Audible (bind first second) := by
  rintro exit done (⟨_, hNone⟩ | ⟨middle, start, rest, rfl, hFirst, _⟩)
  · cases hNone
  · have hStart := h middle start hFirst
    simp [hStart]

/-- What goes round in the way of a run is what can be seen of its rounds, if
every round shows: two such behaviours could only differ behind a shorter trace. -/
theorem eq_after_rounds {round : Run} {traces : Traces} (hAudible : Audible round)
    (h : traces = after round fun
      | .finished => traces
      | exit => next exit) : traces = after (Rounds round) next := by
  -- By induction on the length of a trace: a round that finishes takes at least one event off it.
  have hSame : ∀ (n : Nat) (events : List Event), events.length < n →
      (traces events ↔ after (Rounds round) next events) := by
    intro n
    induction n with
    | zero =>
        intro events hLength
        omega
    | succ n ih =>
        intro events hLength
        have hShorter : ∀ done rest, events = done ++ rest → round done (some .finished) →
            rest.length < n := by
          rintro done rest rfl hRound
          have hDone := List.length_pos_iff.mpr (hAudible .finished done hRound)
          rw [List.length_append] at hLength
          omega
        rw [h, after_rounds]
        constructor
        · intro hMeets
          rcases hMeets with hRound | ⟨exit, done, rest, hEvents, hRound, hNext⟩
          · exact .inl hRound
          · refine .inr ⟨exit, done, rest, hEvents, hRound, ?_⟩
            cases exit with
            | finished => exact (ih rest (hShorter done rest hEvents hRound)).mp hNext
            | _ => exact hNext
        · intro hMeets
          rcases hMeets with hRound | ⟨exit, done, rest, hEvents, hRound, hNext⟩
          · exact .inl hRound
          · refine .inr ⟨exit, done, rest, hEvents, hRound, ?_⟩
            cases exit with
            | finished => exact (ih rest (hShorter done rest hEvents hRound)).mpr hNext
            | _ => exact hNext
  funext events
  exact propext (hSame (events.length + 1) events (Nat.lt_succ_self _))

/-- What can be seen of a run that nothing follows is the run. -/
theorem after_silence (run : Run) (events : List Event) :
    after run (fun _ => silence) events ↔ ∃ result, run events result := by
  constructor
  · intro hMeets
    rcases hMeets with h | ⟨exit, done, rest, rfl, h, hSilent⟩
    · exact ⟨none, h⟩
    · cases hSilent
      rw [List.append_nil]
      exact ⟨some exit, h⟩
  · intro hMeets
    obtain ⟨result, h⟩ := hMeets
    cases result with
    | none => exact .inl h
    | some exit => exact .inr ⟨exit, events, [], (List.append_nil _).symm, h, rfl⟩

end Run
end ScriptBackend.Lowering
