import Mathlib.Data.List.Forall2
import ScriptBackend.Assembly.Fault

/-!
Computations that may fail, taken apart: what a result or a fault of a sequence
says about its parts, computations whose faults are of some kinds only, and
computations that differ in their faults alone.
-/
namespace ScriptBackend.Outcome

variable {ε α β : Type}

/-- A computation that is seen to succeed has a result. A program on given
inputs is run this way: its outcome is decided, and what the result is need not
be written out. -/
theorem exists_of_isOk {outcome : Except ε α} (h : outcome.isOk = true) :
    ∃ result, outcome = .ok result := by
  cases outcome with
  | error fault => cases h
  | ok result => exact ⟨result, rfl⟩

/-- The same with something that is decided about the result. -/
theorem exists_of_any {outcome : Except ε α} {property : α → Prop} [DecidablePred property]
    (h : (outcome.toOption.any fun result => decide (property result)) = true) :
    ∃ result, outcome = .ok result ∧ property result := by
  cases outcome with
  | error fault => cases h
  | ok result => exact ⟨result, rfl, of_decide_eq_true h⟩

/-- A sequence succeeds exactly when both parts do. -/
theorem bind_eq_ok {first : Except ε α} {next : α → Except ε β} {result : β} :
    first >>= next = .ok result ↔ ∃ value, first = .ok value ∧ next value = .ok result := by
  cases first with
  | error fault => simp [bind, Except.bind]
  | ok value => simp [bind, Except.bind]

/-- A sequence fails with the fault of the part that fails first. -/
theorem bind_eq_error {first : Except ε α} {next : α → Except ε β} {fault : ε} :
    first >>= next = .error fault ↔
      first = .error fault ∨ ∃ value, first = .ok value ∧ next value = .error fault := by
  cases first with
  | error fault => simp [bind, Except.bind]
  | ok value => simp [bind, Except.bind]

theorem map_eq_ok {outcome : Except ε α} {change : α → β} {result : β} :
    outcome.map change = .ok result ↔ ∃ value, outcome = .ok value ∧ change value = result := by
  cases outcome <;> simp [Except.map]

theorem map_eq_error {outcome : Except ε α} {change : α → β} {fault : ε} :
    outcome.map change = .error fault ↔ outcome = .error fault := by
  cases outcome <;> simp [Except.map]

/-- What comes of all items comes of each of them. -/
theorem forall₂_of_mapM {change : α → Except ε β} {items : List α} {results : List β}
    (h : items.mapM change = .ok results) :
    List.Forall₂ (fun item result => change item = .ok result) items results := by
  induction items generalizing results with
  | nil =>
      cases h
      exact .nil
  | cons item rest ih =>
      rw [List.mapM_cons] at h
      obtain ⟨first, hFirst, h⟩ := bind_eq_ok.mp h
      obtain ⟨others, hOthers, h⟩ := bind_eq_ok.mp h
      cases h
      exact .cons hFirst (ih hOthers)

/-- Whatever comes of all items comes of one of them. -/
theorem exists_of_mem_mapM {change : α → Except ε β} {items : List α} {results : List β}
    (h : items.mapM change = .ok results) {result : β} (hResult : result ∈ results) :
    ∃ item ∈ items, change item = .ok result := by
  have hAll := forall₂_of_mapM h
  clear h
  induction hAll with
  | nil => cases hResult
  | cons hFirst _ ih =>
      rcases List.mem_cons.mp hResult with rfl | hLater
      · exact ⟨_, by simp, hFirst⟩
      · obtain ⟨item, hItem, hChange⟩ := ih hLater
        exact ⟨item, by simp [hItem], hChange⟩

/-- Every fault of the computation is one of those allowed. -/
def FailsOnly (allowed : ε → Prop) (outcome : Except ε α) : Prop :=
  ∀ fault, outcome = .error fault → allowed fault

namespace FailsOnly

variable {allowed : ε → Prop}

@[simp] theorem ok (value : α) : FailsOnly allowed (.ok value) := by
  intro fault h
  cases h

@[simp] theorem pure (value : α) : FailsOnly allowed (pure value : Except ε α) :=
  ok value

@[simp] theorem error_iff {fault : ε} :
    FailsOnly allowed (.error fault : Except ε α) ↔ allowed fault := by
  simp [FailsOnly]

/-- What comes second may rely on what came first. -/
theorem bind {first : Except ε α} {next : α → Except ε β} (h : FailsOnly allowed first)
    (hNext : ∀ value, first = .ok value → FailsOnly allowed (next value)) :
    FailsOnly allowed (first >>= next) := by
  intro fault hFault
  rcases bind_eq_error.mp hFault with hFirst | ⟨value, hValue, hSecond⟩
  · exact h fault hFirst
  · exact hNext value hValue fault hSecond

/-- A map fails as its items do. -/
theorem mapM {change : α → Except ε β} {items : List α}
    (h : ∀ item ∈ items, FailsOnly allowed (change item)) :
    FailsOnly allowed (items.mapM change) := by
  induction items with
  | nil => exact ok []
  | cons item rest ih =>
      rw [List.forall_mem_cons] at h
      rw [List.mapM_cons]
      exact h.1.bind fun _ _ => (ih h.2).bind fun _ _ => ok _

/-- A fold fails as its steps do, whatever state they meet. -/
theorem foldlM {step : β → α → Except ε β}
    (h : ∀ state item, FailsOnly allowed (step state item)) (start : β)
    (items : List α) : FailsOnly allowed (items.foldlM step start) := by
  induction items generalizing start with
  | nil => exact ok start
  | cons item rest ih => exact (h start item).bind fun next _ => ih next

end FailsOnly

open Assembly (Fault Cause)

/-- No fault of the computation has a cause of the given kind. -/
def Never (kind : Cause → Prop) (outcome : Except Fault α) : Prop :=
  ∀ fault, outcome = .error fault → ¬ kind fault.cause

variable {kind : Cause → Prop}

@[simp] theorem Never.ok (value : α) : Never kind (.ok value) :=
  FailsOnly.ok value

@[simp] theorem never_error (fault : Fault) :
    Never kind (.error fault : Except Fault α) ↔ ¬ kind fault.cause := by
  simp [Never]

/-- What comes second may rely on what came first. -/
theorem Never.bind_ok {first : Except Fault α} {next : α → Except Fault β} (h : Never kind first)
    (hNext : ∀ value, first = .ok value → Never kind (next value)) : Never kind (first >>= next) :=
  FailsOnly.bind h hNext

/-- A fault of two computations in a row is a fault of one of them. -/
theorem Never.bind {first : Except Fault α} {next : α → Except Fault β} (h : Never kind first)
    (hNext : ∀ value, Never kind (next value)) : Never kind (first >>= next) :=
  h.bind_ok fun value _ => hNext value

/-- A kind may be narrowed. -/
theorem Never.mono {other : Cause → Prop} {outcome : Except Fault α} (h : Never kind outcome)
    (hWithin : ∀ cause, other cause → kind cause) : Never other outcome :=
  fun fault hFault hCause => h fault hFault (hWithin fault.cause hCause)

theorem Never.map {outcome : Except Fault α} (h : Never kind outcome) (change : α → β) :
    Never kind (outcome.map change) :=
  fun fault hFault => h fault (map_eq_error.mp hFault)

/-- Two computations that have the same result, or fail both. -/
inductive Agree : Except Fault α → Except Fault α → Prop where
  | ok (value : α) : Agree (.ok value) (.ok value)
  | error (first second : Fault) : Agree (.error first) (.error second)

theorem Agree.refl (outcome : Except Fault α) : Agree outcome outcome := by
  cases outcome with
  | error fault => exact .error fault fault
  | ok value => exact .ok value

theorem Agree.symm {first second : Except Fault α} (h : Agree first second) :
    Agree second first := by
  cases h with
  | ok value => exact .ok value
  | error fault fault' => exact .error fault' fault

/-- Agreement goes on from the second computation to a third one. -/
theorem Agree.trans {first second third : Except Fault α} (h : Agree first second)
    (hLater : Agree second third) :
    Agree first third := by
  cases h with
  | ok value => exact hLater
  | error fault fault' =>
      cases hLater with
      | error _ last => exact .error fault last

/-- Computations that agree go on to agree when what follows does on each value. -/
theorem Agree.bind {first second : Except Fault α} {next other : α → Except Fault β}
    (h : Agree first second)
    (hNext : ∀ value, Agree (next value) (other value)) :
    Agree (first >>= next) (second >>= other) := by
  cases h with
  | ok value => exact hNext value
  | error fault fault' => exact .error fault fault'

theorem Agree.map {first second : Except Fault α} (h : Agree first second) (change : α → β) :
    Agree (first.map change) (second.map change) := by
  cases h with
  | ok value => exact .ok (change value)
  | error fault fault' => exact .error fault fault'

/-- Where one of two computations that agree has a result, the other one has the
same. -/
theorem Agree.eq_ok {first second : Except Fault α} {value : α} (h : Agree first second)
    (hFirst : first = .ok value) : second = .ok value := by
  cases h with
  | ok found => exact hFirst
  | error fault fault' => cases hFirst

/-- What comes of the first computation comes of the second one, which may
succeed where the first one fails. -/
def Transfers (first second : Except ε α) : Prop :=
  ∀ value, first = .ok value → second = .ok value

namespace Transfers

theorem of_eq {first second : Except ε α} (h : second = first) : Transfers first second :=
  fun _ hFirst => h.trans hFirst

theorem bind {first second : Except ε α} {next other : α → Except ε β} (h : Transfers first second)
    (hNext : ∀ value, Transfers (next value) (other value)) :
    Transfers (first >>= next) (second >>= other) := by
  intro result hResult
  obtain ⟨value, hFirst, hLater⟩ := bind_eq_ok.mp hResult
  exact bind_eq_ok.mpr ⟨value, h value hFirst, hNext value result hLater⟩

theorem map {first second : Except ε α} (h : Transfers first second) (change : α → β) :
    Transfers (first.map change) (second.map change) := by
  intro result hResult
  obtain ⟨value, hFirst, hChange⟩ := map_eq_ok.mp hResult
  exact map_eq_ok.mpr ⟨value, h value hFirst, hChange⟩

theorem foldlM {step other : β → α → Except ε β}
    (h : ∀ state item, Transfers (step state item) (other state item))
    (start : β) (items : List α) :
    Transfers (items.foldlM step start) (items.foldlM other start) := by
  induction items generalizing start with
  | nil => exact of_eq rfl
  | cons item rest ih => exact (h start item).bind ih

end Transfers

end ScriptBackend.Outcome
