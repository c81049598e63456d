import ScriptBackend.Proofs.Lowering.Realization
import ScriptBackend.Proofs.Lowering.StructuredRun

/-!
Selections realize the choice of a case. Every case has a label, where control
enters; the code of the cases stands in their order, so that one falls through
to the next.
-/
namespace ScriptBackend.Lowering

open ScriptBackend.Assembly

def caseLabel? (wanted : Option Int32 → Bool) (values : List (Option Int32))
    (labels : List String) : Option String :=
  ((values.zip labels).find? fun (value, _) => wanted value).map Prod.snd

/-- The first case is entered when its value is wanted, and otherwise one of the
others may be. -/
theorem caseLabel?_cons (wanted : Option Int32 → Bool) (value : Option Int32)
    (values : List (Option Int32)) (label : String) (labels : List String) :
    caseLabel? wanted (value :: values) (label :: labels) =
      if wanted value then some label else caseLabel? wanted values labels := by
  cases hWanted : wanted value <;> simp [caseLabel?, hWanted]

/-- The machine goes to the first case with the value. -/
theorem caseTarget?_eq (value : Int32) (values : List (Option Int32)) (labels : List String) :
    caseTarget? value ((values.zip labels).filterMap fun (found, label) =>
        found.map fun number => Operand.case number.toInt64 label) =
      caseLabel? (· = some value) values labels := by
  unfold caseLabel?
  generalize values.zip labels = entries
  induction entries with
  | nil => rfl
  | cons entry rest ih =>
      obtain ⟨found, label⟩ := entry
      cases found with
      | none => simpa [caseTarget?] using ih
      | some number =>
          by_cases hSame : number = value
          · simp [caseTarget?, hSame]
          · simpa [caseTarget?, hSame] using ih

/-- No case is entered if none is wanted. -/
theorem enterCase_eq_none {wanted : Option Int32 → Bool} {cases : List (Option Int32 × List Stmt)}
    {labels : List String} (hLength : labels.length = cases.length)
    (h : caseLabel? wanted (cases.map Prod.fst) labels = none) :
    Stmt.enterCase wanted cases = none := by
  induction cases generalizing labels with
  | nil => rw [Stmt.enterCase]
  | cons entry rest ih =>
      obtain ⟨value, body⟩ := entry
      cases labels with
      | nil => cases hLength
      | cons label labels =>
          rw [List.map_cons, caseLabel?_cons] at h
          rw [Stmt.enterCase]
          cases hWanted : wanted value with
          | true => simp [hWanted] at h
          | false =>
              rw [hWanted] at h
              exact ih (by simpa using hLength) h

/-- Code of cases that falls through, and that can be entered at the label of
each of them. -/
structure RealizesCases (environment : Environment) (targets : Targets)
    (cases : List (Option Int32 × List Stmt)) (labels : List String) (items : List Item) :
    Prop where
  through : Realizes environment targets (Stmt.fallThrough cases) items
  enters : ∀ wanted label, caseLabel? wanted (cases.map Prod.fst) labels = some label →
    ∃ run, Stmt.enterCase wanted cases = some run ∧
      ∀ program before rest, program = before ++ items ++ rest → Apart before items →
        Performs program (entry program label) = Run.after run (destinations program targets rest)

namespace RealizesCases

variable {environment : Environment} {targets : Targets}

theorem nil : RealizesCases environment targets [] [] [] where
  through := by
    rw [Stmt.fallThrough]
    exact Realizes.finished
  enters := by
    intro wanted label h
    cases h

/-- A case in front of others. -/
theorem cons {value : Option Int32} {body : List Stmt} {cases : List (Option Int32 × List Stmt)}
    {label : String} {labels : List String} {items others : List Item}
    (hLabel : isUserLabel label = false)
    (hBody : Realizes environment targets (Stmt.blockRuns body) items)
    (hCases : RealizesCases environment targets cases labels others)
    (hItems : label ∉ definedLabels (listing items))
    (hOthers : label ∉ definedLabels (listing others)) (hApart : Apart items others) :
    RealizesCases environment targets ((value, body) :: cases) (label :: labels)
      (.control (.ofLabel label) :: items ++ others) where
  through := by
    rw [Stmt.fallThrough]
    exact (hBody.andThen hCases.through hApart).behindLabel hLabel (by simp [hItems, hOthers])
  enters := by
    intro wanted found hFound
    rw [List.map_cons, caseLabel?_cons] at hFound
    rw [Stmt.enterCase]
    cases hWanted : wanted value with
    | true =>
        rw [hWanted] at hFound
        cases hFound
        refine ⟨_, rfl, fun program before rest hProgram hBefore => ?_⟩
        simp [hLabel] at hBefore
        have hInside := (hBody.andThen hCases.through hApart).performs program
          (before ++ [.control (.ofLabel label)]) rest (by simp [hProgram])
          (by simp [hLabel, hItems, hOthers, hBefore])
        have hEntry := @Performs.entry_eq program before (items ++ others ++ rest) label
          (by simp [hProgram]) hBefore.1
        exact hEntry.trans hInside
    | false =>
        rw [hWanted] at hFound
        obtain ⟨run, hRun, hEnters⟩ := hCases.enters wanted found hFound
        refine ⟨run, hRun, fun program before rest hProgram hBefore => ?_⟩
        simp [hLabel] at hBefore
        exact hEnters program (before ++ .control (.ofLabel label) :: items) rest
          (by simp [hProgram]) (by simp [hLabel, hOthers, hBefore, hApart])

end RealizesCases

/-- The selection of a case, the cases, and the label that a break leads to. -/
theorem Realizes.selected {environment : Environment} {targets : Targets}
    {cases : List (Option Int32 × List Stmt)} {labels : List String} {items : List Item}
    {finish : String} (hFinish : isUserLabel finish = false)
    (hAbsent : finish ∉ definedLabels (listing items)) (hLength : labels.length = cases.length)
    (h : RealizesCases environment { targets with break? := some finish } cases labels items) :
    Realizes environment targets
      (.stopping (.choose .selected fun value =>
        ((Stmt.enterCase (· = some value) cases).or (Stmt.enterCase Option.isNone cases)).getD
          (.exiting .finished)))
      ((selection (cases.map Prod.fst) labels finish).map .control ++ items ++
        [.control (.ofLabel finish)]) where
  made := by simp [selection, h.through.made]
  performs := by
    intro program before rest hProgram hBefore
    simp [selection, hFinish] at hBefore
    have hEnd : Performs program (entry program finish) = Performs program rest :=
      @Performs.entry_eq program (before ++ (selection (cases.map Prod.fst) labels finish).map
        .control ++ items) rest finish (by simp [hProgram])
        (by simp [selection, hBefore, hAbsent])
    have hEnters : ∀ wanted label, caseLabel? wanted (cases.map Prod.fst) labels = some label →
        ∃ run, Stmt.enterCase wanted cases = some run ∧ Performs program (entry program label) =
          Run.after (.stopping run) (destinations program targets rest) := by
      intro wanted label hLabel
      obtain ⟨run, hRun, hPerforms⟩ := h.enters wanted label hLabel
      refine ⟨run, hRun, (hPerforms program (before ++ (selection (cases.map Prod.fst) labels
        finish).map .control) (.control (.ofLabel finish) :: rest) (by simp [hProgram])
        (by simp [selection, hBefore])).trans ?_⟩
      rw [Run.after_stopping]
      congr 1
      funext exit
      cases exit with
      | finished => exact Performs.ofLabel_eq finish
      | broken => exact hEnd
      | _ => rfl
    have hNone : Performs program (entry program finish) =
        Run.after (.stopping (.exiting .finished)) (destinations program targets rest) := by
      rw [hEnd, Run.after_stopping, Run.after_exiting]
      rfl
    -- A value without a case passes on to the jump behind the selection.
    have hFallback : Performs program (entry program
        ((caseLabel? Option.isNone (cases.map Prod.fst) labels).getD finish)) =
        Run.after (.stopping ((Stmt.enterCase Option.isNone cases).getD (.exiting .finished)))
          (destinations program targets rest) := by
      cases hDefault : caseLabel? Option.isNone (cases.map Prod.fst) labels with
      | none =>
          rw [enterCase_eq_none hLength hDefault]
          exact hNone
      | some label =>
          obtain ⟨run, hRun, hPerforms⟩ := hEnters _ label hDefault
          rw [hRun]
          exact hPerforms
    refine (Performs.select_eq rfl).trans ?_
    rw [Run.after_stopping, Run.after_choose]
    congr 1
    funext value
    rw [← Run.after_stopping, caseTarget?_eq]
    cases hFound : caseLabel? (· = some value) (cases.map Prod.fst) labels with
    | none =>
        rw [enterCase_eq_none hLength hFound]
        exact (Performs.jump_eq rfl).trans hFallback
    | some label =>
        obtain ⟨run, hRun, hPerforms⟩ := hEnters _ label hFound
        rw [hRun]
        exact hPerforms

end ScriptBackend.Lowering
