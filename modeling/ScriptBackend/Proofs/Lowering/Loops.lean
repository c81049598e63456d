import ScriptBackend.Proofs.Lowering.Realization

/-!
Loops realize rounds. The machine comes back to the label at the beginning of a
loop behind every round, and so shows what can be seen of the rounds; a break
leads to the label at the end.
-/
namespace ScriptBackend.Lowering.Realizes

open ScriptBackend.Assembly

variable {environment : Environment} {targets : Targets} {items : List Item} {number : Nat}

/-- Code between two labels that comes back to the first one, behind its end and
by a continue. -/
theorem looping {round : Run} {start finish : String} (hStart : Marked number start)
    (hFinish : Marked number finish) (hOther : finish ≠ start)
    (hStartAbsent : start ∉ definedLabels (listing items))
    (hFinishAbsent : finish ∉ definedLabels (listing items)) (hAudible : Run.Audible round)
    (h : Realizes environment ⟨some finish, some start⟩ round items) :
    Realizes environment targets (.looping round)
      (.control (.ofLabel start) :: items ++
        [.control (naming "J" start), .control (.ofLabel finish)]) where
  made := by simp [h.made]
  performs := by
    intro program before rest hProgram hBefore
    simp [hStart.made, hFinish.made] at hBefore
    obtain ⟨hStartBefore, hItemsBefore, hFinishBefore⟩ := hBefore
    have hBegin : Performs program (entry program start) = Performs program
        (items ++ .control (naming "J" start) :: .control (.ofLabel finish) :: rest) :=
      Performs.entry_eq (by simp [hProgram]) hStartBefore
    have hEnd : Performs program (entry program finish) = Performs program rest :=
      @Performs.entry_eq program (before ++ .control (.ofLabel start) :: items ++
        [.control (naming "J" start)]) rest finish (by simp [hProgram])
        (by simp [hFinishBefore, hOther, hFinishAbsent])
    have hRound := h.performs program (before ++ [.control (.ofLabel start)])
      (.control (naming "J" start) :: .control (.ofLabel finish) :: rest) (by simp [hProgram])
      (by simp [hStart.made, hItemsBefore, hStartAbsent])
    rw [List.append_assoc, List.cons_append, Performs.ofLabel_eq, Run.looping, Run.after_stopping]
    refine hBegin.symm.trans (Run.eq_after_rounds (Run.audible_bind hAudible) ?_)
    rw [Run.after_resuming]
    refine (hBegin.trans hRound).trans ?_
    congr 1
    funext exit
    cases exit with
    | finished => exact Performs.jump_eq rfl
    | broken => exact hEnd
    | _ => rfl

/-- Code with the label at its end that its continues lead to. -/
theorem resuming {body : Run} {break? : Option String} {step : String} (hStep : Marked number step)
    (hAbsent : step ∉ definedLabels (listing items))
    (h : Realizes environment ⟨break?, some step⟩ body items) :
    Realizes environment ⟨break?, targets.continue?⟩ (.resuming body)
      (items ++ [.control (.ofLabel step)]) where
  made := by simp [h.made]
  performs := by
    intro program before rest hProgram hBefore
    simp [hStep.made] at hBefore
    have hInside := h.performs program before (.control (.ofLabel step) :: rest)
      (by simp [hProgram]) hBefore.1
    have hEntry := @Performs.entry_eq program (before ++ items) rest step (by simp [hProgram])
      (by simp [hBefore.2, hAbsent])
    rw [List.append_assoc, List.singleton_append, hInside, Run.after_resuming]
    congr 1
    funext exit
    cases exit with
    | finished => exact Performs.ofLabel_eq step
    | continued => exact hEntry
    | _ => rfl

end ScriptBackend.Lowering.Realizes
