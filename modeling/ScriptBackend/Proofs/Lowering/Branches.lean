import ScriptBackend.Proofs.Lowering.Realization

/-!
Branches realize the choice of an arm. An arm whose condition fails leads to the
code behind it, which begins with the label of the next arm; an arm that is done
leads to the end of all of that code.
-/
namespace ScriptBackend.Lowering

open ScriptBackend.Assembly

/-- The code behind an arm: it begins with the label that a failed condition
leads to, and ends with the label that leads behind the branch. -/
structure Remainder (environment : Environment) (targets : Targets)
    (label finish : String) (run : Run) (items : List Item) : Prop where
  begins : ∃ others, items = .control (.ofLabel label) :: others
  ends : ∃ start, items = start ++ [.control (.ofLabel finish)] ∧
    finish ∉ definedLabels (listing start)
  realizes : Realizes environment targets run items

/-- The jump behind an arm, which the last arm does not need. -/
def skipTo (finish label : String) : List Item :=
  if label = finish then [] else [.control (naming "J" finish)]

theorem listing_skipTo (finish label : String) :
    listing (skipTo finish label) = if label = finish then [] else [naming "J" finish] := by
  unfold skipTo
  split <;> rfl

@[simp] theorem definedLabels_skipTo (finish label : String) :
    definedLabels (listing (skipTo finish label)) = [] := by
  rw [listing_skipTo]
  split <;> simp

@[simp] theorem skipTo_apart (finish label : String) (items : List Item) :
    Apart (skipTo finish label) items := by
  intro other hOther
  simp at hOther

@[simp] theorem apart_skipTo (finish label : String) (items : List Item) :
    Apart items (skipTo finish label) := by
  intro other _ hOther
  simp at hOther

@[simp] theorem made_skipTo {environment : Environment} (finish label : String) :
    Made environment (skipTo finish label) := by
  unfold skipTo
  split <;> simp

variable {environment : Environment} {targets : Targets}

/-- Code apart from the remainder does not define the labels at its ends. -/
theorem Remainder.absent {label finish : String} {run : Run} {items code : List Item}
    (h : Remainder environment targets label finish run items) (hLabel : isUserLabel label = false)
    (hFinish : isUserLabel finish = false) (hApart : Apart code items) :
    label ∉ definedLabels (listing code) ∧ finish ∉ definedLabels (listing code) := by
  obtain ⟨others, hBegins⟩ := h.begins
  obtain ⟨start, hEnds, _⟩ := h.ends
  constructor
  · rw [hBegins, Apart.ofLabel_right hLabel] at hApart
    exact hApart.1
  · rw [hEnds, Apart.append_right, Apart.ofLabel_right hFinish] at hApart
    exact hApart.2.1

namespace Realizes

variable {items : List Item} {label finish : String}

/-- The code of an arm between the jump of its failed condition and the
remainder of the branch. -/
theorem decided {body run : Run} {remainder : List Item} (hLabel : isUserLabel label = false)
    (hFinish : isUserLabel finish = false) (hBody : Realizes environment targets body items)
    (hRemainder : Remainder environment targets label finish run remainder)
    (hApart : Apart items remainder) :
    Realizes environment targets (.decide .tested body run)
      (.control (naming "JZ" label) :: items ++ skipTo finish label ++ remainder) where
  made := by simp [hBody.made, hRemainder.realizes.made]
  performs := by
    intro program before rest hProgram hBefore
    simp at hBefore
    obtain ⟨hBeforeItems, hBeforeRemainder⟩ := hBefore
    obtain ⟨hLabelBefore, hFinishBefore⟩ := hRemainder.absent hLabel hFinish hBeforeRemainder
    obtain ⟨hLabelItems, hFinishItems⟩ := hRemainder.absent hLabel hFinish hApart
    obtain ⟨others, hBegins⟩ := hRemainder.begins
    obtain ⟨start, hEnds, hFinishStart⟩ := hRemainder.ends
    have hFailed : Performs program (entry program label) =
        Performs program (remainder ++ rest) := by
      rw [hBegins, List.cons_append, Performs.ofLabel_eq]
      exact @Performs.entry_eq program (before ++ .control (naming "JZ" label) :: items ++
        skipTo finish label) (others ++ rest) label (by simp [hProgram, hBegins])
        (by simp [hLabelBefore, hLabelItems])
    have hEnd : Performs program (entry program finish) = Performs program rest :=
      @Performs.entry_eq program (before ++ .control (naming "JZ" label) :: items ++
        skipTo finish label ++ start) rest finish (by simp [hProgram, hEnds])
        (by simp [hFinishBefore, hFinishItems, hFinishStart])
    have hDone : Performs program (skipTo finish label ++ (remainder ++ rest)) =
        Performs program rest := by
      unfold skipTo
      by_cases hSame : label = finish
      · rw [if_pos hSame, List.nil_append, ← hFailed, hSame, hEnd]
      · rw [if_neg hSame, List.singleton_append, Performs.jump_eq rfl, hEnd]
    have hInside := hBody.performs program (before ++ [.control (naming "JZ" label)])
      (skipTo finish label ++ (remainder ++ rest)) (by simp [hProgram]) (by simp [hBeforeItems])
    have hOther := hRemainder.realizes.performs program (before ++ .control (naming "JZ" label) ::
      items ++ skipTo finish label) rest (by simp [hProgram]) (by simp [hBeforeRemainder, hApart])
    rw [List.append_assoc, List.append_assoc]
    refine Performs.test_eq_after rfl (hInside.trans ?_) (hFailed.trans hOther)
    congr 1
    funext exit
    cases exit with
    | finished => exact hDone
    | _ => rfl

end Realizes
end ScriptBackend.Lowering
