import ScriptBackend.Proofs.Lowering.Branches
import ScriptBackend.Proofs.Lowering.Loops
import ScriptBackend.Proofs.Lowering.Selections

/-!
Constructs with the numbers of their labels. Every construct takes a number for
its labels before the constructs in it take theirs, so pieces of code stay apart
by the ranges of their numbers.
-/
namespace ScriptBackend.Lowering

open ScriptBackend.Assembly

variable {environment : Environment} {targets : Targets} {low middle high number : Nat}
variable {items others : List Item}

/-- Items that define labels of a range of numbers, and some labels of the
construct that they belong to. -/
def Spans (own : String → Prop) (low high : Nat) (items : List Item) : Prop :=
  ∀ label ∈ definedLabels (listing items), Owned low high label ∨ own label

namespace Spans

variable {own : String → Prop}

/-- Code with numbers between the one of the construct and those of its later
parts is apart from these. -/
theorem apart {lower higher : Nat} {inner : List Item} (h : Spans own low high items)
    (hOwn : ∀ label, own label → Marked number label) (hInner : Covers lower higher inner)
    (hLower : number < lower) (hHigher : higher ≤ low) : Apart inner items := by
  intro label hLabel hSame
  rcases h label hSame with hOwned | hLabelOwn
  · rcases hInner label hLabel with hUser | hNumber
    · exact hUser
    · rcases hOwned with hUser | hOther
      · exact hUser
      · omega
  · exact absurd rfl ((hOwn label hLabelOwn).ne_of_owned (hInner label hLabel) (.inl hLower))

/-- Code with numbers of its own in front. -/
theorem prepend {first : List Item} (h : Spans own middle high items)
    (hFirst : Covers low middle first)
    (hLow : low ≤ middle) (hHigh : middle ≤ high) : Spans own low high (first ++ items) := by
  intro label hLabel
  rw [listing_append, definedLabels_append, List.mem_append] at hLabel
  rcases hLabel with hLabel | hLabel
  · exact .inl ((hFirst label hLabel).mono (Nat.le_refl _) hHigh)
  · rcases h label hLabel with hOwned | hOwn
    · exact .inl (hOwned.mono hLow (Nat.le_refl _))
    · exact .inr hOwn

/-- Labels of other numbers are not defined inside of the items. -/
theorem not_mem {label : String} (h : Spans own low high items) (hMarked : Marked number label)
    (hLow : number < low) (hOwn : ¬ own label) : label ∉ definedLabels (listing items) := by
  intro hLabel
  rcases h label hLabel with hOwned | hSame
  · exact hMarked.ne_of_owned hOwned (.inl hLow) rfl
  · exact hOwn hSame

/-- The items keep to their own numbers and to labels of the construct that they
belong to. -/
theorem covers (h : Spans own low high items) (hOwn : ∀ label, own label → Marked number label)
    (hLow : number < low) (hHigh : low ≤ high) : Covers number high items := by
  intro label hLabel
  rcases h label hLabel with hOwned | hSame
  · exact hOwned.mono (Nat.le_of_lt hLow) (Nat.le_refl _)
  · exact (hOwn label hSame).owned (Nat.le_refl _) (Nat.lt_of_lt_of_le hLow hHigh)

end Spans

/-- Items that realize a run and take the numbers of their labels from a range. -/
structure Lowers (environment : Environment) (targets : Targets) (run : Run) (low : Nat)
    (items : List Item) (high : Nat) : Prop where
  le : low ≤ high
  covers : Covers low high items
  realizes : Realizes environment targets run items

namespace Lowers

variable {first second run : Run}

theorem finished (number : Nat) :
    Lowers environment targets (.exiting .finished) number [] number where
  le := Nat.le_refl _
  covers := Covers.nil
  realizes := Realizes.finished

/-- An action is one item and ends where its code does. -/
theorem perform {action : Action} {code : Code}
    (h : (action.code environment).run low = .ok (code, high)) :
    Lowers environment targets (.perform action) low [.action action code] high where
  le := (action.closed environment).le h
  covers := by
    intro label hLabel
    rw [listing_action, listing_nil, List.append_nil] at hLabel
    exact (action.closed environment).owned h label hLabel
  realizes := Realizes.perform h

/-- Runs in a row are lowered one behind the other. -/
theorem andThen (hFirst : Lowers environment targets first low items middle)
    (hSecond : Lowers environment targets second middle others high) :
    Lowers environment targets (.andThen first second) low (items ++ others) high where
  le := Nat.le_trans hFirst.le hSecond.le
  covers := Covers.append_iff.mpr ⟨hFirst.covers.mono (Nat.le_refl _) hSecond.le,
    hSecond.covers.mono hFirst.le (Nat.le_refl _)⟩
  realizes := hFirst.realizes.andThen hSecond.realizes
    (hFirst.covers.apart hSecond.covers (Nat.le_refl _))

/-- An instruction without a label. -/
theorem instruction {mnemonic : String} {operands : List Operand} (number : Nat)
    (h : Realizes environment targets run [.control (.ofInstruction mnemonic operands)]) :
    Lowers environment targets run number [.control (.ofInstruction mnemonic operands)] number where
  le := Nat.le_refl _
  covers := by simp
  realizes := h

/-- A label of the program. -/
theorem userLabel (name : String) (number : Nat) :
    Lowers environment targets (.exiting .finished) number
      [.control (.ofLabel (Lowering.userLabel name))] number where
  le := Nat.le_refl _
  covers := by simp [owned_userLabel]
  realizes := Realizes.ofLabel _

/-- A test that breaks if it fails. -/
theorem tested {mnemonic finish : String} {event : Bool → Event}
    (h : Lowers environment targets run low items high)
    (hTransfer : transfer (naming mnemonic finish) = .test event finish)
    (hTarget : targets.break? = some finish) :
    Lowers environment targets (.decide event run (.exiting .broken)) low
      (.control (naming mnemonic finish) :: items) high where
  le := h.le
  covers := Covers.naming_iff.mpr h.covers
  realizes := h.realizes.tested hTransfer hTarget

/-- A loop that a continue starts again. -/
theorem looping {round : Run} {start finish : String} (hStart : Marked number start)
    (hFinish : Marked number finish) (hOther : finish ≠ start) (hAudible : Run.Audible round)
    (h : Lowers environment ⟨some finish, some start⟩ round (number + 1) items high) :
    Lowers environment targets (.looping round) number
      (.control (.ofLabel start) :: items ++
        [.control (naming "J" start), .control (.ofLabel finish)]) high where
  le := Nat.le_of_succ_le h.le
  covers := by
    have hLow := Nat.le_refl number
    have hItems := h.covers.mono (Nat.le_succ number) (Nat.le_refl _)
    simp [hStart.owned hLow h.le, hItems, hFinish.owned hLow h.le]
  realizes := h.realizes.looping hStart hFinish hOther
    (h.covers.not_mem hStart (.inl (Nat.lt_succ_self _)))
    (h.covers.not_mem hFinish (.inl (Nat.lt_succ_self _))) hAudible

theorem not_mem {label : String} (h : Lowers environment targets run low items high)
    (hMarked : Marked number label) (hOutside : number < low) :
    label ∉ definedLabels (listing items) :=
  h.covers.not_mem hMarked (.inl hOutside)

/-- A loop that counts up, with the label that a continue leads to before the
step. -/
theorem countUp {reset count bound body advance : Run} {start step finish : String}
    {resetItems countItems boundItems advanceItems : List Item} {first second third fourth : Nat}
    (hStart : Marked number start) (hStep : Marked number step) (hFinish : Marked number finish)
    (hStepStart : step ≠ start) (hFinishStart : finish ≠ start) (hFinishStep : finish ≠ step)
    (hReset : Lowers environment targets reset (number + 1) resetItems first)
    (hCount : Lowers environment ⟨some finish, some start⟩ count first countItems second)
    (hBound : Lowers environment ⟨some finish, some start⟩ bound second boundItems third)
    (hBody : Lowers environment ⟨some finish, some step⟩ body third items fourth)
    (hAdvance : Lowers environment ⟨some finish, some start⟩ advance fourth advanceItems high)
    (hAudible : Run.Audible count) :
    Lowers environment targets
      (.andThen reset (.looping (.andThen count (.andThen bound
        (.decide .limited (.andThen (.resuming body) advance) (.exiting .broken))))))
      number
      (resetItems ++ (.control (.ofLabel start) :: (countItems ++ (boundItems ++
        .control (naming "ILT_JZ" finish) ::
          (items ++ [.control (.ofLabel step)] ++ advanceItems))) ++
        [.control (naming "J" start), .control (.ofLabel finish)])) high := by
  have hFirst := hReset.le
  have hSecond := hCount.le
  have hThird := hBound.le
  have hFourth := hBody.le
  have hHigh := hAdvance.le
  have hTail := (@Realizes.resuming environment ⟨none, some start⟩ _ _ _ _ _ hStep
    (hBody.not_mem hStep (by omega)) hBody.realizes).andThen hAdvance.realizes
    (by simp [hBody.covers.apart hAdvance.covers, hStep.made, hAdvance.not_mem hStep (by omega)])
  have hTested : Realizes environment ⟨some finish, some start⟩
      (.decide .limited (.andThen (.resuming body) advance) (.exiting .broken))
      (.control (naming "ILT_JZ" finish) ::
        (items ++ [.control (.ofLabel step)] ++ advanceItems)) :=
    hTail.tested rfl rfl
  -- The label of the step has the number of the loop, below the range of the code that it
  -- stands in.
  have hOwn : ∀ label, label = step → Marked number label := by
    rintro label rfl
    exact hStep
  have hStepSpans : Spans (· = step) third high
      (.control (naming "ILT_JZ" finish) ::
        (items ++ [.control (.ofLabel step)] ++ advanceItems)) := by
    intro label hLabel
    simp only [listing_control, listing_append, listing_nil, definedLabels_naming,
      definedLabels_append, definedLabels_ofLabel, definedLabels_nil, List.mem_append,
      List.mem_singleton] at hLabel
    rcases hLabel with (hLabel | hSame) | hLabel
    · exact .inl ((hBody.covers label hLabel).mono (Nat.le_refl _) hHigh)
    · exact .inr hSame
    · exact .inl ((hAdvance.covers label hLabel).mono hFourth (Nat.le_refl _))
  have hBoundSpans := hStepSpans.prepend hBound.covers hThird (Nat.le_trans hFourth hHigh)
  have hSpans := hBoundSpans.prepend hCount.covers hSecond (by omega)
  have hRound := hCount.realizes.andThen
    (hBound.realizes.andThen hTested
      (hStepSpans.apart hOwn hBound.covers (by omega) (Nat.le_refl _)))
    (hBoundSpans.apart hOwn hCount.covers (by omega) (Nat.le_refl _))
  have hLoop := @Realizes.looping environment targets _ _ _ _ _ hStart hFinish hFinishStart
    (hSpans.not_mem hStart (by omega) hStepStart.symm)
      (hSpans.not_mem hFinish (by omega) hFinishStep)
    (Run.audible_bind hAudible) hRound
  refine ⟨by omega, ?_, hReset.realizes.andThen hLoop ?_⟩
  · have hItems := hSpans.covers hOwn (by omega) (by omega)
    simp only [Covers.append_iff, Covers.ofLabel_iff, Covers.naming_iff, Covers.nil, and_true]
    exact ⟨hReset.covers.mono (by omega) (by omega), ⟨hStart.owned (Nat.le_refl _) (by omega),
      by simpa [and_assoc] using hItems⟩, hFinish.owned (Nat.le_refl _) (by omega)⟩
  · have hItems := hSpans.apart hOwn hReset.covers (by omega) (Nat.le_refl _)
    rw [Apart.append_right, Apart.ofLabel_right hStart.made, Apart.naming_right,
      Apart.ofLabel_right hFinish.made]
    exact ⟨⟨hReset.not_mem hStart (by omega), hItems⟩, hReset.not_mem hFinish (by omega),
      Apart.nil_right⟩

end Lowers

/-! Labels of arms and cases -/

/-- The labels of the arms of a branch from a position on. -/
def IsArmLabel (number position : Nat) (label : String) : Prop :=
  ∃ other, position ≤ other ∧ label = armLabel number other

/-- The labels of cases with some values from a position on. -/
def IsCaseLabel (number position : Nat) (values : List (Option Int32)) (label : String) : Prop :=
  ∃ other, ∃ value ∈ values, position ≤ other ∧ label = caseLabel number other value

theorem IsArmLabel.marked {position : Nat} {label : String} (h : IsArmLabel number position label) :
    Marked number label := by
  obtain ⟨other, _, rfl⟩ := h
  exact marked_armLabel number other

theorem IsCaseLabel.marked {position : Nat} {values : List (Option Int32)} {label : String}
    (h : IsCaseLabel number position values label) : Marked number label := by
  obtain ⟨other, value, _, _, rfl⟩ := h
  exact marked_caseLabel number other value

/-! Arms -/

/-- The arms of a branch from a position on, which realize the choice of an arm
in front of whatever remainder the branch has. -/
structure LowersArms (environment : Environment) (targets : Targets) (number : Nat)
    (finish last : String) (position : Nat) (arms : List (Expr × List Stmt)) (low : Nat)
    (items : List Item) (high : Nat) : Prop where
  le : low ≤ high
  spans : Spans (IsArmLabel number position) low high items
  realizes : ∀ run remainder, Remainder environment targets last finish run remainder →
    Apart items remainder → Realizes environment targets (Stmt.armsRuns arms run)
      (items ++ remainder)

namespace LowersArms

variable {finish last : String} {position : Nat}

theorem nil (low : Nat) :
    LowersArms environment targets number finish last position [] low [] low where
  le := Nat.le_refl _
  spans := by
    intro label hLabel
    cases hLabel
  realizes := by
    intro run remainder hRemainder _
    rw [Stmt.armsRuns]
    exact hRemainder.realizes

/-- The last arm, whose failed condition leads to the remainder. -/
theorem single {condition : Expr} {body : List Stmt} {test : List Item}
    (hFinish : isUserLabel finish = false) (hLast : isUserLabel last = false)
    (hTest : Lowers environment targets (.perform (.value condition)) low test middle)
    (hBody : Lowers environment targets (Stmt.blockRuns body) middle items high) :
    LowersArms environment targets number finish last position [(condition, body)] low
      (test ++ .control (naming "JZ" last) :: items ++ skipTo finish last) high where
  le := Nat.le_trans hTest.le hBody.le
  spans := by
    intro label hLabel
    left
    have hCovers : Covers low high (test ++ items) := Covers.append_iff.mpr
      ⟨hTest.covers.mono (Nat.le_refl _) hBody.le, hBody.covers.mono hTest.le (Nat.le_refl _)⟩
    exact hCovers label (by simpa using hLabel)
  realizes := by
    intro run remainder hRemainder hApart
    simp only [Apart.append_left, Apart.naming_left] at hApart
    obtain ⟨⟨hTestApart, hItemsApart⟩, _⟩ := hApart
    have hDecided := Realizes.decided hLast hFinish hBody.realizes hRemainder hItemsApart
    have hArm := hTest.realizes.andThen hDecided (by
      simp [hTestApart, hTest.covers.apart hBody.covers (Nat.le_refl _)])
    rw [Stmt.armsRuns, Stmt.armsRuns]
    simpa using hArm

/-- An arm in front of others, whose failed condition leads to the next one. -/
theorem cons {condition : Expr} {body : List Stmt} {rest : List (Expr × List Stmt)}
    {test others : List Item} {higher : Nat} (hNumber : number < low)
    (hFinish : Marked number finish) (hOther : ∀ other, finish ≠ armLabel number other)
    (hTest : Lowers environment targets (.perform (.value condition)) low test middle)
    (hBody : Lowers environment targets (Stmt.blockRuns body) middle items high)
    (hRest : LowersArms environment targets number finish last (position + 1) rest
      high others higher) :
    LowersArms environment targets number finish last position ((condition, body) :: rest) low
      (test ++ .control (naming "JZ" (armLabel number position)) :: items ++
        skipTo finish (armLabel number position) ++
        .control (.ofLabel (armLabel number position)) :: others) higher where
  le := Nat.le_trans (Nat.le_trans hTest.le hBody.le) hRest.le
  spans := by
    intro label hLabel
    simp only [listing_append, listing_control, definedLabels_append, definedLabels_naming,
      definedLabels_skipTo, definedLabels_ofLabel, List.append_nil, List.mem_append,
      List.mem_cons] at hLabel
    have hTestLe := hTest.le
    have hBodyLe := hBody.le
    have hRestLe := hRest.le
    rcases hLabel with (hLabel | hLabel) | rfl | hLabel
    · exact .inl ((hTest.covers label hLabel).mono (Nat.le_refl _) (by omega))
    · exact .inl ((hBody.covers label hLabel).mono hTestLe hRestLe)
    · exact .inr ⟨position, Nat.le_refl _, rfl⟩
    · rcases hRest.spans label hLabel with hOwned | ⟨other, hOther, hSame⟩
      · exact .inl (hOwned.mono (by omega) (Nat.le_refl _))
      · exact .inr ⟨other, by omega, hSame⟩
  realizes := by
    intro run remainder hRemainder hApart
    have hLabel := marked_armLabel number position
    have hTestLe := hTest.le
    have hBodyLe := hBody.le
    simp only [Apart.append_left, Apart.naming_left, Apart.ofLabel_left hLabel.made] at hApart
    obtain ⟨⟨⟨hTestApart, hItemsApart⟩, _⟩, hLabelRemainder, hOthersApart⟩ := hApart
    have hLabelOthers : armLabel number position ∉ definedLabels (listing others) := by
      apply hRest.spans.not_mem hLabel (by omega)
      intro hFound
      obtain ⟨other, hLater, hSame⟩ := hFound
      have hPosition := armLabel_injective hSame
      omega
    have hFinishOthers : finish ∉ definedLabels (listing others) := by
      apply hRest.spans.not_mem hFinish (by omega)
      intro hFound
      obtain ⟨other, _, hSame⟩ := hFound
      exact hOther other hSame
    have hNext : Remainder environment targets (armLabel number position) finish
        (Stmt.armsRuns rest run)
        (.control (.ofLabel (armLabel number position)) :: others ++ remainder) := by
      obtain ⟨start, hEnds, hFinishStart⟩ := hRemainder.ends
      refine ⟨⟨_, rfl⟩, ⟨.control (.ofLabel (armLabel number position)) :: others ++ start, ?_, ?_⟩,
        ?_⟩
      · simp [hEnds]
      · simp [hOther, hFinishStart, hFinishOthers]
      · exact (hRest.realizes run remainder hRemainder hOthersApart).behindLabel hLabel.made
          (by simp [hLabelRemainder, hLabelOthers])
    have hDecided := Realizes.decided hLabel.made hFinish.made hBody.realizes hNext (by
      simp [hLabel.made, hItemsApart, hBody.not_mem hLabel (by omega),
        hRest.spans.apart (fun _ => IsArmLabel.marked) hBody.covers (by omega) (Nat.le_refl _)])
    have hArm := hTest.realizes.andThen hDecided (by
      simp [hLabel.made, hTestApart, hTest.covers.apart hBody.covers (Nat.le_refl _),
        hTest.not_mem hLabel hNumber,
        hRest.spans.apart (fun _ => IsArmLabel.marked) hTest.covers hNumber hBodyLe])
    rw [Stmt.armsRuns]
    simpa using hArm

end LowersArms

/-- The labels of all arms have the number of the branch or greater ones. -/
theorem LowersArms.covers {finish last : String} {position : Nat} {arms : List (Expr × List Stmt)}
    (h : LowersArms environment targets number finish last position arms (number + 1) items high) :
    Covers number high items :=
  h.spans.covers (fun _ => IsArmLabel.marked) (Nat.lt_succ_self _) h.le

/-- A branch that does nothing otherwise: its arms, and the label behind it. -/
theorem Lowers.branch {arms : List (Expr × List Stmt)}
    (hArms : LowersArms environment targets number (numbered ".endif_" number)
      (numbered ".endif_" number) 1 arms (number + 1) items high) :
    Lowers environment targets (Stmt.armsRuns arms (.exiting .finished)) number
      (items ++ [.control (.ofLabel (numbered ".endif_" number))]) high := by
  have hFinish : Marked number (numbered ".endif_" number) := marked_numbered number rfl
  have hAbsent : numbered ".endif_" number ∉ definedLabels (listing items) := by
    apply hArms.spans.not_mem hFinish (Nat.lt_succ_self _)
    intro hFound
    obtain ⟨other, _, hSame⟩ := hFound
    exact endif_ne_armLabel number other hSame
  refine ⟨Nat.le_of_succ_le hArms.le, ?_, hArms.realizes _ _ ⟨⟨[], rfl⟩, ⟨[], rfl, ?_⟩, ?_⟩ ?_⟩
  · simp [hArms.covers, hFinish.owned (Nat.le_refl _) hArms.le]
  · simp
  · exact Realizes.ofLabel _
  · simp [hFinish.made, hAbsent]

/-- A branch with something to do otherwise: its arms, the other statements with
their label, and the label behind it. -/
theorem Lowers.branchElse {arms : List (Expr × List Stmt)} {otherwise : Run}
    (hArms : LowersArms environment targets number (numbered ".endif_" number)
      (numbered ".else_" number) 1 arms (number + 1) items middle)
    (hOtherwise : Lowers environment targets otherwise middle others high) :
    Lowers environment targets (Stmt.armsRuns arms otherwise) number
      (items ++ (.control (.ofLabel (numbered ".else_" number)) :: others ++
        [.control (.ofLabel (numbered ".endif_" number))])) high := by
  have hFinish : Marked number (numbered ".endif_" number) := marked_numbered number rfl
  have hElse : Marked number (numbered ".else_" number) := marked_numbered number rfl
  have hArmsLe := hArms.le
  have hOtherwiseLe := hOtherwise.le
  have hDifferent := numbered_ne number (by decide : ".endif_" ≠ ".else_")
  have hFinishAbsent : numbered ".endif_" number ∉ definedLabels (listing items) := by
    apply hArms.spans.not_mem hFinish (Nat.lt_succ_self _)
    intro hFound
    obtain ⟨other, _, hSame⟩ := hFound
    exact endif_ne_armLabel number other hSame
  have hElseAbsent : numbered ".else_" number ∉ definedLabels (listing items) := by
    apply hArms.spans.not_mem hElse (Nat.lt_succ_self _)
    intro hFound
    obtain ⟨other, _, hSame⟩ := hFound
    exact else_ne_armLabel number other hSame
  refine ⟨by omega, ?_, hArms.realizes _ _ ⟨⟨_, rfl⟩, ⟨_, rfl, ?_⟩, ?_⟩ ?_⟩
  · simp [hArms.covers.mono (Nat.le_refl _) hOtherwiseLe,
      hOtherwise.covers.mono (by omega : number ≤ middle) (Nat.le_refl _),
      hElse.owned (Nat.le_refl _) (by omega : number < high),
      hFinish.owned (Nat.le_refl _) (by omega : number < high)]
  · simp [hDifferent, hOtherwise.not_mem hFinish (by omega)]
  · refine (hOtherwise.realizes.beforeLabel _).behindLabel hElse.made ?_
    simp [hDifferent.symm, hOtherwise.not_mem hElse (by omega)]
  · simp [hElse.made, hFinish.made, hElseAbsent, hFinishAbsent,
      hArms.covers.apart hOtherwise.covers (Nat.le_refl _)]

/-! Cases -/

def caseLabelsFrom (number position : Nat) (values : List (Option Int32)) : List String :=
  values.mapIdx fun index => caseLabel number (position + index)

theorem caseLabelsFrom_cons (number position : Nat) (value : Option Int32)
    (values : List (Option Int32)) :
    caseLabelsFrom number position (value :: values) =
      caseLabel number position value :: caseLabelsFrom number (position + 1) values := by
  unfold caseLabelsFrom
  rw [List.mapIdx_cons]
  congr 2
  funext index
  rw [Nat.add_right_comm, Nat.add_assoc]

/-- The labels of cases are numbered from the first one on. -/
theorem caseLabels_eq (number : Nat) (values : List (Option Int32)) :
    caseLabels number values = caseLabelsFrom number 0 values := by
  unfold caseLabels caseLabelsFrom
  congr 1
  funext index
  rw [Nat.zero_add]

/-- The cases of a selection from a position on. -/
structure LowersCases (environment : Environment) (targets : Targets) (number position : Nat)
    (cases : List (Option Int32 × List Stmt)) (low : Nat) (items : List Item) (high : Nat) :
    Prop where
  le : low ≤ high
  spans : Spans (IsCaseLabel number position (cases.map Prod.fst)) low high items
  realizes : RealizesCases environment targets cases
    (caseLabelsFrom number position (cases.map Prod.fst)) items

namespace LowersCases

variable {position : Nat}

theorem nil (low : Nat) : LowersCases environment targets number position [] low [] low where
  le := Nat.le_refl _
  spans := by
    intro label hLabel
    cases hLabel
  realizes := RealizesCases.nil

/-- A case in front of others. No default stands behind another. -/
theorem cons {value : Option Int32} {body : List Stmt} {rest : List (Option Int32 × List Stmt)}
    (hNumber : number < low) (hDefault : value = none → none ∉ rest.map Prod.fst)
    (hBody : Lowers environment targets (Stmt.blockRuns body) low items middle)
    (hRest : LowersCases environment targets number (position + 1) rest middle others high) :
    LowersCases environment targets number position ((value, body) :: rest) low
      (.control (.ofLabel (caseLabel number position value)) :: items ++ others) high where
  le := Nat.le_trans hBody.le hRest.le
  spans := by
    intro label hLabel
    simp only [List.cons_append, listing_control, listing_append, definedLabels_ofLabel,
      definedLabels_append, List.mem_cons, List.mem_append] at hLabel
    rcases hLabel with rfl | hLabel | hLabel
    · exact .inr ⟨position, value, List.mem_cons_self, Nat.le_refl _, rfl⟩
    · exact .inl ((hBody.covers label hLabel).mono (Nat.le_refl _) hRest.le)
    · rcases hRest.spans label hLabel with hOwned | ⟨other, found, hFound, hOther, hSame⟩
      · exact .inl (hOwned.mono hBody.le (Nat.le_refl _))
      · exact .inr ⟨other, found, List.mem_cons_of_mem _ hFound, by omega, hSame⟩
  realizes := by
    have hLabel := marked_caseLabel number position value
    have hBodyLe := hBody.le
    have hOthers : caseLabel number position value ∉ definedLabels (listing others) := by
      apply hRest.spans.not_mem hLabel (by omega)
      intro hFound
      obtain ⟨other, found, hFound, hLater, hSame⟩ := hFound
      refine caseLabel_ne ?_ (by omega : position ≠ other) hSame
      by_cases hValue : value = none
      · right
        rintro rfl
        exact hDefault hValue hFound
      · exact .inl hValue
    rw [List.map_cons, caseLabelsFrom_cons]
    exact RealizesCases.cons hLabel.made hBody.realizes hRest.realizes
      (hBody.not_mem hLabel hNumber) hOthers
      (hRest.spans.apart (fun _ => IsCaseLabel.marked) hBody.covers hNumber (Nat.le_refl _))

end LowersCases

/-- A selection: the value, the choice of a case, the cases, and the label
behind them. -/
theorem Lowers.select {cases : List (Option Int32 × List Stmt)} {scrutinee : Run}
    {value : List Item} (hValue : Lowers environment targets scrutinee (number + 1) value middle)
    (hCases : LowersCases environment
      { targets with break? := some (numbered ".endswitch_" number) } number 0 cases middle items
      high) :
    Lowers environment targets
      (.andThen scrutinee (.stopping (.choose .selected fun value =>
        ((Stmt.enterCase (· = some value) cases).or (Stmt.enterCase Option.isNone cases)).getD
          (.exiting .finished))))
      number
      (value ++ ((selection (cases.map Prod.fst) (caseLabelsFrom number 0 (cases.map Prod.fst))
        (numbered ".endswitch_" number)).map .control ++ items ++
        [.control (.ofLabel (numbered ".endswitch_" number))])) high := by
  have hFinish : Marked number (numbered ".endswitch_" number) := marked_numbered number rfl
  have hValueLe := hValue.le
  have hCasesLe := hCases.le
  have hAbsent : numbered ".endswitch_" number ∉ definedLabels (listing items) := by
    apply hCases.spans.not_mem hFinish (by omega)
    intro hFound
    obtain ⟨other, found, _, _, hSame⟩ := hFound
    exact endswitch_ne_caseLabel number other found hSame
  have hChoice := Realizes.selected hFinish.made hAbsent (by simp [caseLabelsFrom]) hCases.realizes
  refine ⟨by omega, ?_, hValue.realizes.andThen hChoice ?_⟩
  · have hItems := hCases.spans.covers (fun _ => IsCaseLabel.marked) (by omega) hCasesLe
    simp [selection, hItems, hValue.covers.mono (by omega : number ≤ number + 1) hCasesLe,
      hFinish.owned (Nat.le_refl _) (by omega : number < high)]
  · simp [selection, hFinish.made, hValue.not_mem hFinish (Nat.lt_succ_self _),
      hCases.spans.apart (fun _ => IsCaseLabel.marked) hValue.covers (by omega) (Nat.le_refl _)]

end ScriptBackend.Lowering
