import ScriptBackend.Proofs.Lowering.Instructions
import ScriptBackend.Proofs.Program.Statements

/-!
All the code of a program suits: by induction on the rules, from the pieces that
code is put together of. A piece may jump to its own labels and to those that
its surroundings promise.
-/
namespace ScriptBackend.Lowering

open ScriptBackend.Assembly Outcome

section Pieces

variable {setting : Setting} {names : Names}

theorem provides_append {first second : Code} (h : Provides setting names (first ++ second)) :
    Provides setting names first ∧ Provides setting names second :=
  ⟨h.mono (List.subset_append_left _ _), h.mono (List.subset_append_right _ _)⟩

theorem provides_cons {statement : Statement} {rest : Code}
    (h : Provides setting names (statement :: rest)) :
    (∀ label, statement.label = some label → names.isLabel label) ∧
      (∀ name, calledNative? statement = some (Text.upperCased name) →
        (setting.natives.named? name).isSome → names.isNative (Text.upperCased name)) ∧
      Provides setting names rest :=
  ⟨fun label hLabel => h.labels label (List.mem_filterMap.mpr ⟨statement, by simp, hLabel⟩),
    h.natives statement (by simp), h.mono (List.subset_cons_self _ _)⟩

end Pieces

/-- The labels that a task may jump to without defining them. -/
def Task.exits : Task → List String
  | .operand _ finish _ => [finish]
  | _ => []

section Tasks

variable {environment : Environment} {names : Names}

/-- Every statement of code of expressions suits. -/
theorem Emits.suits {task : Task} {n m : Nat} {code : Code} (h : Emits environment task n code m)
    (hProvides : Provides environment.toSetting names code)
    (hExits : ∀ label ∈ task.exits, names.isLabel label) : SuitsCode names code := by
  have hInt : SuitsStatement names (plain "INOT") := suits_plain .inot rfl
  have hLoad : SuitsStatement names (plain "LOAD_N") := suits_plain .loadN rfl
  have hThrough : SuitsStatement names (plain "CALLINDIRECT") :=
    suits_plain .callindirect rfl
  have hMember : ∀ offset, SuitsStatement names (counted "IOFFSET_CONST_LOAD" [offset]) :=
    suits_counted (by decide)
  have hElement : ∀ size, SuitsStatement names (counted "ARRAY" [size]) := suits_counted (by decide)
  have hWord : ∀ size, SuitsStatement names (counted "ARRAY_LOAD" [size]) :=
    suits_counted (by decide)
  have hNone : ∀ label ∈ ([] : List String), names.isLabel label := by simp
  induction h with
  | known n words_eq =>
      refine suits_pushData (fun word hWord => ?_) hProvides
      unfold knownWords? at words_eq
      split at words_eq
      · exact isKnown_of_fold? words_eq word hWord
      · cases words_eq
  | computed unknown node ih => exact ih hProvides hNone
  | literal n word_eq =>
      refine suits_pushData (fun word hWord => ?_) hProvides
      rw [List.mem_singleton.mp hWord]
      rintro name rfl
      unfold Expr.literal? at word_eq
      split at word_eq
      all_goals first
        | cases word_eq
        | split at word_eq <;> cases word_eq
  | vector x_code y_code z_code x_ih y_ih z_ih =>
      obtain ⟨hXY, hZ⟩ := provides_append hProvides
      obtain ⟨hX, hY⟩ := provides_append hXY
      simp [x_ih (provides_append hX).1 hNone, y_ih (provides_append hY).1 hNone,
        z_ih (provides_append hZ).1 hNone, suits_componentConversion]
  | constant declaration storage initialized inlined ih => exact ih hProvides hNone
  | «variable» n declaration storage load => exact suits_variableLoad load
  | functionRef n named =>
      refine (suitsCode_cons _ _).mpr ⟨suits_push (by simp) ?_, suitsCode_nil⟩
      unfold functionName at named
      split at named
      · next found hFound =>
          cases named
          simpa [Operand.IsPushable] using hProvides.functions _ _ hFound
      · cases named
  | neg operand_code ih => simp [ih (provides_append hProvides).1 hNone, suits_negation]
  | not operand_code ih => simp [ih (provides_append hProvides).1 hNone, hInt]
  | @shortCircuit info op left right n middle m first second short left_code right_code left_ih
      right_ih =>
      obtain ⟨hBoth, hEnd⟩ := provides_append hProvides
      obtain ⟨hFirst, hSecond⟩ := provides_append hBoth
      have hLabel : names.isLabel (chainEnd op n) := (provides_cons hEnd).1 _ rfl
      have hFinish : ∀ label ∈ (Task.operand op (chainEnd op n) left).exits,
          names.isLabel label := by
        simpa [Task.exits] using hLabel
      simp [left_ih (provides_append hFirst).1 hFinish, right_ih hSecond hFinish,
        suits_decision op hLabel]
  | binary long chosen left_code right_code left_ih right_ih =>
      obtain ⟨hBoth, _⟩ := provides_append hProvides
      obtain ⟨hFirst, hSecond⟩ := provides_append hBoth
      simp [left_ih (provides_append hFirst).1 hNone, right_ih (provides_append hSecond).1 hNone,
        suits_widening, suits_operation chosen]
  | memberWord single placed base_code ih =>
      simp [ih (provides_append hProvides).1 hNone, hMember]
  | memberWords several placed base_code ih =>
      have hBase := (provides_cons (provides_append (provides_append hProvides).1).1).2.2
      simp [ih hBase hNone, suits_pushCount, suits_atOffset, hLoad]
  | indexWord single position_code array_code position_ih array_ih =>
      obtain ⟨hIndex, hArray⟩ := provides_append (provides_append hProvides).1
      simp [position_ih hIndex hNone, array_ih hArray hNone, hWord]
  | indexWords several position_code array_code position_ih array_ih =>
      obtain ⟨hIndex, hArray⟩ := provides_append (provides_append hProvides).1
      simp [position_ih (provides_cons hIndex).2.2 hNone, array_ih hArray hNone, suits_pushCount,
        hElement, hLoad]
  | @call info id n m function passed parameters code declared typed count arguments_code ih =>
      have hName : names.isLabel function.name :=
        hProvides.functions id function.name (by simp [Program.functionName?, declared])
      simp [ih (provides_append hProvides).1 hNone, suits_call hName]
  | callNative declared count arguments_code call_eq ih =>
      obtain ⟨hArguments, hCall⟩ := provides_append hProvides
      simp [ih hArguments hNone, suits_nativeCall call_eq (provides_cons hCall).2.1]
  | callThrough typed count arguments_code target_code arguments_ih target_ih =>
      obtain ⟨hArguments, hTarget⟩ := provides_append (provides_append hProvides).1
      simp [arguments_ih hArguments hNone, target_ih hTarget hNone, hThrough]
  | convert operand_code change_eq ih =>
      simp [ih (provides_append hProvides).1 hNone, suits_conversion change_eq]
  | chain same left_code right_code left_ih right_ih =>
      obtain ⟨hFirst, hSecond⟩ := provides_append hProvides
      simp [left_ih (provides_append hFirst).1 hExits, right_ih hSecond hExits,
        suits_decision _ (hExits _ (List.mem_singleton_self _))]
  | operand other value_code ih => exact ih hProvides hNone
  | stored kept base_code ih => exact ih hProvides hNone
  | spilled unkept room base_code ih =>
      simp [ih (provides_append hProvides).1 hNone, suits_spillCode]
  | storedMember placed base_code ih =>
      simp [ih (provides_append hProvides).1 hNone, suits_atOffset]
  | storedIndex position_code array_code position_ih array_ih =>
      obtain ⟨hIndex, hArray⟩ := provides_append (provides_append hProvides).1
      simp [position_ih hIndex hNone, array_ih hArray hNone, hElement]
  | storedVariable n address => exact suits_variableAddress address
  | placeMember placed base_code ih =>
      simp [ih (provides_append hProvides).1 hNone, suits_atOffset]
  | placeIndex position_code array_code position_ih array_ih =>
      obtain ⟨hIndex, hArray⟩ := provides_append (provides_append hProvides).1
      simp [position_ih hIndex hNone, array_ih hArray hNone, hElement]
  | placeVariable n address => exact suits_variableAddress address
  | noArguments parameters n => exact suitsCode_nil
  | byAddress passes first_code rest_code first_ih rest_ih =>
      obtain ⟨hFirst, hRest⟩ := provides_append hProvides
      simp [first_ih hFirst hNone, rest_ih hRest hNone]
  | byValue passes first_code rest_code first_ih rest_ih =>
      obtain ⟨hFirst, hRest⟩ := provides_append hProvides
      simp [first_ih hFirst hNone, rest_ih hRest hNone]

end Tasks

/-! Statements -/

def Part.parts : Part → List Stmt
  | .statement s => s.parts
  | .block statements => Stmt.blockParts statements
  | .arms _ _ _ _ branches => Stmt.armsParts branches
  | .cases _ choices => Stmt.casesParts choices

/-- The labels around a part to which it may jump besides those of the program. -/
def Part.exits (targets : Targets) (part : Part) : List String :=
  targets.break?.toList ++ targets.continue?.toList ++
    match part with
    | .arms _ finish last _ _ => [finish, last]
    | _ => []

section Statements

variable {environment : Environment} {names : Names}

theorem Stores.suits {target : Expr} {n m : Nat} {code : Code}
    (h : Stores environment target n code m)
    (hProvides : Provides environment.toSetting names code) :
    SuitsCode names code := by
  have hStore : SuitsStatement names (plain "STORE_N") := suits_plain .storeN rfl
  have hMember : ∀ offset, SuitsStatement names (counted "IOFFSET_CONST_STORE" [offset]) :=
    suits_counted (by decide)
  have hWord : ∀ size, SuitsStatement names (counted "ARRAY_STORE" [size]) :=
    suits_counted (by decide)
  have hNone : ∀ label ∈ ([] : List String), names.isLabel label := by simp
  cases h with
  | words several place =>
      have hPlace := (provides_cons (provides_append hProvides).1).2.2
      simp [place.suits hPlace hNone, suits_pushCount, hStore]
  | «variable» n single stored => exact suits_variableStore stored
  | member single placed place => simp [place.suits (provides_append hProvides).1 hNone, hMember]
  | index single position_code place =>
      obtain ⟨hIndex, hPlace⟩ := provides_append (provides_append hProvides).1
      simp [position_code.suits hIndex hNone, place.suits hPlace hNone, hWord]

theorem suits_textLabel {op : Option BinaryOp} {source : Ty} {mnemonic : String}
    (h : textLabelMnemonic? op source = some mnemonic) (size : Nat) :
    SuitsStatement names (counted mnemonic [size]) := by
  unfold textLabelMnemonic? at h
  split at h
  · cases h
    exact suits_byte .textLabelAssignString rfl size
  · cases h
    exact suits_byte .textLabelAssignInt rfl size
  · cases h
    exact suits_byte .textLabelAppendString rfl size
  · cases h
    exact suits_byte .textLabelAppendInt rfl size
  · cases h

theorem Assigns.suits {target source : Expr} {op : Option BinaryOp} {n m : Nat} {code : Code}
    (h : Assigns environment target op source n code m)
    (hProvides : Provides environment.toSetting names code) : SuitsCode names code := by
  have hNone : ∀ label ∈ ([] : List String), names.isLabel label := by simp
  cases h with
  | text fills chosen source_code target_code =>
      obtain ⟨hSource, hTarget⟩ := provides_append (provides_append hProvides).1
      simp [source_code.suits hSource hNone, target_code.suits hTarget hNone,
        suits_textLabel chosen]
  | value other source_code stores =>
      obtain ⟨hSource, hStores⟩ := provides_append hProvides
      simp [source_code.suits hSource hNone, stores.suits hStores]

theorem suits_storeWords {words : List Datum} {code : Code}
    (hKnown : ∀ word ∈ words, word.IsKnown environment.program)
    (hProvides : Provides environment.toSetting names code) (offset : Nat) :
    SuitsCode names (storeWords offset words) := by
  have hDup : SuitsStatement names (plain "DUP") := suits_plain .dup rfl
  have hStore : SuitsStatement names (plain "STORE_REV") := suits_plain .storeRev rfl
  have hDrop : SuitsStatement names (plain "DROP") := suits_plain .drop rfl
  induction words generalizing offset with
  | nil => exact suitsCode_nil
  | cons word rest ih =>
      have hWord : SuitsCode names (pushData [word]) :=
        suits_pushData (fun other hOther => hKnown other (by simp_all)) hProvides
      have hRest := ih (fun other hOther => hKnown other (by simp [hOther])) (offset + 1)
      unfold storeWords storeWord
      split <;> simp [hWord, hRest, hDup, hStore, hDrop, suits_atOffset]

theorem suits_storeDefaults {words : List Datum} {code : Code}
    (hKnown : ∀ word ∈ words, word.IsKnown environment.program)
    (hProvides : Provides environment.toSetting names code) (name : String) (slot : Slot) :
    SuitsCode names (storeDefaults name slot words) := by
  have hDrop : SuitsStatement names (plain "DROP") := suits_plain .drop rfl
  have hLocal : ∀ index, SuitsStatement names (counted "LOCAL" [index]) := suits_counted (by decide)
  unfold storeDefaults
  split
  · exact suitsCode_nil
  · simp [suits_storeWords hKnown hProvides, hLocal, hDrop]

theorem Declares.suits {id n m : Nat} {code : Code} (h : Declares environment id n code m)
    (hProvides : Provides environment.toSetting names code) : SuitsCode names code := by
  have hStore : ∀ index, SuitsStatement names (counted "LOCAL_STORE" [index]) :=
    suits_counted (by decide)
  have hNone : ∀ label ∈ ([] : List String), names.isLabel label := by simp
  cases h with
  | reference declaration placed isRef initialized target_code =>
      simp [target_code.suits (provides_append hProvides).1 hNone, hStore]
  | initialized declaration isValue initialized assigns => exact assigns.suits hProvides
  | defaults n declaration placed isValue uninitialized words_eq =>
      refine suits_storeDefaults (fun word hWord => ?_) hProvides _ _
      exact @isKnown_of_initialWords _ _ none _ words_eq word hWord

/-- A selection suits if its labels are there. -/
theorem suits_selection {values : List (Option Int32)} {labels : List String} {finish : String}
    (hLabels : ∀ label ∈ labels, names.isLabel label) (hFinish : names.isLabel finish) :
    SuitsCode names (selection values labels finish) := by
  have hSwitch : ∀ entries : List Operand,
      (∀ operand ∈ entries, ∃ value label, operand = .case value label ∧ names.isLabel label) →
      SuitsStatement names (.ofInstruction "SWITCH" entries) := fun entries h =>
    Suited.primitive (Opcode.named?_mnemonic .switch) h
  have hJump : ∀ label, names.isLabel label → SuitsStatement names (naming "J" label) :=
    fun label h => suits_jump .j rfl h
  unfold selection
  refine (suitsCode_cons _ _).mpr ⟨hSwitch _ fun operand hOperand => ?_,
    (suitsCode_cons _ _).mpr ⟨hJump _ ?_, suitsCode_nil⟩⟩
  · obtain ⟨⟨value, label⟩, hPair, hCase⟩ := List.mem_filterMap.mp hOperand
    obtain ⟨found, _, rfl⟩ := Option.map_eq_some_iff.mp hCase
    exact ⟨_, label, rfl, hLabels label (List.of_mem_zip hPair).2⟩
  · generalize hFound : List.find? _ (values.zip labels) = found
    cases found with
    | none => simpa using hFinish
    | some pair =>
        obtain ⟨value, label⟩ := pair
        have hMem := List.mem_of_find?_eq_some hFound
        simpa using hLabels label (List.of_mem_zip hMem).2

/-- The labels of cases stand in the code of the cases. -/
theorem Generates.labels_of_cases {targets : Targets} {labels : List String}
    {cases : List (Option Int32 × List Stmt)} {n m : Nat} {code : Code}
    (h : Generates environment targets (.cases labels cases) n code m)
    (hLength : labels.length = cases.length) : labels ⊆ definedLabels code := by
  induction cases generalizing labels n code with
  | nil => simp [List.length_eq_zero_iff.mp hLength]
  | cons first rest ih =>
      cases h with
      | case body_code rest_code =>
          cases labels with
          | nil => cases hLength
          | cons label others =>
              have hRest := ih rest_code (Nat.succ.inj hLength)
              refine List.cons_subset.mpr ⟨by simp, fun other hOther => ?_⟩
              rw [definedLabels_append]
              exact List.mem_append_right _ (hRest hOther)

/-- Every statement of code of a body suits. -/
theorem Generates.suits {targets : Targets} {part : Part} {n m : Nat} {code : Code}
    (h : Generates environment targets part n code m)
    (hProvides : Provides environment.toSetting names code)
    (hExits : ∀ label ∈ part.exits targets, names.isLabel label)
    (hGotos : ∀ name ∈ gotoNames part.parts, names.isLabel (userLabel name)) :
    SuitsCode names code := by
  have hNone : ∀ label ∈ ([] : List String), names.isLabel label := by simp
  have hJump : ∀ label, names.isLabel label → SuitsStatement names (naming "J" label) :=
    fun label h => suits_jump .j rfl h
  have hTest : ∀ label, names.isLabel label → SuitsStatement names (naming "JZ" label) :=
    fun label h => suits_jump .jz rfl h
  have hLimit : ∀ label, names.isLabel label → SuitsStatement names (naming "ILT_JZ" label) :=
    fun label h => suits_jump .iltJz rfl h
  have hLeave : ∀ words results, SuitsStatement names (counted "LEAVE" [words, results]) :=
    fun words results => Suited.primitive (Opcode.named?_mnemonic .leave) trivial
  induction h with
  | declare declares => exact declares.suits hProvides
  | assign assigns => exact assigns.suits hProvides
  | @branch targets arms otherwise n middle m tested rest arms_code otherwise_code
        arms_ih otherwise_ih =>
      simp only [Part.parts, Stmt.parts, gotoNames_cons, Stmt.gotoName?, Option.toList_none,
        List.nil_append, gotoNames_append, List.forall_mem_append] at hGotos
      obtain ⟨hBoth, hEnd⟩ := provides_append hProvides
      obtain ⟨hTested, hRest⟩ := provides_append hBoth
      have hFinish := (provides_cons hEnd).1 _ rfl
      have hAfter : names.isLabel (afterArms n otherwise) := by
        unfold afterArms
        split
        · exact hFinish
        · next hOtherwise =>
            rw [if_neg hOtherwise] at hRest
            exact (provides_cons hRest).1 _ rfl
      have hArms := arms_ih hTested (by simpa [Part.exits, or_imp, forall_and, hFinish, hAfter]
        using hExits) hGotos.1
      split
      · simp [hArms]
      · next hOtherwise =>
          rw [if_neg hOtherwise] at hRest
          have hBlock := otherwise_ih (provides_cons hRest).2.2 (by simpa [Part.exits] using hExits)
            hGotos.2
          simp [hArms, hBlock]
  | @loop targets condition body n middle m test code condition_code body_code body_ih =>
      simp only [Part.parts, Stmt.parts, gotoNames_cons, Stmt.gotoName?, Option.toList_none,
        List.nil_append] at hGotos
      obtain ⟨hBoth, hEnd⟩ := provides_append hProvides
      obtain ⟨hTested, hRest⟩ := provides_append hBoth
      have hStart := (provides_cons hTested).1 _ rfl
      have hFinish := (provides_cons (provides_cons hEnd).2.2).1 _ rfl
      have hBody := body_ih (provides_cons hRest).2.2
        (by simp [Part.exits, hStart, hFinish]) hGotos
      simp [condition_code.suits (provides_cons hTested).2.2 hNone, hBody, hTest _ hFinish,
        hJump _ hStart]
  | @countUp targets limit counter body n n₁ n₂ n₃ n₄ m reset count bound code advance reset_code
      counter_code limit_code body_code advance_code body_ih =>
      simp only [Part.parts, Stmt.parts, gotoNames_cons, Stmt.gotoName?, Option.toList_none,
        List.nil_append] at hGotos
      obtain ⟨hBehind, hEnd⟩ := provides_append hProvides
      obtain ⟨hBehind, hAdvance⟩ := provides_append hBehind
      obtain ⟨hBehind, hBody⟩ := provides_append hBehind
      obtain ⟨hBehind, hBound⟩ := provides_append hBehind
      obtain ⟨hReset, hCount⟩ := provides_append hBehind
      have hStart := (provides_cons hCount).1 _ rfl
      have hStep := (provides_cons hAdvance).1 _ rfl
      have hFinish := (provides_cons (provides_cons hEnd).2.2).1 _ rfl
      have hInner := body_ih (provides_cons hBody).2.2
        (by simp [Part.exits, hStep, hFinish]) hGotos
      simp [reset_code.suits hReset, counter_code.suits (provides_cons hCount).2.2 hNone,
        limit_code.suits hBound hNone, hInner, advance_code.suits (provides_cons hAdvance).2.2,
        hLimit _ hFinish, hJump _ hStart]
  | @select targets scrutinee cases n middle m code bodies scrutinee_code cases_code cases_ih =>
      simp only [Part.parts, Stmt.parts, gotoNames_cons, Stmt.gotoName?, Option.toList_none,
        List.nil_append] at hGotos
      obtain ⟨hBoth, hEnd⟩ := provides_append hProvides
      obtain ⟨hChosen, hBodies⟩ := provides_append hBoth
      have hFinish := (provides_cons hEnd).1 _ rfl
      have hLabels : ∀ label ∈ caseLabels n (cases.map Prod.fst), names.isLabel label :=
        fun label hLabel => hBodies.labels label (cases_code.labels_of_cases
          (by simp [caseLabels]) hLabel)
      have hCases := cases_ih hBodies
        (by simpa [Part.exits, or_imp, forall_and, hFinish] using fun label h => hExits label (by
          simp [Part.exits, h])) hGotos
      simp [scrutinee_code.suits (provides_append hChosen).1 hNone, hCases,
        suits_selection hLabels hFinish]
  | breakOut n target =>
      simp [hJump _ (hExits _ (List.mem_append_left _
        (List.mem_append_left _ (by simp [target]; rfl))))]
  | continueLoop n target =>
      simp [hJump _ (hExits _ (List.mem_append_left _
        (List.mem_append_right _ (by simp [target]; rfl))))]
  | goto targets name n =>
      simp [hJump _ (hGotos name (by simp [Part.parts, Stmt.parts, gotoNames, Stmt.gotoName?]))]
  | label targets name n => simp
  | ret targets n => simpa [leave] using hLeave _ _
  | retValue value_code =>
      simpa [leave, value_code.suits (provides_append hProvides).1 hNone] using hLeave _ _
  | evaluate value_code =>
      simp [value_code.suits (provides_append hProvides).1 hNone, suits_dropWords]
  | nil targets n => exact suitsCode_nil
  | cons first_code rest_code first_ih rest_ih =>
      simp only [Part.parts, Stmt.blockParts, gotoNames_append, List.forall_mem_append] at hGotos
      obtain ⟨hFirst, hRest⟩ := provides_append hProvides
      simp [first_ih hFirst hExits hGotos.1, rest_ih hRest hExits hGotos.2]
  | noArms targets number finish last position n => exact suitsCode_nil
  | @arm targets number position finish last condition body rest n n₁ n₂ m test code others
      condition_code body_code rest_code body_ih rest_ih =>
      simp only [Part.parts, Stmt.armsParts, gotoNames_append, List.forall_mem_append] at hGotos
      obtain ⟨hOwn, hOthers⟩ := provides_append hProvides
      obtain ⟨hOwn, hEnd⟩ := provides_append hOwn
      obtain ⟨hTested, hBody⟩ := provides_append hOwn
      have hFinish : names.isLabel finish := hExits finish (by simp [Part.exits])
      have hNext : names.isLabel (nextArm number last position rest) := by
        unfold nextArm
        split
        · exact hExits last (by simp [Part.exits])
        · next hRest =>
            have hMark := (provides_append hEnd).2
            rw [if_neg hRest] at hMark
            simpa [nextArm, hRest] using (provides_cons hMark).1 _ rfl
      have hSkip : SuitsCode names (armEnd number finish last position rest) := by
        unfold armEnd
        split <;> split <;> simp [hJump _ hFinish]
      have hCode := body_ih (provides_cons hBody).2.2
        (fun label hLabel =>
        hExits label (List.mem_append_left _ (by simpa [Part.exits] using hLabel))) hGotos.1
      simp [condition_code.suits hTested hNone, hTest _ hNext, hCode, hSkip,
        rest_ih hOthers hExits hGotos.2]
  | noCases targets labels n => exact suitsCode_nil
  | case body_code rest_code body_ih rest_ih =>
      simp only [Part.parts, Stmt.casesParts, gotoNames_append, List.forall_mem_append] at hGotos
      obtain ⟨hFirst, hRest⟩ := provides_append hProvides
      simp [body_ih (provides_cons hFirst).2.2 hExits hGotos.1, rest_ih hRest hExits hGotos.2]

end Statements
end ScriptBackend.Lowering
