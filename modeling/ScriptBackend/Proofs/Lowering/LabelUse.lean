import Mathlib.Data.List.Nodup
import ScriptBackend.Proofs.Lowering.ActionCode
import ScriptBackend.Proofs.Lowering.Constructs
import ScriptBackend.Proofs.Lowering.SuitedCode

/-!
No label comes twice in the code of a function. The labels of code are counted
number by number: a number from its own range is used up by one construct, whose
labels are different by their stems, and a number from outside only has labels
of the construct around.
-/
namespace ScriptBackend.Lowering

open ScriptBackend.Assembly

def isMadeFor (number : Nat) (label : String) : Bool :=
  !isUserLabel label && labelNumber label == number

/-- The labels of code that takes the numbers from one up to another: the labels
of some names of the program in their order, labels made up for numbers of the
range without repetition, and labels of the construct around it. -/
structure Spread (users own : List String) (low high : Nat) (labels : List String) : Prop where
  le : low ≤ high
  locals : ∀ label ∈ labels, isLocal label = true
  users : labels.filter isUserLabel = users.map userLabel
  outside : ∀ number, number < low ∨ high ≤ number →
    labels.filter (isMadeFor number) = own.filter (isMadeFor number)
  inside : ∀ number, low ≤ number → number < high → (labels.filter (isMadeFor number)).Nodup

/-- Labels of the program have different local names. -/
theorem userLabel_injective {first second : String} (h : userLabel first = userLabel second) :
    first = second :=
  String.append_right_inj _ |>.mp h

theorem isLocal_append {name : String} (h : isLocal name = true) (tail : String) :
    isLocal (name ++ tail) = true := by
  rw [isLocal, beq_iff_eq] at h ⊢
  rw [String.toList_append, List.head?_append, h]
  rfl

/-- A label carries one number only, so that it is made for that number and no
other. -/
theorem Marked.isMadeFor {number : Nat} {label : String} (h : Marked number label) (other : Nat) :
    isMadeFor other label = true ↔ number = other := by
  simp [Lowering.isMadeFor, h.made, h.number]

namespace Spread

variable {users own others : List String} {low middle high : Nat} {labels later : List String}

theorem nil (number : Nat) : Spread [] [] number number [] where
  le := Nat.le_refl _
  locals := by simp
  users := rfl
  outside := fun _ _ => rfl
  inside := by simp

/-- A label of the program. -/
theorem user (name : String) (number : Nat) : Spread [name] [] number number [userLabel name] where
  le := Nat.le_refl _
  locals := by simp [isLocal, userLabel]
  users := by simp [isUserLabel, userLabel]
  outside := by simp [isMadeFor, isUserLabel, userLabel]
  inside := by omega

/-- A label of the construct around. -/
theorem single {number : Nat} {label : String} (h : Marked number label)
    (hLocal : isLocal label = true) (low : Nat) : Spread [] [label] low low [label] where
  le := Nat.le_refl _
  locals := by simpa using hLocal
  users := by simp [h.made]
  outside := fun _ _ => rfl
  inside := by omega

/-- Code behind code. The labels of the construct around have lower numbers than
both. -/
theorem append {names : List String} (h : Spread users own low middle labels)
    (hLater : Spread names others middle high later)
    (hBelow : ∀ label ∈ own ++ others, labelNumber label < low) :
    Spread (users ++ names) (own ++ others) low high (labels ++ later) where
  le := Nat.le_trans h.le hLater.le
  locals := List.forall_mem_append.mpr ⟨h.locals, hLater.locals⟩
  users := by rw [List.filter_append, h.users, hLater.users, List.map_append]
  outside := fun number hNumber => by
    have hLow := h.le
    have hHigh := hLater.le
    rw [List.filter_append, List.filter_append, h.outside number (by omega),
      hLater.outside number (by omega)]
  inside := fun number hNumber hEnd => by
    have hNone : ∀ part : List String, (∀ label ∈ part, labelNumber label < low) →
        part.filter (isMadeFor number) = [] := fun part hPart =>
      List.filter_eq_nil_iff.mpr fun label hLabel => by
        have hLess := hPart label hLabel
        simp only [isMadeFor, Bool.and_eq_true, beq_iff_eq]
        omega
    rw [List.forall_mem_append] at hBelow
    rw [List.filter_append]
    rcases Nat.lt_or_ge number middle with hFirst | hSecond
    · rw [hLater.outside number (.inl hFirst), hNone others hBelow.2, List.append_nil]
      exact h.inside number hNumber hFirst
    · rw [h.outside number (.inr hSecond), hNone own hBelow.1, List.nil_append]
      exact hLater.inside number hSecond hEnd

/-- Code behind code that has no labels of a construct around. -/
theorem andThen {names : List String} (h : Spread users [] low middle labels)
    (hLater : Spread names [] middle high later) :
    Spread (users ++ names) [] low high (labels ++ later) :=
  h.append hLater (by simp)

/-- A construct takes a number for its own labels. -/
theorem close (h : Spread users own (low + 1) high labels) (hOwn : ∀ label ∈ own, Marked low label)
    (hNodup : own.Nodup) : Spread users [] low high labels where
  le := Nat.le_of_succ_le h.le
  locals := h.locals
  users := h.users
  outside := fun number hNumber => by
    have hLow := h.le
    rw [h.outside number (by omega), List.filter_nil]
    refine List.filter_eq_nil_iff.mpr fun label hLabel hMade => ?_
    have hSame := ((hOwn label hLabel).isMadeFor number).mp hMade
    omega
  inside := fun number hNumber hEnd => by
    rcases Nat.lt_or_eq_of_le hNumber with hLater | rfl
    · exact h.inside number hLater hEnd
    · rw [h.outside low (.inl (Nat.lt_succ_self low))]
      exact hNodup.filter _

/-- No label that was made up for a number comes twice. -/
theorem nodup_made (h : Spread users [] low high labels) (number : Nat) :
    (labels.filter (isMadeFor number)).Nodup := by
  by_cases hRange : low ≤ number ∧ number < high
  · exact h.inside number hRange.1 hRange.2
  · rw [h.outside number (by omega)]
    exact List.nodup_nil

/-- No label comes twice if no name of the program does. -/
theorem nodup (h : Spread users [] low high labels) (hUsers : users.Nodup) : labels.Nodup := by
  rw [List.nodup_iff_count_le_one]
  intro label
  have hCount : ∀ kind : String → Bool, kind label = true → (labels.filter kind).Nodup →
      labels.count label ≤ 1 := fun kind hKind hNodup => by
    rw [← List.count_filter hKind]
    exact List.nodup_iff_count_le_one.mp hNodup label
  cases hUser : isUserLabel label with
  | true =>
      refine hCount isUserLabel hUser ?_
      rw [h.users]
      exact hUsers.map fun _ _ => userLabel_injective
  | false =>
      exact hCount (isMadeFor (labelNumber label)) (by simp [isMadeFor, hUser])
        (h.nodup_made (labelNumber label))

/-- The labels of the program are among the labels. -/
theorem mem_of_user (h : Spread users own low high labels) {name : String} (hName : name ∈ users) :
    userLabel name ∈ labels := by
  have hMem : userLabel name ∈ labels.filter isUserLabel := by
    rw [h.users]
    exact List.mem_map_of_mem hName
  exact List.mem_of_mem_filter hMem

end Spread

section Expressions

variable {environment : Environment}

theorem definedLabels_spillCode (frame : Frame) (size : Nat) :
    definedLabels (spillCode frame size) = [] := by
  unfold spillCode
  split <;> simp

/-- Code of expressions has no labels but its own. -/
theorem Emits.spread {task : Task} {n m : Nat} {code : Code} (h : Emits environment task n code m) :
    Spread [] [] n m (definedLabels code) := by
  induction h with
  | known n words_eq => simpa using Spread.nil n
  | computed unknown node ih => exact ih
  | literal n word_eq => simpa using Spread.nil n
  | vector x_code y_code z_code x_ih y_ih z_ih => simpa using x_ih.andThen (y_ih.andThen z_ih)
  | constant declaration storage initialized inlined ih => exact ih
  | «variable» n declaration storage load =>
      simpa [definedLabels_variableLoad load] using Spread.nil n
  | functionRef n named => simpa using Spread.nil n
  | neg operand_code ih => simpa using ih
  | not operand_code ih => simpa using ih
  | @shortCircuit info op left right n middle m first second short left_code right_code left_ih
      right_ih =>
      have hMarked := marked_chainEnd op n
      have hLocal : isLocal (chainEnd op n) = true := by
        unfold chainEnd
        split <;> exact isLocal_append rfl _
      have hBoth := (left_ih.andThen right_ih).append (Spread.single hMarked hLocal m)
        (by simp [hMarked.number])
      simpa using hBoth.close (by simpa using hMarked) (List.nodup_singleton _)
  | binary long chosen left_code right_code left_ih right_ih => simpa using left_ih.andThen right_ih
  | memberWord single placed base_code ih => simpa using ih
  | memberWords several placed base_code ih => simpa using ih
  | indexWord single position_code array_code position_ih array_ih =>
      simpa using position_ih.andThen array_ih
  | indexWords several position_code array_code position_ih array_ih =>
      simpa using position_ih.andThen array_ih
  | call declared typed count arguments_code ih => simpa using ih
  | callNative declared count arguments_code call_eq ih =>
      simpa [definedLabels_cons, nativeCall_unlabelled call_eq] using ih
  | callThrough typed count arguments_code target_code arguments_ih target_ih =>
      simpa using arguments_ih.andThen target_ih
  | convert operand_code change_eq ih => simpa [definedLabels_conversion change_eq] using ih
  | chain same left_code right_code left_ih right_ih => simpa using left_ih.andThen right_ih
  | operand other value_code ih => exact ih
  | stored kept base_code ih => exact ih
  | spilled unkept room base_code ih => simpa [definedLabels_spillCode] using ih
  | storedMember placed base_code ih => simpa using ih
  | storedIndex position_code array_code position_ih array_ih =>
      simpa using position_ih.andThen array_ih
  | storedVariable n address => simpa [definedLabels_variableAddress address] using Spread.nil n
  | placeMember placed base_code ih => simpa using ih
  | placeIndex position_code array_code position_ih array_ih =>
      simpa using position_ih.andThen array_ih
  | placeVariable n address => simpa [definedLabels_variableAddress address] using Spread.nil n
  | noArguments parameters n => exact .nil n
  | byAddress passes first_code rest_code first_ih rest_ih => simpa using first_ih.andThen rest_ih
  | byValue passes first_code rest_code first_ih rest_ih => simpa using first_ih.andThen rest_ih

end Expressions

section Statements

variable {environment : Environment}

/-- Storing a value defines labels of its own numbers only, each of them once. -/
theorem Stores.spread {target : Expr} {n m : Nat} {code : Code}
    (h : Stores environment target n code m) : Spread [] [] n m (definedLabels code) := by
  cases h with
  | words several place => simpa using place.spread
  | «variable» n single stored => simpa [definedLabels_variableStore stored] using Spread.nil n
  | member single placed place => simpa using place.spread
  | index single position_code place => simpa using position_code.spread.andThen place.spread

/-- An assignment defines labels of its own numbers only, each of them once. -/
theorem Assigns.spread {target source : Expr} {op : Option BinaryOp} {n m : Nat} {code : Code}
    (h : Assigns environment target op source n code m) :
    Spread [] [] n m (definedLabels code) := by
  cases h with
  | text fills chosen source_code target_code =>
      simpa using source_code.spread.andThen target_code.spread
  | value other source_code stores => simpa using source_code.spread.andThen stores.spread

theorem Declares.spread {id n m : Nat} {code : Code} (h : Declares environment id n code m) :
    Spread [] [] n m (definedLabels code) := by
  cases h with
  | reference declaration placed isRef initialized target_code => simpa using target_code.spread
  | initialized declaration isValue initialized assigns => exact assigns.spread
  | defaults n declaration placed isValue uninitialized words_eq =>
      simpa [definedLabels_storeDefaults] using Spread.nil n

/-- The labels that a part has from the construct around it: those between the
arms of a branch, and those of the cases of a selection. -/
def Part.own : Part → List String
  | .arms number _ _ position branches =>
    (List.range' position (branches.length - 1)).map (armLabel number)
  | .cases labels _ => labels
  | _ => []

/-- The labels from the construct around a part have a number below a bound. -/
def Part.Below (bound : Nat) : Part → Prop
  | .arms number .. => number < bound
  | .cases labels choices => labels.length = choices.length ∧
    ∃ number < bound, ∀ label ∈ labels, Marked number label ∧ isLocal label = true
  | _ => True

theorem armsLabels_cons (number position : Nat) {α : Type} (rest : List α) :
    (if rest.isEmpty then [] else [armLabel number position]) ++
        (List.range' (position + 1) (rest.length - 1)).map (armLabel number) =
      (List.range' position rest.length).map (armLabel number) := by
  cases rest with
  | nil => rfl
  | cons first others => simp [List.range'_succ]

theorem marked_armLabels (number position count : Nat) :
    ∀ label ∈ (List.range' position count).map (armLabel number), Marked number label := by
  intro label hLabel
  obtain ⟨found, _, rfl⟩ := List.mem_map.mp hLabel
  exact marked_armLabel number found

/-- The labels of arms are different from each other. -/
theorem nodup_armLabels (number position count : Nat) :
    ((List.range' position count).map (armLabel number)).Nodup :=
  List.Nodup.map (fun _ _ => armLabel_injective) List.nodup_range'

theorem not_mem_armLabels {number : Nat} {label : String}
    (h : ∀ position, label ≠ armLabel number position)
    {position count : Nat} : label ∉ (List.range' position count).map (armLabel number) := by
  intro hLabel
  obtain ⟨found, _, hSame⟩ := List.mem_map.mp hLabel
  exact h found hSame.symm

theorem isLocal_numbered {stem : String} (number : Nat) (h : isLocal stem = true) :
    isLocal (numbered stem number) = true :=
  isLocal_append h _

theorem isLocal_caseLabel (number position : Nat) (value : Option Int32) :
    isLocal (caseLabel number position value) = true := by
  cases value with
  | none => exact isLocal_append (isLocal_numbered number rfl) _
  | some found => exact isLocal_append (isLocal_append (isLocal_numbered number rfl) _) _

theorem isLocal_armLabel (number position : Nat) : isLocal (armLabel number position) = true :=
  isLocal_append (isLocal_append (isLocal_numbered number rfl) _) _

/-- Behind the body of an arm stands the label of the next arm. -/
theorem spread_armEnd (number : Nat) (finish last : String) (position : Nat)
    (rest : List (Expr × List Stmt)) (low : Nat) :
    Spread [] (if rest.isEmpty then [] else [armLabel number position]) low low
      (definedLabels (armEnd number finish last position rest)) := by
  have hSkip : definedLabels (if nextArm number last position rest = finish then []
      else [naming "J" finish]) = [] := by
    split <;> simp
  rw [armEnd, definedLabels_append, hSkip, List.nil_append]
  split
  · exact .nil low
  · next hRest =>
      simpa [nextArm, hRest] using
        Spread.single (marked_armLabel number position) (isLocal_armLabel number position) low

/-- The labels of the cases of a selection with one default are different. -/
theorem nodup_caseLabels (number : Nat) {values : List (Option Int32)}
    (h : values.count none ≤ 1) : (caseLabels number values).Nodup := by
  rw [caseLabels_eq]
  generalize 0 = position
  induction values generalizing position with
  | nil => exact List.nodup_nil
  | cons value rest ih =>
      rw [caseLabelsFrom_cons]
      refine List.nodup_cons.mpr ⟨fun hMem => ?_, ih (Nat.le_trans (List.count_le_count_cons) h) _⟩
      obtain ⟨index, hIndex, hLabel⟩ := List.mem_mapIdx.mp hMem
      refine @caseLabel_ne number position (position + 1 + index) value rest[index] ?_ (by omega)
        hLabel.symm
      rw [or_iff_not_imp_left, Decidable.not_not]
      rintro rfl hNone
      have hCount : 0 < rest.count none :=
        List.count_pos_iff.mpr (hNone ▸ List.getElem_mem hIndex)
      rw [List.count_cons_self] at h
      omega

/-- The labels in code of a body: those of the program in the order of the body,
and made up ones without repetition. -/
theorem Generates.spread {targets : Targets} {part : Part} {n m : Nat} {code : Code}
    (h : Generates environment targets part n code m) (hBelow : part.Below n)
    (hDefaults : ∀ s ∈ part.parts, s.hasOneDefault = true) :
    Spread (labelNames part.parts) part.own n m (definedLabels code) := by
  induction h with
  | declare declares => exact declares.spread
  | assign assigns => exact assigns.spread
  | @branch targets arms otherwise n middle m tested rest arms_code otherwise_code arms_ih
      otherwise_ih =>
      have hParts : ∀ s ∈ Stmt.armsParts arms ++ Stmt.blockParts otherwise,
          s.hasOneDefault = true :=
        fun s hs => hDefaults s (List.mem_cons_of_mem _ hs)
      rw [List.forall_mem_append] at hParts
      change Spread (labelNames (Stmt.armsParts arms ++ Stmt.blockParts otherwise)) [] _ _ _
      have hElse : Marked n (numbered ".else_" n) := marked_numbered n rfl
      have hFinish : Marked n (numbered ".endif_" n) := marked_numbered n rfl
      have hOwn := marked_armLabels n 1 (arms.length - 1)
      have hLow : ∀ label ∈ (List.range' 1 (arms.length - 1)).map (armLabel n),
          labelNumber label < n + 1 := fun label hLabel => by simp [(hOwn label hLabel).number]
      have hArms := arms_ih (Nat.lt_succ_self n) hParts.1
      have hEnd := Spread.single hFinish (isLocal_numbered n rfl) m
      split
      · next hEmpty =>
          rw [List.isEmpty_iff] at hEmpty
          subst hEmpty
          cases otherwise_code
          have hAll :=
            hArms.append hEnd (List.forall_mem_append.mpr ⟨hLow, by simp [hFinish.number]⟩)
          have hNodup : ((List.range' 1 (arms.length - 1)).map (armLabel n) ++
              [numbered ".endif_" n]).Nodup := by
            refine (nodup_armLabels ..).append (List.nodup_singleton _)
              fun label hLabel hOther => ?_
            rw [List.mem_singleton.mp hOther] at hLabel
            exact not_mem_armLabels (endif_ne_armLabel n) hLabel
          simpa [Part.parts, Stmt.blockParts] using hAll.close
            (List.forall_mem_append.mpr ⟨hOwn, by simpa using hFinish⟩) hNodup
      · have hMark := Spread.single hElse (isLocal_numbered n rfl) middle
        have hTested := hArms.append hMark
          (List.forall_mem_append.mpr ⟨hLow, by simp [hElse.number]⟩)
        have hRest := hTested.append (otherwise_ih trivial hParts.2)
          (List.forall_mem_append.mpr ⟨List.forall_mem_append.mpr ⟨hLow, by simp [hElse.number]⟩,
            by simp [Part.own]⟩)
        have hAll := hRest.append hEnd (by
          simpa [Part.own, or_imp, forall_and, hElse.number, hFinish.number] using hLow)
        have hNodup : ((List.range' 1 (arms.length - 1)).map (armLabel n) ++
            [numbered ".else_" n, numbered ".endif_" n]).Nodup := by
          refine (nodup_armLabels ..).append (by simpa using numbered_ne n (by decide))
            fun label hLabel hOther => ?_
          rcases List.mem_pair.mp hOther with rfl | rfl
          · exact not_mem_armLabels (else_ne_armLabel n) hLabel
          · exact not_mem_armLabels (endif_ne_armLabel n) hLabel
        simpa [Part.parts] using hAll.close
          (by simpa [Part.own, or_imp, forall_and, hElse, hFinish] using hOwn)
          (by simpa [Part.own] using hNodup)
  | @loop targets condition body n middle m test code condition_code body_code body_ih =>
      have hParts : ∀ s ∈ Stmt.blockParts body, s.hasOneDefault = true :=
        fun s hs => hDefaults s (List.mem_cons_of_mem _ hs)
      change Spread (labelNames (Stmt.blockParts body)) [] _ _ _
      have hStart : Marked n (numbered ".while_" n) := marked_numbered n rfl
      have hFinish : Marked n (numbered ".endwhile_" n) := marked_numbered n rfl
      have hTest := (Spread.single hStart (isLocal_numbered n rfl) (n + 1)).append
        condition_code.spread (by simp [hStart.number])
      have hBody := hTest.append (body_ih trivial hParts) (by simp [Part.own, hStart.number])
      have hAll := hBody.append (Spread.single hFinish (isLocal_numbered n rfl) m)
        (by simp [Part.own, hStart.number, hFinish.number])
      simpa [Part.parts] using hAll.close (by simp [Part.own, hStart, hFinish])
        (by simpa [Part.own] using numbered_ne n (by decide))
  | @countUp targets limit counter body n n₁ n₂ n₃ n₄ m reset count bound code advance reset_code
      counter_code limit_code body_code advance_code body_ih =>
      have hParts : ∀ s ∈ Stmt.blockParts body, s.hasOneDefault = true :=
        fun s hs => hDefaults s (List.mem_cons_of_mem _ hs)
      change Spread (labelNames (Stmt.blockParts body)) [] _ _ _
      have hStart : Marked n (numbered ".repeat_" n) := marked_numbered n rfl
      have hStep : Marked n (numbered ".repeat_continue_" n) := marked_numbered n rfl
      have hFinish : Marked n (numbered ".endrepeat_" n) := marked_numbered n rfl
      have hReset := reset_code.spread.append (Spread.single hStart (isLocal_numbered n rfl) n₁)
        (by simp [hStart.number])
      have hTest := hReset.append (counter_code.spread.andThen limit_code.spread)
        (by simp [hStart.number])
      have hBody := hTest.append (body_ih trivial hParts) (by simp [Part.own, hStart.number])
      have hMark := hBody.append (Spread.single hStep (isLocal_numbered n rfl) n₄)
        (by simp [Part.own, hStart.number, hStep.number])
      have hAdvance := hMark.append advance_code.spread
        (by simp [Part.own, hStart.number, hStep.number])
      have hAll := hAdvance.append (Spread.single hFinish (isLocal_numbered n rfl) m)
        (by simp [Part.own, hStart.number, hStep.number, hFinish.number])
      have hNodup : [numbered ".repeat_" n, numbered ".repeat_continue_" n,
          numbered ".endrepeat_" n].Nodup := by
        simp [numbered_ne n (show ".repeat_" ≠ ".repeat_continue_" by decide),
          numbered_ne n (show ".repeat_" ≠ ".endrepeat_" by decide),
          numbered_ne n (show ".repeat_continue_" ≠ ".endrepeat_" by decide)]
      simpa [Part.parts] using hAll.close (by simp [Part.own, hStart, hStep, hFinish])
        (by simpa [Part.own] using hNodup)
  | @select targets scrutinee cases n middle m code bodies scrutinee_code cases_code cases_ih =>
      have hParts : ∀ s ∈ Stmt.casesParts cases, s.hasOneDefault = true :=
        fun s hs => hDefaults s (List.mem_cons_of_mem _ hs)
      have hOne : (cases.map Prod.fst).count none ≤ 1 := by
        simpa [Stmt.hasOneDefault] using hDefaults _ (List.mem_cons_self ..)
      change Spread (labelNames (Stmt.casesParts cases)) [] _ _ _
      have hFinish : Marked n (numbered ".endswitch_" n) := marked_numbered n rfl
      have hOwn : ∀ label ∈ caseLabels n (cases.map Prod.fst),
          Marked n label ∧ isLocal label = true := by
        intro label hLabel
        obtain ⟨position, _, rfl⟩ := List.mem_mapIdx.mp hLabel
        exact ⟨marked_caseLabel .., isLocal_caseLabel ..⟩
      have hNumber := scrutinee_code.spread.le
      have hBodies := cases_ih ⟨by simp [caseLabels], n, hNumber, hOwn⟩ hParts
      have hCases := scrutinee_code.spread.append hBodies
        fun label hLabel => by simp [(hOwn label hLabel).1.number]
      have hAll := hCases.append (Spread.single hFinish (isLocal_numbered n rfl) m)
        (List.forall_mem_append.mpr ⟨fun label hLabel => by simp [(hOwn label hLabel).1.number],
          by simp [hFinish.number]⟩)
      have hNodup : (caseLabels n (cases.map Prod.fst) ++ [numbered ".endswitch_" n]).Nodup := by
        refine List.nodup_append.mpr ⟨nodup_caseLabels n hOne, by simp,
          fun label hLabel other hOther => ?_⟩
        obtain ⟨position, _, rfl⟩ := List.mem_mapIdx.mp hLabel
        rw [List.mem_singleton.mp hOther]
        exact (endswitch_ne_caseLabel n position _).symm
      have hDefined : definedLabels
          (selection (cases.map Prod.fst) (caseLabels n (cases.map Prod.fst))
          (numbered ".endswitch_" n)) = [] := rfl
      simpa [Part.parts, hDefined] using hAll.close
        (List.forall_mem_append.mpr ⟨fun label hLabel =>
          (hOwn label hLabel).1, by simpa using hFinish⟩)
        hNodup
  | breakOut n target =>
      change Spread [] [] _ _ _
      simpa using Spread.nil n
  | continueLoop n target =>
      change Spread [] [] _ _ _
      simpa using Spread.nil n
  | goto targets name n =>
      change Spread [] [] _ _ _
      simpa using Spread.nil n
  | label targets name n =>
      change Spread [name] [] _ _ _
      simpa using Spread.user name n
  | ret targets n =>
      change Spread [] [] _ _ _
      simpa [leave] using Spread.nil n
  | retValue value_code =>
      change Spread [] [] _ _ _
      simpa [leave] using value_code.spread
  | evaluate value_code =>
      change Spread [] [] _ _ _
      simpa using value_code.spread
  | nil targets n => exact .nil n
  | @cons targets first rest n middle m code others first_code rest_code first_ih rest_ih =>
      change Spread (labelNames (first.parts ++ Stmt.blockParts rest)) [] _ _ _
      have hParts := List.forall_mem_append.mp hDefaults
      simpa [Part.parts] using (first_ih trivial hParts.1).andThen (rest_ih trivial hParts.2)
  | noArms targets number finish last position n => exact .nil n
  | @arm targets number position finish last condition body rest n n₁ n₂ m test code others
      condition_code body_code rest_code body_ih rest_ih =>
      have hParts := List.forall_mem_append.mp hDefaults
      change Spread (labelNames (Stmt.blockParts body ++ Stmt.armsParts rest))
        ((List.range' position rest.length).map (armLabel number)) _ _ _
      have hNumber : number < n := hBelow
      have hBody := condition_code.spread.andThen (body_ih trivial hParts.1)
      have hMark := spread_armEnd number finish last position rest n₂
      have hLow := hBody.le
      have hOthers := rest_ih (Nat.lt_of_lt_of_le hNumber hLow) hParts.2
      have hOwn := marked_armLabels number position rest.length
      rw [← armsLabels_cons, List.forall_mem_append] at hOwn
      have hAll := (hBody.append hMark fun label hLabel =>
        (hOwn.1 label hLabel).number ▸ hNumber).append hOthers fun label hLabel => ?_
      · rw [← armsLabels_cons]
        simpa [Part.parts, Part.own] using hAll
      · rcases List.mem_append.mp hLabel with hFirst | hRest
        · exact (hOwn.1 label hFirst).number ▸ hNumber
        · exact (hOwn.2 label hRest).number ▸ hNumber
  | noCases targets labels n =>
      rw [Part.own, List.length_eq_zero_iff.mp hBelow.1]
      exact .nil n
  | @case targets labels value body rest n middle m code others body_code rest_code
        body_ih rest_ih =>
      have hParts := List.forall_mem_append.mp hDefaults
      change Spread (labelNames (Stmt.blockParts body ++ Stmt.casesParts rest)) labels _ _ _
      obtain ⟨hLength, number, hNumber, hOwn⟩ := hBelow
      cases labels with
      | nil => cases hLength
      | cons label later =>
          rw [List.forall_mem_cons] at hOwn
          have hBody := (Spread.single hOwn.1.1 hOwn.1.2 n).append (body_ih trivial hParts.1)
            (by simpa [Part.own, hOwn.1.1.number] using hNumber)
          have hLow := hBody.le
          have hOthers := rest_ih ⟨Nat.succ.inj hLength, number, Nat.lt_of_lt_of_le hNumber hLow,
            hOwn.2⟩ hParts.2
          have hAll := hBody.append hOthers fun other hOther => ?_
          · simpa [Part.parts, Part.own] using hAll
          · rcases List.mem_append.mp hOther with hFirst | hRest
            · obtain rfl : other = label := by simpa [Part.own] using hFirst
              exact hOwn.1.1.number ▸ hNumber
            · exact (hOwn.2 other hRest).1.number ▸ hNumber

end Statements
end ScriptBackend.Lowering
