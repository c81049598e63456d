import ScriptBackend.Proofs.Lowering.BalancedExpressions

/-!
The code of a statement leaves the stack as it was, and at every label of a body
the stack has one shape.
-/
namespace ScriptBackend.Lowering

open ScriptBackend.Assembly

/-! Sized statements -/

/-- Assignments of values as large as their targets. -/
inductive SizedAssignment (setting : Setting) (target : Expr)
    (op : Option BinaryOp) (source : Expr) : Prop where
  | text (fills : fillsTextLabel target.ty source.ty = true) (target_sized : Sized setting target)
      (source_sized : Sized setting source) : SizedAssignment setting target op source
  | value (other : fillsTextLabel target.ty source.ty = false) (target_sized : Sized setting target)
      (small : setting.sizes.of target.ty < wordLimit)
      (value_sized : Sized setting (assignedValue target op source))
      (size_eq : setting.sizes.of (assignedValue target op source).ty =
        setting.sizes.of target.ty) :
      SizedAssignment setting target op source

/-- Declarations with initializers as large as their variables. -/
structure SizedDeclaration (setting : Setting) (id : Nat) : Prop where
  reference : ∀ declared target, setting.declaration id = .ok declared → declared.ty.isRef = true →
    declared.initializer = some target → Sized setting target
  initialized : ∀ declared e, setting.declaration id = .ok declared → declared.ty.isRef = false →
    declared.initializer = some e →
    SizedAssignment setting (.ofVariable setting.program id) none e

/-- Conditions, counters, limits and other expressions whose value is a single
word. -/
structure SizedWord (setting : Setting) (e : Expr) : Prop where
  sized : Sized setting e
  one : setting.sizes.of e.ty = 1

/-- Statements whose values are as large as the statements take them to be. -/
inductive SizedStatement (environment : Environment) : Stmt → Prop where
  | declare {id : Nat} (declaration : SizedDeclaration environment.toSetting id) :
      SizedStatement environment (.declare id)
  | assign {target source : Expr} {op : Option BinaryOp}
      (assignment : SizedAssignment environment.toSetting target op source) :
      SizedStatement environment (.assign target op source)
  | branch {arms : List (Expr × List Stmt)} {otherwise : List Stmt}
      (conditions : ∀ arm ∈ arms, SizedWord environment.toSetting arm.1)
      (bodies : ∀ arm ∈ arms, ∀ s ∈ arm.2, SizedStatement environment s)
      (rest : ∀ s ∈ otherwise, SizedStatement environment s) :
      SizedStatement environment (.branch arms otherwise)
  | loop {condition : Expr} {body : List Stmt} (test : SizedWord environment.toSetting condition)
      (inner : ∀ s ∈ body, SizedStatement environment s) :
      SizedStatement environment (.loop condition body)
  | countUp {limit counter : Expr} {body : List Stmt}
      (bound : SizedWord environment.toSetting limit)
      (count : SizedWord environment.toSetting counter)
      (inner : ∀ s ∈ body, SizedStatement environment s) :
      SizedStatement environment (.countUp limit counter body)
  | select {scrutinee : Expr} {cases : List (Option Int32 × List Stmt)}
      (chosen : SizedWord environment.toSetting scrutinee)
      (bodies : ∀ choice ∈ cases, ∀ s ∈ choice.2, SizedStatement environment s) :
      SizedStatement environment (.select scrutinee cases)
  | breakOut : SizedStatement environment .breakOut
  | continueLoop : SizedStatement environment .continueLoop
  | goto (name : String) : SizedStatement environment (.goto name)
  | label (name : String) : SizedStatement environment (.label name)
  | ret (nothing : environment.frame.resultWords = 0) : SizedStatement environment (.ret none)
  | retValue {e : Expr} (sized : Sized environment.toSetting e)
      (small : environment.frame.resultWords < wordLimit)
      (size_eq : environment.sizes.of e.ty = environment.frame.resultWords) :
      SizedStatement environment (.ret (some e))
  | evaluate {e : Expr} (sized : Sized environment.toSetting e) :
      SizedStatement environment (.evaluate e)

section Assignments

variable {environment : Environment} {base shape : Shape} {promised : LabelShapes} {n m : Nat}
  {code : Code}

/-- Storing takes the words of the value from the stack and leaves what is below. -/
theorem Stores.keeps {target : Expr} (h : Stores environment target n code m)
    (hSized : Sized environment.toSetting target)
    (hSmall : environment.sizes.of target.ty < wordLimit) :
    Keeps environment.toSetting base promised code
      (unknown (environment.sizes.of target.ty) ++ shape) shape := by
  cases h with
  | words several place =>
      exact ((keeps_pushCount _).append (place.keeps_place hSized _)).append
        (keeps_storeMany hSmall none)
  | @«variable» info id n code single stored =>
      have hOne : environment.sizes.of (Expr.var info id).ty = 1 := single
      rw [hOne]
      exact keeps_variableStore stored
  | @member info base field offset n m code single placed place =>
      cases hSized with
      | member small base_sized base_small =>
          have hOne : environment.sizes.of (Expr.member info base field).ty = 1 := single
          have hTraffic : hasTraffic "IOFFSET_CONST_STORE" 2 0 = true := by decide
          rw [hOne]
          exact (place.keeps_place base_sized _).append
            (keeps_counted hTraffic offset [none, none] rfl)
  | @index info array position n middle m index code single position_code place =>
      cases hSized with
      | index small array_sized array_small position_sized position_one =>
          have hOne : environment.sizes.of (Expr.index info array position).ty = 1 := single
          have hTraffic : hasTraffic "ARRAY_STORE" 3 0 = true := by decide
          rw [hOne]
          exact ((position_code.keeps_word position_sized position_one _).append
            (place.keeps_place array_sized _)).append
              (keeps_counted hTraffic 1 [none, none, none] rfl)

theorem one_of_textLabelMnemonic? {op : Option BinaryOp} {source : Ty} {mnemonic : String}
    (h : textLabelMnemonic? op source = some mnemonic) (sizes : Sizes) : sizes.of source = 1 := by
  unfold textLabelMnemonic? at h
  split at h <;> first | rfl | cases h

theorem keeps_textLabel {op : Option BinaryOp} {source : Ty} {mnemonic : String}
    (h : textLabelMnemonic? op source = some mnemonic) (size : Nat) :
    Keeps environment.toSetting base promised [counted mnemonic [size]]
      (none :: none :: shape) shape := by
  have hKeeps : ∀ opcode : Opcode, opcode.traffic? = some (2, 0) →
      transfer (counted opcode.mnemonic [size]) = .pass →
      isQuiet (counted opcode.mnemonic [size]) = true →
      Keeps environment.toSetting base promised [counted opcode.mnemonic [size]]
        (none :: none :: shape) shape := fun opcode hTraffic hTransfer hQuiet =>
    keeps_exchange hQuiet hTransfer
      ((effect_primitive opcode _).trans (opcodeEffect_of_traffic hTraffic _)) [none, none] rfl
  unfold textLabelMnemonic? at h
  split at h
  · cases h
    exact hKeeps .textLabelAssignString rfl rfl rfl
  · cases h
    exact hKeeps .textLabelAssignInt rfl rfl rfl
  · cases h
    exact hKeeps .textLabelAppendString rfl rfl rfl
  · cases h
    exact hKeeps .textLabelAppendInt rfl rfl rfl
  · cases h

/-- An assignment leaves the stack as it found it. -/
theorem Assigns.keeps {target source : Expr} {op : Option BinaryOp}
    (h : Assigns environment target op source n code m)
    (hSized : SizedAssignment environment.toSetting target op source) :
    Keeps environment.toSetting base promised code shape shape := by
  cases h with
  | text fills chosen source_code target_code =>
      have hSource : Sized environment.toSetting source ∧ Sized environment.toSetting target := by
        cases hSized with
        | text _ target_sized source_sized => exact ⟨source_sized, target_sized⟩
        | value other => rw [fills] at other; cases other
      have hOne := one_of_textLabelMnemonic? chosen environment.sizes
      exact ((source_code.keeps_word hSource.1 hOne shape).append
        (target_code.keeps_place hSource.2 _)).append (keeps_textLabel chosen _)
  | value other source_code stores =>
      cases hSized with
      | text fills => rw [fills] at other; cases other
      | value _ target_sized small value_sized size_eq =>
          have hValue : Keeps environment.toSetting base promised _ shape
              (unknown (environment.sizes.of (assignedValue target op source).ty) ++ shape) :=
            source_code.keeps_value value_sized shape
          rw [size_eq] at hValue
          exact hValue.append (stores.keeps target_sized small)

/-! Defaults of locals -/

/-- Words are stored one by one below an address that stays on top. -/
theorem keeps_storeWords (words : List Datum) (offset : Nat) :
    Keeps environment.toSetting base promised (storeWords offset words) (none :: shape)
      (none :: shape) := by
  induction words generalizing offset with
  | nil => exact .nil _
  | cons word rest ih =>
      unfold storeWords
      split
      · exact ih (offset + 1)
      · have hDup : Keeps environment.toSetting base promised [plain "DUP"] (none :: shape)
            (none :: none :: shape) := keeps_plain .dup rfl rfl [none] rfl
        have hStore : Keeps environment.toSetting base promised [plain "STORE_REV"]
            (none :: none :: none :: shape) (none :: none :: shape) :=
          keeps_plain .storeRev rfl rfl [none, none] rfl
        have hDrop : Keeps environment.toSetting base promised [plain "DROP"]
            (none :: none :: shape) (none :: shape) := keeps_plain .drop rfl rfl [none] rfl
        have hWord := ((hDup.append (keeps_atOffset offset)).append (keeps_pushData [word])).append
          (hStore.append hDrop)
        exact hWord.append (ih (offset + 1))

/-- Default words are stored to a local without a trace on the stack. -/
theorem keeps_storeDefaults (name : String) (slot : Slot) (words : List Datum) :
    Keeps environment.toSetting base promised (storeDefaults name slot words) shape shape := by
  unfold storeDefaults
  split
  · exact .nil _
  · have hLocal : Keeps environment.toSetting base promised [counted "LOCAL" [slot.index]] shape
        (none :: shape) := keeps_counted (hasTraffic_mnemonic .locals) slot.index [] rfl
    have hDrop : Keeps environment.toSetting base promised [plain "DROP"] (none :: shape) shape :=
      keeps_plain .drop rfl rfl [none] rfl
    exact ((hLocal.commented _).append (keeps_storeWords words 0)).append hDrop

/-- The declaration of a local leaves the stack as it found it. -/
theorem Declares.keeps {id : Nat} (h : Declares environment id n code m)
    (hSized : SizedDeclaration environment.toSetting id) :
    Keeps environment.toSetting base promised code shape shape := by
  cases h with
  | reference declaration placed isRef initialized target_code =>
      have hTarget := hSized.reference _ _ declaration isRef initialized
      exact (target_code.keeps_place hTarget shape).append
        (keeps_counted (hasTraffic_store .locals) _ [none] rfl)
  | initialized declaration isValue initialized assigns =>
      exact assigns.keeps (hSized.initialized _ _ declaration isValue initialized)
  | defaults n declaration placed isValue uninitialized words_eq => exact keeps_storeDefaults _ _ _

end Assignments
/-! Bodies -/

/-- Parts of bodies with sized statements. -/
def Part.IsSized (environment : Environment) : Part → Prop
  | .statement s => SizedStatement environment s
  | .block statements => ∀ s ∈ statements, SizedStatement environment s
  | .arms _ _ _ _ branches => ∀ arm ∈ branches,
      SizedWord environment.toSetting arm.1 ∧ ∀ s ∈ arm.2, SizedStatement environment s
  | .cases labels choices => labels.length = choices.length ∧
      ∀ choice ∈ choices, ∀ s ∈ choice.2, SizedStatement environment s

/-- The labels that a part may jump to without defining them: those of the
constructs around it and those of the program. -/
def Part.jumps (targets : Targets) (part : Part) : List String :=
  part.exits targets ++ (gotoNames part.parts).map userLabel

def labelsAt (base : Shape) (labels : List String) : LabelShapes :=
  labels.map fun label => (label, base)

/-- The labels that the surroundings of a part may jump to. -/
def Part.labelShapes (base : Shape) : Part → LabelShapes
  | .cases labels _ => labelsAt base labels
  | _ => []

section Bodies

variable {environment : Environment} {base : Shape} {promised : LabelShapes}

/-- A part inside another may jump to the labels of the construct around it
besides. -/
theorem promised_inside {own inner outer : List String}
    (h : ∀ label ∈ outer, (label, base) ∈ promised) (hInner : inner ⊆ own ++ outer) :
    ∀ label ∈ inner, (label, base) ∈ labelsAt base own ++ promised := by
  intro label hLabel
  rcases List.mem_append.mp (hInner hLabel) with hOwn | hOuter
  · exact List.mem_append_left _ (List.mem_map_of_mem hOwn)
  · exact List.mem_append_right _ (h label hOuter)

/-- A label of a statement stands where the stack is as at the beginning. -/
theorem balanced_label (label : String) :
    Balanced (ShapedLine.Fits environment.toSetting base) promised [(label, base)]
      [.ofLabel label] base base :=
  .label (fits_label fun _ => rfl)

def armLabels (base : Shape) (number : Nat) (last : String) (position : Nat)
    (rest : List (Expr × List Stmt)) : LabelShapes :=
  if rest.isEmpty then [] else [(nextArm number last position rest, base)]

/-- An arm ends with a jump behind the branch, and the label that a failed
condition leads to follows. -/
theorem balanced_armEnd (number : Nat) {finish : String} (last : String) (position : Nat)
    (rest : List (Expr × List Stmt)) (h : (finish, base) ∈ promised) :
    Balanced (ShapedLine.Fits environment.toSetting base) promised
      (armLabels base number last position rest)
      (armEnd number finish last position rest) base base := by
  have hSkip : Keeps environment.toSetting base promised
      (if nextArm number last position rest = finish then []
        else [naming "J" finish]) base base := by
    split
    · exact .nil _
    · exact keeps_jump h
  unfold armEnd armLabels
  split
  · exact hSkip.append (.nil _)
  · exact hSkip.append (balanced_label _)

/-- A selection takes the selected word and jumps to a case, or behind all of
them. -/
theorem keeps_selection {values : List (Option Int32)} {labels : List String} {finish : String}
    (hLabels : ∀ label ∈ labels, (label, base) ∈ promised) (hFinish : (finish, base) ∈ promised) :
    Keeps environment.toSetting base promised (selection values labels finish)
      (none :: base) base := by
  have hTurns : Effect.Turns (.exchange 1 0) ([none] ++ base) (unknown 0 ++ base) :=
    .exchange base rfl
  have hSwitch : ∀ entries : List Operand,
      (∀ value label, .case value label ∈ entries → (label, base) ∈ promised) →
      Keeps environment.toSetting base promised [.ofInstruction "SWITCH" entries]
        (none :: base) base :=
    fun entries h => .single _ default (fits_of_isQuiet rfl _ _)
      ⟨_, _, effect_primitive .switch _, hTurns, rfl, h⟩
  unfold selection
  refine (hSwitch _ fun value label hCase => ?_).append (keeps_jump ?_)
  · obtain ⟨⟨found, other⟩, hPair, hEntry⟩ := List.mem_filterMap.mp hCase
    obtain ⟨number, _, hSame⟩ := Option.map_eq_some_iff.mp hEntry
    cases hSame
    exact hLabels _ (List.of_mem_zip hPair).2
  · generalize hFound : List.find? _ (values.zip labels) = found
    cases found with
    | none => exact hFinish
    | some pair =>
        obtain ⟨value, label⟩ := pair
        exact hLabels label (List.of_mem_zip (List.mem_of_find?_eq_some hFound)).2

/-- A function is left with the words of its result, and control does not come
behind the instruction. -/
theorem keeps_leave {frame : Frame} (hSmall : frame.resultWords < wordLimit) :
    Keeps environment.toSetting base promised [leave frame]
      (unknown frame.resultWords ++ base) base := by
  have hEffect : effect? default (leave frame) = some (.exchange frame.resultWords 0) := by
    refine (effect_primitive .leave _).trans ?_
    have hCount := counts_ofNat (Nat.lt_trans hSmall (by decide))
    simp only [List.map_cons, List.map_nil, opcodeEffect?, hCount]
  have hFits : ShapedLine.Fits environment.toSetting base
      ⟨leave frame, unknown frame.resultWords ++ base, default⟩ :=
    { call := fun name hCall => by simp [leave, counted, Statement.ofInstruction] at hCall
      callThrough := fun hThrough => by simp [leave, counted, Statement.ofInstruction] at hThrough
      leave := fun _ => ⟨_, hEffect, by simp [unknown]⟩
      label := fun label hLabel => by cases hLabel }
  exact .single _ default hFits ⟨_, _, hEffect, .exchange base List.length_replicate, trivial⟩

/-- A counter of a single word can be reset and advanced. -/
theorem sizedAssignments_of_counter {counter : Expr} (h : SizedWord environment.toSetting counter) :
    SizedAssignment environment.toSetting counter none (.ofInt 0) ∧
      SizedAssignment environment.toSetting counter (some .add) (.ofInt 1) := by
  have hLiteral : ∀ number, Sized environment.toSetting (.ofInt number) := fun number => .int rfl
  have hSmall : environment.sizes.of counter.ty < wordLimit := by
    rw [h.one]
    decide
  have hCounter := ne_vector_of_one h.one
  have hInt : Ty.int ≠ .vector := by decide
  have hSum : Sized environment.toSetting (.combined .add counter (.ofInt 1)) := by
    refine .binary rfl ?_ h.sized (.inr h.one) (hLiteral 1) (.inr rfl)
    have hWords : (Family.ofOperands counter.ty (Expr.ofInt 1).ty).words = 1 :=
      Family.words_ofOperands hCounter hInt
    rw [if_neg (by decide), hWords]
    exact h.one
  cases hFills : fillsTextLabel counter.ty .int with
  | true => exact ⟨.text hFills h.sized (hLiteral 0), .text hFills h.sized (hLiteral 1)⟩
  | false =>
      exact ⟨.value hFills h.sized hSmall (hLiteral 0) h.one.symm,
        .value hFills h.sized hSmall hSum rfl⟩

/-! What the parts of a construct jump to: labels of the construct, or what the
construct jumps to. -/

theorem jumps_arms (targets : Targets) (arms : List (Expr × List Stmt)) (otherwise : List Stmt)
    (number : Nat) :
    Part.jumps targets (.arms number (numbered ".endif_" number)
      (afterArms number otherwise) 1 arms) ⊆
      [afterArms number otherwise, numbered ".endif_" number] ++
        Part.jumps targets (.statement (.branch arms otherwise)) := by
  grind [Part.jumps, Part.exits, Part.parts, Stmt.parts, gotoNames_cons,
    Stmt.gotoName?, gotoNames_append]

theorem jumps_otherwise (targets : Targets) (arms : List (Expr × List Stmt))
    (otherwise : List Stmt) :
    Part.jumps targets (.block otherwise) ⊆ Part.jumps targets
      (.statement (.branch arms otherwise)) := by
  grind [Part.jumps, Part.exits, Part.parts, Stmt.parts, gotoNames_cons,
    Stmt.gotoName?, gotoNames_append]

/-- The body of a loop may jump to the two ends of the loop and out of it. -/
theorem jumps_loop (targets : Targets) (condition : Expr) (body : List Stmt)
    (start finish : String) :
    Part.jumps ⟨some finish, some start⟩ (.block body) ⊆
      [start, finish] ++ Part.jumps targets (.statement (.loop condition body)) := by
  grind [Part.jumps, Part.exits, Part.parts, Stmt.parts, gotoNames_cons,
    Stmt.gotoName?, gotoNames_append]

/-- The body of a counted loop may jump to its step, to its ends and out of it. -/
theorem jumps_countUp (targets : Targets) (limit counter : Expr) (body : List Stmt)
    (start step finish : String) :
    Part.jumps ⟨some finish, some step⟩ (.block body) ⊆
      [start, step, finish] ++ Part.jumps targets (.statement (.countUp limit counter body)) := by
  grind [Part.jumps, Part.exits, Part.parts, Stmt.parts, gotoNames_cons,
    Stmt.gotoName?, gotoNames_append]

theorem jumps_select (targets : Targets) (scrutinee : Expr)
    (cases : List (Option Int32 × List Stmt)) (labels : List String) (finish : String) :
    Part.jumps { targets with break? := some finish } (.cases labels cases) ⊆
      (labels ++ [finish]) ++ Part.jumps targets (.statement (.select scrutinee cases)) := by
  grind [Part.jumps, Part.exits, Part.parts, Stmt.parts, gotoNames_cons,
    Stmt.gotoName?, gotoNames_append]

theorem jumps_block (targets : Targets) (first : Stmt) (rest : List Stmt) :
    Part.jumps targets (.statement first) ⊆ Part.jumps targets (.block (first :: rest)) ∧
      Part.jumps targets (.block rest) ⊆ Part.jumps targets (.block (first :: rest)) := by
  grind [Part.jumps, Part.exits, Part.parts, Stmt.blockParts, gotoNames_append]

theorem jumps_arm (targets : Targets) (number : Nat) (finish last : String) (position : Nat)
    (arm : Expr × List Stmt) (rest : List (Expr × List Stmt)) :
    Part.jumps targets (.block arm.2) ⊆ Part.jumps targets
      (.arms number finish last position (arm :: rest)) ∧
      Part.jumps targets (.arms number finish last (position + 1) rest) ⊆
        Part.jumps targets (.arms number finish last position (arm :: rest)) := by
  grind [Part.jumps, Part.exits, Part.parts, Stmt.armsParts, gotoNames_append]

theorem jumps_case (targets : Targets) (labels : List String) (choice : Option Int32 × List Stmt)
    (rest : List (Option Int32 × List Stmt)) :
    Part.jumps targets (.block choice.2) ⊆ Part.jumps targets (.cases labels (choice :: rest)) ∧
      Part.jumps targets (.cases labels.tail rest) ⊆ Part.jumps targets
        (.cases labels (choice :: rest)) := by
  grind [Part.jumps, Part.exits, Part.parts, Stmt.casesParts, gotoNames_append]

/-- The code of a part of a body leaves the stack as it was, and jumps only to
labels where the stack is the same. -/
theorem Generates.keeps {targets : Targets} {part : Part} {n m : Nat} {code : Code}
    (h : Generates environment targets part n code m) (hSized : part.IsSized environment)
    (hJumps : ∀ label ∈ part.jumps targets, (label, base) ∈ promised) :
    Balanced (ShapedLine.Fits environment.toSetting base) promised (part.labelShapes base)
      code base base := by
  induction h generalizing promised with
  | declare declares =>
      cases hSized with
      | declare declaration => exact declares.keeps declaration
  | assign assigns =>
      cases hSized with
      | assign assignment => exact assigns.keeps assignment
  | @branch targets arms otherwise n middle m tested rest arms_code otherwise_code arms_ih
      otherwise_ih =>
      cases hSized with
      | branch conditions bodies rest_sized =>
          have hArms : ∀ arm ∈ arms, SizedWord environment.toSetting arm.1 ∧
              ∀ s ∈ arm.2, SizedStatement environment s :=
            fun arm hArm => ⟨conditions arm hArm, bodies arm hArm⟩
          have hTested :=
            arms_ih hArms (promised_inside hJumps (jumps_arms targets arms otherwise n))
          cases otherwise with
          | nil =>
              have hNarrow : labelsAt base [afterArms n [], numbered ".endif_" n] ++ promised ⊆
                  labelsAt base [numbered ".endif_" n] ++ promised := by
                simp [labelsAt, afterArms]
              exact Balanced.close
                (((hTested.mono hNarrow).append (.nil _)).append (balanced_label _))
          | cons first others =>
              have hRest := otherwise_ih rest_sized fun label h => List.mem_append_right
                (labelsAt base [afterArms n (first :: others), numbered ".endif_" n])
                (hJumps label (jumps_otherwise targets arms (first :: others) h))
              exact Balanced.close
                ((hTested.append ((balanced_label _).append hRest)).append (balanced_label _))
  | @loop targets condition body n middle m test code condition_code body_code body_ih =>
      cases hSized with
      | loop condition_sized inner =>
          have hBody := body_ih inner (promised_inside hJumps (jumps_loop targets condition body
            (numbered ".while_" n) (numbered ".endwhile_" n)))
          exact Balanced.close ((((balanced_label _).append
            (condition_code.keeps_word condition_sized.sized condition_sized.one base)).append
              ((keeps_test (by simp [labelsAt]) none).append hBody)).append
                ((keeps_jump (by simp [labelsAt])).append (balanced_label _)))
  | @countUp targets limit counter body n n₁ n₂ n₃ n₄ m reset count bound code advance reset_code
      counter_code limit_code body_code advance_code body_ih =>
      cases hSized with
      | countUp limit_sized counter_sized inner =>
          obtain ⟨hReset, hAdvance⟩ := sizedAssignments_of_counter counter_sized
          have hBody :=
            body_ih inner (promised_inside hJumps (jumps_countUp targets limit counter body
            (numbered ".repeat_" n) (numbered ".repeat_continue_" n) (numbered ".endrepeat_" n)))
          exact Balanced.close ((((((reset_code.keeps hReset).append ((balanced_label _).append
            (counter_code.keeps_word counter_sized.sized counter_sized.one base))).append
              (limit_code.keeps_word limit_sized.sized limit_sized.one (none :: base))).append
                ((keeps_limit (by simp [labelsAt]) none none).append hBody)).append
                  ((balanced_label _).append (advance_code.keeps hAdvance))).append
                    ((keeps_jump (by simp [labelsAt])).append (balanced_label _)))
  | @select targets scrutinee cases n middle m code bodies scrutinee_code cases_code cases_ih =>
      cases hSized with
      | select chosen bodies_sized =>
          have hBodies := cases_ih ⟨by simp [caseLabels], bodies_sized⟩ (promised_inside hJumps
            (jumps_select targets scrutinee cases (caseLabels n (cases.map Prod.fst))
              (numbered ".endswitch_" n)))
          have hLabels : ∀ label ∈ caseLabels n (cases.map Prod.fst) ++ [numbered ".endswitch_" n],
              (label, base) ∈ labelsAt base (caseLabels n (cases.map Prod.fst) ++
                [numbered ".endswitch_" n]) ++ promised := fun label hLabel =>
            List.mem_append_left _ (List.mem_map_of_mem hLabel)
          rw [List.forall_mem_append] at hLabels
          rw [labelsAt, List.map_append] at hBodies hLabels
          exact Balanced.close ((((scrutinee_code.keeps_word chosen.sized chosen.one base).append
            (keeps_selection hLabels.1 (hLabels.2 _ (List.mem_singleton_self _)))).append
              hBodies).append (balanced_label _))
  | breakOut n target => exact keeps_jump (hJumps _ (by simp [Part.jumps, Part.exits, target]))
  | continueLoop n target => exact keeps_jump (hJumps _ (by simp [Part.jumps, Part.exits, target]))
  | goto targets name n =>
      exact keeps_jump (hJumps _
        (by simp [Part.jumps, Part.parts, Stmt.parts, gotoNames, Stmt.gotoName?]))
  | label targets name n => exact (balanced_label _).weaken (List.nil_subset _)
  | ret targets n =>
      cases hSized with
      | ret nothing =>
          have hSmall : environment.frame.resultWords < wordLimit := by
            rw [nothing]
            decide
          have hLeave : Keeps environment.toSetting base promised [leave environment.frame]
              (unknown environment.frame.resultWords ++ base) base := keeps_leave hSmall
          rw [nothing] at hLeave
          exact hLeave
  | @retValue targets e n m code value_code =>
      cases hSized with
      | retValue sized small size_eq =>
          have hValue : Keeps environment.toSetting base promised code base
              (unknown (environment.sizes.of e.ty) ++ base) := value_code.keeps_value sized base
          rw [size_eq] at hValue
          exact hValue.append (keeps_leave small)
  | evaluate value_code =>
      cases hSized with
      | evaluate sized => exact (value_code.keeps_value sized base).append (keeps_dropWords _)
  | nil targets n => exact .nil _
  | @cons targets first rest n middle m code others first_code rest_code first_ih rest_ih =>
      obtain ⟨hFirst, hRest⟩ := List.forall_mem_cons.mp hSized
      obtain ⟨hOwn, hLater⟩ := jumps_block targets first rest
      exact (first_ih hFirst fun label h => hJumps label (hOwn h)).append
        (rest_ih hRest fun label h => hJumps label (hLater h))
  | noArms targets number finish last position n => exact .nil _
  | @arm targets number position finish last condition body rest n n₁ n₂ m test code others
      condition_code body_code rest_code body_ih rest_ih =>
      obtain ⟨⟨hCondition, hBody⟩, hRest⟩ := List.forall_mem_cons.mp hSized
      obtain ⟨hOwn, hLater⟩ := jumps_arm targets number finish last position (condition, body) rest
      have hOuter : ∀ label ∈ Part.jumps targets (.arms number finish last position
            ((condition, body) :: rest)),
          (label, base) ∈ armLabels base number last position rest ++ promised :=
        fun label h => List.mem_append_right _ (hJumps label h)
      have hFinish := hOuter finish (by simp [Part.jumps, Part.exits])
      have hNext : (nextArm number last position rest, base) ∈
          armLabels base number last position rest ++ promised := by
        cases rest with
        | nil => exact hOuter last (by simp [Part.jumps, Part.exits])
        | cons second others => exact List.mem_append_left _ (List.mem_singleton_self _)
      have hArm := ((condition_code.keeps_word hCondition.sized hCondition.one base).append
        ((keeps_test hNext none).append (body_ih hBody fun label h =>
          hOuter label (hOwn h)))).append (balanced_armEnd number last position rest hFinish)
      have hAll := hArm.append (rest_ih hRest fun label h => hOuter label (hLater h))
      exact Balanced.close (hAll.weaken (List.subset_append_left _ _))
  | noCases targets labels n =>
      rw [Part.labelShapes, List.length_eq_zero_iff.mp hSized.1]
      exact .nil _
  | @case targets labels value body rest n middle m code others body_code rest_code
        body_ih rest_ih =>
      obtain ⟨hLength, hBodies⟩ := hSized
      obtain ⟨hBody, hRest⟩ := List.forall_mem_cons.mp hBodies
      obtain ⟨hOwn, hLater⟩ := jumps_case targets labels (value, body) rest
      cases labels with
      | nil => cases hLength
      | cons label later =>
          exact ((balanced_label label).append (body_ih hBody fun label h =>
            hJumps label (hOwn h))).append
            (rest_ih ⟨Nat.succ.inj hLength, hRest⟩ fun label h => hJumps label (hLater h))

end Bodies
end ScriptBackend.Lowering
