import ScriptBackend.Lowering.Compiled
import ScriptBackend.Proofs.Lowering.Constructs

/-!
The code of structured statements performs their structured reading: the machine
that goes through the code of a function shows exactly the sequences of events
that the runs of the function have.
-/
namespace ScriptBackend.Lowering

open ScriptBackend.Assembly

variable {environment : Environment}

/-! Generated code -/

/-- Whatever is generated for a statement realizes its runs. -/
def StatementLowered (environment : Environment) (s : Stmt) : Prop :=
  ∀ targets low high code, (statement environment targets s).run low = .ok (code, high) →
    ∃ items, listing items = code ∧ Lowers environment targets s.runs low items high

/-- Whatever is generated for a block, behind the code before it, realizes its
runs. -/
def BlockLowered (environment : Environment) (statements : List Stmt) : Prop :=
  ∀ targets before low high code,
    (block environment targets before statements).run low = .ok (code, high) →
      ∃ items, code.toList = before.toList ++ listing items ∧
        Lowers environment targets (Stmt.blockRuns statements) low items high

/-- Whatever is generated for the arms of a branch realizes the choice of an arm. -/
def ArmsLowered (environment : Environment) (arms : List (Expr × List Stmt)) : Prop :=
  ∀ targets number finish last position low high code, number < low → Marked number finish →
    isUserLabel last = false → (∀ other, finish ≠ armLabel number other) →
    (armsCode environment targets number finish last position arms).run low = .ok (code, high) →
      ∃ items, listing items = code ∧
        LowersArms environment targets number finish last position arms low items high

/-- Whatever is generated for the cases of a selection falls through and can be
entered at each case. -/
def CasesLowered (environment : Environment) (cases : List (Option Int32 × List Stmt)) : Prop :=
  ∀ targets number position low high code, number < low →
    (casesCode environment targets
      (caseLabelsFrom number position (cases.map Prod.fst)) cases).run low = .ok (code, high) →
      ∃ items, listing items = code ∧
        LowersCases environment targets number position cases low items high

section Actions

variable {targets : Targets} {low high : Nat} {code : Code}

/-- The code of a value is one item, which performs the evaluation. -/
theorem value_lowers {e : Expr} (h : (environment.value e).run low = .ok (code, high)) :
    Lowers environment targets (.perform (.value e)) low [.action (.value e) code] high :=
  Lowers.perform h

/-- The code of an assignment is one item, which performs it. -/
theorem assign_lowers {target source : Expr} {op : Option BinaryOp}
    (h : (assign environment target op source).run low = .ok (code, high)) :
    Lowers environment targets (.perform (.assign target op source)) low
      [.action (.assign target op source) code] high :=
  Lowers.perform h

end Actions

namespace BlockLowered

theorem nil : BlockLowered environment [] := by
  intro targets before low high code hRun
  obtain ⟨rfl, rfl⟩ := run_pure_eq_ok.mp hRun
  exact ⟨[], by simp, Lowers.finished high⟩

theorem cons {first : Stmt} {rest : List Stmt} (hFirst : StatementLowered environment first)
    (hRest : BlockLowered environment rest) : BlockLowered environment (first :: rest) := by
  intro targets before low high code hRun
  obtain ⟨made, middle, hMade, hCode⟩ := run_bind_eq_ok.mp hRun
  obtain ⟨items, hItems, hStatement⟩ := hFirst _ _ _ _ hMade
  obtain ⟨others, hOthers, hBlock⟩ := hRest _ _ _ _ _ hCode
  exact ⟨items ++ others, by simp [hOthers, hItems], hStatement.andThen hBlock⟩

end BlockLowered

namespace StatementLowered

/-- A statement that is an action. -/
theorem ofAction {s : Stmt} {action : Action} (hRuns : s.runs = .perform action)
    (hCode : ∀ targets, statement environment targets s = action.code environment) :
    StatementLowered environment s := by
  intro targets low high code hRun
  rw [hCode] at hRun
  rw [hRuns]
  exact ⟨[.action action code], by simp, Lowers.perform hRun⟩

/-- A branch tries its arms in order, and the code behind the last of them is
that of the other case. -/
theorem branch {arms : List (Expr × List Stmt)} {otherwise : List Stmt}
    (hArms : ArmsLowered environment arms) (hOtherwise : BlockLowered environment otherwise) :
    StatementLowered environment (.branch arms otherwise) := by
  intro targets low high code hRun
  obtain ⟨number, next, hFresh, hRun⟩ := run_bind_eq_ok.mp hRun
  obtain ⟨rfl, rfl⟩ := run_freshNumber_eq_ok.mp hFresh
  obtain ⟨tested, middle, hTested, hRun⟩ := run_bind_eq_ok.mp hRun
  obtain ⟨rest, last, hRest, hRun⟩ := run_bind_eq_ok.mp hRun
  obtain ⟨rfl, rfl⟩ := run_pure_eq_ok.mp hRun
  have hNumber := Nat.lt_succ_self number
  have hFinish : Marked number (numbered ".endif_" number) := marked_numbered number rfl
  have hElse : Marked number (numbered ".else_" number) := marked_numbered number rfl
  -- Without other statements the last failed condition leads behind the branch at once.
  by_cases hEmpty : otherwise = []
  · subst hEmpty
    obtain ⟨rfl, rfl⟩ := run_pure_eq_ok.mp hRest
    obtain ⟨items, hItems, hLowers⟩ :=
      hArms _ _ _ _ _ _ _ _ hNumber hFinish hFinish.made (endif_ne_armLabel number) hTested
    exact ⟨_, by simp [hItems], Lowers.branch hLowers⟩
  · rw [if_neg (by simpa using hEmpty)] at hTested
    obtain ⟨items, hItems, hLowers⟩ :=
      hArms _ _ _ _ _ _ _ _ hNumber hFinish hElse.made (endif_ne_armLabel number) hTested
    obtain ⟨others, hOthers, hBlock⟩ := hOtherwise _ _ _ _ _ hRest
    exact ⟨_, by simp [hItems, hOthers, hEmpty], Lowers.branchElse hLowers hBlock⟩

/-- A loop tests its condition in front of each round, and its body leads back
to the test. -/
theorem loop {condition : Expr} {body : List Stmt} (hBody : BlockLowered environment body) :
    StatementLowered environment (.loop condition body) := by
  intro targets low high code hRun
  obtain ⟨number, next, hFresh, hRun⟩ := run_bind_eq_ok.mp hRun
  obtain ⟨rfl, rfl⟩ := run_freshNumber_eq_ok.mp hFresh
  obtain ⟨test, middle, hTest, hRun⟩ := run_bind_eq_ok.mp hRun
  obtain ⟨inside, last, hInside, hRun⟩ := run_bind_eq_ok.mp hRun
  obtain ⟨rfl, rfl⟩ := run_pure_eq_ok.mp hRun
  obtain ⟨items, hItems, hBlock⟩ := hBody _ _ _ _ _ hInside
  have hStart : Marked number (numbered ".while_" number) := marked_numbered number rfl
  have hFinish : Marked number (numbered ".endwhile_" number) := marked_numbered number rfl
  have hTested := @Lowers.tested environment _ _ _ _ _ "JZ" _ .tested hBlock rfl rfl
  refine ⟨_, ?_, Lowers.looping hStart hFinish (numbered_ne number (by decide))
    (Run.audible_bind (Run.audible_choose _ _)) ((value_lowers hTest).andThen hTested)⟩
  simp [hItems]

/-- A counted loop tests limit and counter at its head, and its step lies in
front of the jump back. -/
theorem countUp {limit counter : Expr} {body : List Stmt} (hBody : BlockLowered environment body) :
    StatementLowered environment (.countUp limit counter body) := by
  intro targets low high code hRun
  obtain ⟨number, next, hFresh, hRun⟩ := run_bind_eq_ok.mp hRun
  obtain ⟨rfl, rfl⟩ := run_freshNumber_eq_ok.mp hFresh
  obtain ⟨reset, first, hReset, hRun⟩ := run_bind_eq_ok.mp hRun
  obtain ⟨count, second, hCount, hRun⟩ := run_bind_eq_ok.mp hRun
  obtain ⟨bound, third, hBound, hRun⟩ := run_bind_eq_ok.mp hRun
  obtain ⟨inside, fourth, hInside, hRun⟩ := run_bind_eq_ok.mp hRun
  obtain ⟨advance, fifth, hAdvance, hRun⟩ := run_bind_eq_ok.mp hRun
  obtain ⟨rfl, rfl⟩ := run_pure_eq_ok.mp hRun
  obtain ⟨items, hItems, hBlock⟩ := hBody _ _ _ _ _ hInside
  have hStart : Marked number (numbered ".repeat_" number) := marked_numbered number rfl
  have hStep : Marked number (numbered ".repeat_continue_" number) := marked_numbered number rfl
  have hFinish : Marked number (numbered ".endrepeat_" number) := marked_numbered number rfl
  refine ⟨_, ?_, Lowers.countUp hStart hStep hFinish (numbered_ne number (by decide))
    (numbered_ne number (by decide)) (numbered_ne number (by decide)) (assign_lowers hReset)
    (value_lowers hCount) (value_lowers hBound) hBlock (assign_lowers hAdvance)
    (Run.audible_choose _ _)⟩
  simp [hItems]

/-- A selection performs its scrutinee and enters its cases at the one that is
wanted. -/
theorem select {scrutinee : Expr} {cases : List (Option Int32 × List Stmt)}
    (hCases : CasesLowered environment cases) :
    StatementLowered environment (.select scrutinee cases) := by
  intro targets low high code hRun
  obtain ⟨number, next, hFresh, hRun⟩ := run_bind_eq_ok.mp hRun
  obtain ⟨rfl, rfl⟩ := run_freshNumber_eq_ok.mp hFresh
  obtain ⟨made, first, hValue, hRun⟩ := run_bind_eq_ok.mp hRun
  obtain ⟨bodies, second, hBodies, hRun⟩ := run_bind_eq_ok.mp hRun
  obtain ⟨rfl, rfl⟩ := run_pure_eq_ok.mp hRun
  have hHead := @value_lowers environment targets _ _ _ _ hValue
  rw [caseLabels_eq] at hBodies
  obtain ⟨items, hItems, hLowers⟩ := hCases _ _ _ _ _ _ (Nat.lt_of_succ_le hHead.le) hBodies
  refine ⟨_, ?_, Lowers.select hHead hLowers⟩
  simp [hItems, caseLabels_eq]

/-- A break or a continue, whose target is there if its code is. -/
theorem jump {s : Stmt} {exit : Exit} {fault : CompileFault} {target : Targets → Option String}
    (hRuns : s.runs = .exiting exit)
    (hCode : ∀ targets, statement environment targets s = liftM (jumpTo fault (target targets)))
    (hExit : ∀ program targets rest,
      destinations program targets rest exit = reached program (target targets)) :
    StatementLowered environment s := by
  intro targets low high code hRun
  rw [hCode] at hRun
  rw [hRuns]
  obtain ⟨hJump, rfl⟩ := run_lift_eq_ok.mp hRun
  cases hTarget : target targets with
  | none =>
      rw [hTarget] at hJump
      cases hJump
  | some label =>
      rw [hTarget] at hJump
      cases hJump
      refine ⟨_, rfl, Lowers.instruction high (Realizes.jump fun program rest => ?_)⟩
      rw [hExit, hTarget]
      rfl

theorem label (name : String) : StatementLowered environment (.label name) := by
  intro targets low high code hRun
  obtain ⟨rfl, rfl⟩ := run_pure_eq_ok.mp hRun
  exact ⟨_, rfl, Lowers.userLabel name high⟩

theorem ret (result : Option Expr) : StatementLowered environment (.ret result) := by
  intro targets low high code hRun
  cases result with
  | none =>
      obtain ⟨rfl, rfl⟩ := run_pure_eq_ok.mp hRun
      exact ⟨_, rfl, Lowers.instruction high (Realizes.leave environment.frame)⟩
  | some e =>
      obtain ⟨made, middle, hValue, hRun⟩ := run_bind_eq_ok.mp hRun
      obtain ⟨rfl, rfl⟩ := run_pure_eq_ok.mp hRun
      exact ⟨_, by simp; rfl, (value_lowers hValue).andThen
        (Lowers.instruction _ (Realizes.leave environment.frame))⟩

end StatementLowered

namespace ArmsLowered

theorem nil : ArmsLowered environment [] := by
  intro targets number finish last position low high code _ _ _ _ hRun
  obtain ⟨rfl, rfl⟩ := run_pure_eq_ok.mp hRun
  exact ⟨[], rfl, LowersArms.nil high⟩

theorem cons {condition : Expr} {body : List Stmt} {rest : List (Expr × List Stmt)}
    (hBody : BlockLowered environment body) (hRest : ArmsLowered environment rest) :
    ArmsLowered environment ((condition, body) :: rest) := by
  intro targets number finish last position low high code hNumber hFinish hLast hOther hRun
  obtain ⟨test, first, hTest, hRun⟩ := run_bind_eq_ok.mp hRun
  obtain ⟨inside, second, hInside, hRun⟩ := run_bind_eq_ok.mp hRun
  obtain ⟨others, third, hOthers, hRun⟩ := run_bind_eq_ok.mp hRun
  obtain ⟨rfl, rfl⟩ := run_pure_eq_ok.mp hRun
  obtain ⟨items, hItems, hBlock⟩ := hBody _ _ _ _ _ hInside
  have hHead := @value_lowers environment targets _ _ _ _ hTest
  -- Only the last arm goes without a label and, at the end of the branch, without a jump.
  by_cases hEmpty : rest = []
  · subst hEmpty
    obtain ⟨rfl, rfl⟩ := run_pure_eq_ok.mp hOthers
    refine ⟨_, ?_, LowersArms.single hFinish.made hLast hHead hBlock⟩
    simp [hItems, listing_skipTo]
  · have hInner := Nat.lt_of_lt_of_le (Nat.lt_of_lt_of_le hNumber hHead.le) hBlock.le
    obtain ⟨otherItems, hOtherItems, hLowers⟩ :=
      hRest _ _ _ _ _ _ _ _ hInner hFinish hLast hOther hOthers
    refine ⟨_, ?_, LowersArms.cons hNumber hFinish hOther hHead hBlock hLowers⟩
    simp [hItems, hOtherItems, listing_skipTo, hEmpty, armLabel]

end ArmsLowered

namespace CasesLowered

theorem nil : CasesLowered environment [] := by
  intro targets number position low high code _ hRun
  obtain ⟨rfl, rfl⟩ := run_pure_eq_ok.mp hRun
  exact ⟨[], rfl, LowersCases.nil high⟩

theorem cons {value : Option Int32} {body : List Stmt} {rest : List (Option Int32 × List Stmt)}
    (hDefault : value = none → none ∉ rest.map Prod.fst) (hBody : BlockLowered environment body)
    (hRest : CasesLowered environment rest) : CasesLowered environment ((value, body) :: rest) := by
  intro targets number position low high code hNumber hRun
  rw [List.map_cons, caseLabelsFrom_cons] at hRun
  obtain ⟨inside, first, hInside, hRun⟩ := run_bind_eq_ok.mp hRun
  obtain ⟨others, second, hOthers, hRun⟩ := run_bind_eq_ok.mp hRun
  obtain ⟨rfl, rfl⟩ := run_pure_eq_ok.mp hRun
  obtain ⟨items, hItems, hBlock⟩ := hBody _ _ _ _ _ hInside
  obtain ⟨otherItems, hOtherItems, hLowers⟩ :=
    hRest _ _ _ _ _ _ (Nat.lt_of_lt_of_le hNumber hBlock.le) hOthers
  refine ⟨_, ?_, LowersCases.cons hNumber hDefault hBlock hLowers⟩
  simp [hItems, hOtherItems]

end CasesLowered

/-- A default that no default stands behind. -/
theorem none_notMem_of_isSome {value : Option Int32} {rest : List (Option Int32 × List Stmt)}
    (h : (value.isSome || rest.all fun (other, _) => other.isSome) = true) (hValue : value = none) :
    none ∉ rest.map Prod.fst := by
  subst hValue
  intro hNone
  have hAll : rest.all (fun (other, _) => other.isSome) = true := h
  obtain ⟨⟨found, body⟩, hEntry, rfl⟩ := List.mem_map.mp hNone
  cases List.all_eq_true.mp hAll _ hEntry

mutual

/-- The code of a structured statement realizes its runs. -/
theorem statement_lowered (s : Stmt) (h : s.isStructured = true) :
    StatementLowered environment s := by
  cases s with
  | declare id => exact .ofAction rfl fun _ => rfl
  | assign target op source => exact .ofAction rfl fun _ => rfl
  | evaluate e => exact .ofAction rfl fun _ => rfl
  | branch arms otherwise =>
      rw [Stmt.isStructured, Bool.and_eq_true] at h
      exact .branch (arms_lowered arms h.1) (block_lowered otherwise h.2)
  | loop condition body =>
      rw [Stmt.isStructured] at h
      exact .loop (block_lowered body h)
  | countUp limit counter body =>
      rw [Stmt.isStructured] at h
      exact .countUp (block_lowered body h)
  | select scrutinee cases =>
      rw [Stmt.isStructured] at h
      exact .select (cases_lowered cases h)
  | breakOut =>
      exact .jump rfl (fun _ => rfl) fun _ _ _ => rfl
  | continueLoop =>
      exact .jump rfl (fun _ => rfl) fun _ _ _ => rfl
  | goto name => cases h
  | label name => exact .label name
  | ret result => exact .ret result

/-- The statements of a block are lowered one behind the other. -/
theorem block_lowered (statements : List Stmt) (h : Stmt.blockStructured statements = true) :
    BlockLowered environment statements := by
  cases statements with
  | nil => exact .nil
  | cons first rest =>
      rw [Stmt.blockStructured, Bool.and_eq_true] at h
      exact .cons (statement_lowered first h.1) (block_lowered rest h.2)

/-- The arms of a branch are lowered one behind the other, each with the jump
behind the branch. -/
theorem arms_lowered (arms : List (Expr × List Stmt)) (h : Stmt.armsStructured arms = true) :
    ArmsLowered environment arms := by
  cases arms with
  | nil => exact .nil
  | cons arm rest =>
      obtain ⟨condition, body⟩ := arm
      rw [Stmt.armsStructured, Bool.and_eq_true] at h
      exact .cons (block_lowered body h.1) (arms_lowered rest h.2)

/-- The cases of a selection are lowered one behind the other, so that each of
them may fall through. -/
theorem cases_lowered (cases : List (Option Int32 × List Stmt))
    (h : Stmt.casesStructured cases = true) : CasesLowered environment cases := by
  cases cases with
  | nil => exact .nil
  | cons entry rest =>
      obtain ⟨value, body⟩ := entry
      rw [Stmt.casesStructured, Bool.and_eq_true, Bool.and_eq_true] at h
      exact .cons (none_notMem_of_isSome h.1.1) (block_lowered body h.1.2) (cases_lowered rest h.2)

end

/-! Functions -/

/-- A body that ends by returning never comes to its end. -/
theorem not_finished_of_endsInReturn {body : List Stmt} (h : endsInReturn body = true)
    (done : List Event) : ¬ Stmt.blockRuns body done (some .finished) := by
  induction body generalizing done with
  | nil => cases h
  | cons first rest ih =>
      intro hFinished
      rw [Stmt.blockRuns] at hFinished
      obtain ⟨⟨start, hFirst⟩, others, hRest⟩ := Run.finished_of_andThen hFinished
      cases rest with
      | nil =>
          cases first with
          | ret value =>
              cases value with
              | none =>
                  rw [Stmt.runs] at hFirst
                  exact Run.leave_not_finished start hFirst
              | some e =>
                  rw [Stmt.runs] at hFirst
                  obtain ⟨_, left, hLeave⟩ := Run.finished_of_andThen hFirst
                  exact Run.leave_not_finished left hLeave
          | _ => cases h
      | cons second rest => exact ih h others hRest

/-- What stands behind the body of a function: the instruction that leaves it,
if the body may come to its end. -/
def ending (frame : Frame) (body : List Stmt) : List Item :=
  if endsInReturn body then [] else [.control (leave frame)]

/-- The body of a function with what stands behind it performs the runs of the
function. -/
theorem body_performs {frame : Frame} {body : List Stmt} {items : List Item}
    (h : Realizes environment ⟨none, none⟩ (Stmt.blockRuns body) items) :
    Performs (items ++ ending frame body) (items ++ ending frame body) =
      Run.after (Stmt.functionRuns body) fun _ => silence := by
  rw [Stmt.functionRuns, Run.after_andThen]
  refine (h.performs (items ++ ending frame body) [] (ending frame body) (by simp)
    Apart.nil_left).trans (Run.after_congr fun exit hExit => ?_)
  cases exit with
  | finished =>
      obtain ⟨done, hDone⟩ := hExit
      unfold ending
      by_cases hReturn : endsInReturn body = true
      · exact absurd hDone (not_finished_of_endsInReturn hReturn done)
      · rw [if_neg hReturn, destinations, Performs.leave_eq rfl, Run.after_leave]
  | _ => rfl

/-- The machine that goes through the code of a function shows the events of its
runs, in any number of steps and for any outcomes of its tests, limits and
selections. Local labels are those behind the instruction that enters the
function. -/
theorem functionCode_performs_runs {setting : Setting}
    {before code : Array Statement} {id n m : Nat}
    {function : Function} (hFunction : setting.program.functions[id]? = some function)
    (hStructured : Stmt.blockStructured function.body = true)
    (hCode : (functionCode setting before id).run n = .ok (code, m)) :
    ∃ frame items, setting.slots.frame id = .ok frame ∧
      code.toList = before.toList ++
        { counted "ENTER" [frame.parameterWords, frame.size] with label := some function.name } ::
          listing items ∧
      Made { setting with frame := frame } items ∧
      ∀ events, Performs items items events ↔
        ∃ exit, Stmt.functionRuns function.body events exit := by
  rw [functionCode, hFunction] at hCode
  obtain ⟨frame, start, hFrame, hRest⟩ := run_bind_eq_ok.mp hCode
  obtain ⟨_, _, hRest⟩ := run_lift_bind_eq_ok.mp hRest
  obtain ⟨made, finish, hBlock, hEnd⟩ := run_bind_eq_ok.mp hRest
  obtain ⟨hMade, _⟩ := run_pure_eq_ok.mp hEnd
  obtain ⟨items, hItems, hLowers⟩ := block_lowered function.body hStructured _ _ _ _ _ hBlock
  refine ⟨frame, items ++ ending frame function.body, (run_lift_eq_ok.mp hFrame).1, ?_, ?_,
    fun events => ?_⟩
  · unfold ending
    rw [hMade]
    split <;> simp [hItems]
  · unfold ending
    split <;> simp [hLowers.realizes.made]
  · rw [body_performs hLowers.realizes]
    exact Run.after_silence _ events

/-- A function whose loop goes on with its next round from within a selection. -/
def selectingLoop : Function :=
  ⟨"MAIN", [], .void,
    [.loop (.ofBool true)
      [.select (.ofInt 1) [(some 1, [.continueLoop]), (none, [.breakOut])], .breakOut]]⟩

def selectingLoopSetting : Setting where
  program := ⟨"main", none, none, #[], #[], #[], #[selectingLoop], #[]⟩
  sizes := ⟨#[], #[], #[]⟩
  slots := ⟨#[], #[⟨0, 0, 0, 0, #[]⟩], [], [], [], 0, 0, 0⟩
  natives := NativeDatabase.empty

theorem functionCode_performs_runs_loop :
    ∃ code m items, (functionCode selectingLoopSetting #[] 0).run 0 = .ok (code, m) ∧
      ∀ events, Performs items items events ↔
        ∃ exit, Stmt.functionRuns selectingLoop.body events exit := by
  have hRun : ∃ code m, (functionCode selectingLoopSetting #[] 0).run 0 = .ok (code, m) :=
    ⟨_, _, rfl⟩
  obtain ⟨code, m, hCode⟩ := hRun
  obtain ⟨_, items, _, _, _, hEvents⟩ :=
    @functionCode_performs_runs selectingLoopSetting #[] code 0 0 m selectingLoop
      rfl (by decide) hCode
  exact ⟨code, m, items, hCode, hEvents⟩

end ScriptBackend.Lowering
