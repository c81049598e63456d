import ScriptBackend.Proofs.Program.Mentions

/-!
The scratch words of expressions and statements. They are the most that any part
needs: within a bound exactly when every value that a chain of parts begins with
is, in all that stands inside.
-/
namespace ScriptBackend

variable {words : Ty → Nat} {initializer? : Nat → Option Expr} {known bound : Nat}

theorem argumentScratchWords_le_iff {passed : List Expr} :
    argumentScratchWords words known passed ≤ bound ↔
      known ≤ bound ∧ ∀ e ∈ passed, e.scratchWords words ≤ bound := by
  induction passed generalizing known with
  | nil => simp [argumentScratchWords]
  | cons first rest ih => rw [argumentScratchWords, ih, Nat.max_le, List.forall_mem_cons, and_assoc]

/-- What an expression needs is what the beginning of its chain needs, or what
an expression right inside does. -/
theorem Expr.scratchWords_le_iff {e : Expr} :
    e.scratchWords words ≤ bound ↔
      (∀ root, e.unstoredRoot? = some root → words root.ty ≤ bound) ∧
        ∀ child ∈ e.children, child.scratchWords words ≤ bound := by
  rw [scratchWords.eq_def, Nat.max_le]
  refine and_congr ?_ ?_
  · cases e.unstoredRoot? with
    | none => simp
    | some root => simp
  · cases e with
    | call info id passed => simp [children, argumentScratchWords_le_iff]
    | callNative info id passed => simp [children, argumentScratchWords_le_iff]
    | callThrough info target passed => simp [children, argumentScratchWords_le_iff]
    | _ => simp [children]

theorem blockScratchWords_le_iff {body : List Stmt} :
    blockScratchWords words initializer? known body ≤ bound ↔
      known ≤ bound ∧ ∀ s ∈ body, s.scratchWords words initializer? ≤ bound := by
  induction body generalizing known with
  | nil => simp [blockScratchWords]
  | cons first rest ih => rw [blockScratchWords, ih, Nat.max_le, List.forall_mem_cons, and_assoc]

theorem armScratchWords_le_iff {arms : List (Expr × List Stmt)} :
    armScratchWords words initializer? known arms ≤ bound ↔
      known ≤ bound ∧ ∀ arm ∈ arms, arm.1.scratchWords words ≤ bound ∧
        ∀ s ∈ arm.2, s.scratchWords words initializer? ≤ bound := by
  induction arms generalizing known with
  | nil => simp [armScratchWords]
  | cons first rest ih =>
      rw [armScratchWords, ih, blockScratchWords_le_iff, Nat.max_le, List.forall_mem_cons,
        and_assoc, and_assoc, and_assoc]

theorem caseScratchWords_le_iff {cases : List (Option Int32 × List Stmt)} :
    caseScratchWords words initializer? known cases ≤ bound ↔
      known ≤ bound ∧ ∀ item ∈ cases, ∀ s ∈ item.2, s.scratchWords words initializer? ≤ bound := by
  induction cases generalizing known with
  | nil => simp [caseScratchWords]
  | cons first rest ih =>
      rw [caseScratchWords, ih, blockScratchWords_le_iff, List.forall_mem_cons, and_assoc]

abbrev Program.initializerOf? (program : Program) (id : Nat) : Option Expr :=
  program.vars[id]?.bind Variable.initializer

/-- The values that a variable or a number stands for need no scratch words. -/
@[simp] theorem Expr.scratchWords_ofVariable (program : Program) (id : Nat) :
    (ofVariable program id).scratchWords words = 0 := by
  simp [ofVariable, scratchWords, unstoredRoot?]

@[simp] theorem Expr.scratchWords_ofInt (value : Int32) : (ofInt value).scratchWords words = 0 := by
  simp [ofInt, scratchWords, unstoredRoot?]

/-- Two values combined need what either of them needs. -/
@[simp] theorem Expr.scratchWords_combined (op : BinaryOp) (left right : Expr) :
    (combined op left right).scratchWords words = max (left.scratchWords words)
    (right.scratchWords words) := by
  simp [combined, scratchWords, unstoredRoot?]

/-! What stands inside needs no more than the whole. -/

mutual

theorem Stmt.part_scratchWords_le : ∀ s : Stmt, s.scratchWords words initializer? ≤ bound →
    ∀ part ∈ s.parts, part.scratchWords words initializer? ≤ bound
  | .branch arms otherwise => fun h => by
      have hInside := armScratchWords_le_iff.mp h
      rw [Stmt.parts, List.forall_mem_cons, List.forall_mem_append]
      exact ⟨h, armParts_scratchWords_le arms fun arm hArm => (hInside.2 arm hArm).2,
        blockParts_scratchWords_le otherwise (blockScratchWords_le_iff.mp hInside.1).2⟩
  | .loop condition body => fun h => by
      rw [Stmt.parts, List.forall_mem_cons]
      exact ⟨h, blockParts_scratchWords_le body (blockScratchWords_le_iff.mp h).2⟩
  | .countUp limit counter body => fun h => by
      rw [Stmt.parts, List.forall_mem_cons]
      exact ⟨h, blockParts_scratchWords_le body (blockScratchWords_le_iff.mp h).2⟩
  | .select scrutinee cases => fun h => by
      rw [Stmt.parts, List.forall_mem_cons]
      exact ⟨h, caseParts_scratchWords_le cases (caseScratchWords_le_iff.mp h).2⟩
  | .declare _ | .assign .. | .breakOut | .continueLoop | .goto _ | .label _ | .ret _
        | .evaluate _ => fun h => by
      simpa [Stmt.parts] using h

theorem blockParts_scratchWords_le : ∀ body : List Stmt,
    (∀ s ∈ body, s.scratchWords words initializer? ≤ bound) →
      ∀ part ∈ Stmt.blockParts body, part.scratchWords words initializer? ≤ bound
  | [] => fun _ => by simp [Stmt.blockParts]
  | first :: rest => fun h => by
      rw [List.forall_mem_cons] at h
      rw [Stmt.blockParts, List.forall_mem_append]
      exact ⟨Stmt.part_scratchWords_le first h.1, blockParts_scratchWords_le rest h.2⟩

theorem armParts_scratchWords_le : ∀ arms : List (Expr × List Stmt),
    (∀ arm ∈ arms, ∀ s ∈ arm.2, s.scratchWords words initializer? ≤ bound) →
      ∀ part ∈ Stmt.armsParts arms, part.scratchWords words initializer? ≤ bound
  | [] => fun _ => by simp [Stmt.armsParts]
  | (_, body) :: rest => fun h => by
      rw [List.forall_mem_cons] at h
      rw [Stmt.armsParts, List.forall_mem_append]
      exact ⟨blockParts_scratchWords_le body h.1, armParts_scratchWords_le rest h.2⟩

theorem caseParts_scratchWords_le : ∀ cases : List (Option Int32 × List Stmt),
    (∀ item ∈ cases, ∀ s ∈ item.2, s.scratchWords words initializer? ≤ bound) →
      ∀ part ∈ Stmt.casesParts cases, part.scratchWords words initializer? ≤ bound
  | [] => fun _ => by simp [Stmt.casesParts]
  | (_, body) :: rest => fun h => by
      rw [List.forall_mem_cons] at h
      rw [Stmt.casesParts, List.forall_mem_append]
      exact ⟨blockParts_scratchWords_le body h.1, caseParts_scratchWords_le rest h.2⟩

end

/-- The scratch words of a statement cover the expressions that its own code
evaluates or stores to. -/
theorem Stmt.expression_scratchWords_le {program : Program} {s : Stmt}
    (h : s.scratchWords words program.initializerOf? ≤ bound) :
    ∀ e ∈ s.expressions program, e.scratchWords words ≤ bound := by
  cases s with
  | assign target op source =>
      have hBoth : target.scratchWords words ≤ bound ∧ source.scratchWords words ≤ bound := by
        simpa [scratchWords] using h
      cases op <;> simp [expressions, hBoth]
  | branch arms otherwise =>
      have hArms := (armScratchWords_le_iff.mp h).2
      intro e hMem
      obtain ⟨arm, hArm, rfl⟩ := List.mem_map.mp hMem
      exact (hArms arm hArm).1
  | loop condition body => simpa [expressions] using (blockScratchWords_le_iff.mp h).1
  | countUp limit counter body =>
      have hBoth := Nat.max_le.mp (blockScratchWords_le_iff.mp h).1
      simp [expressions, hBoth]
  | select scrutinee cases => simpa [expressions] using (caseScratchWords_le_iff.mp h).1
  | ret result =>
      cases result with
      | none => simp [expressions]
      | some e => simpa [expressions, scratchWords] using h
  | evaluate e => simpa [expressions, scratchWords] using h
  | _ => simp [expressions]

/-- The constants that a function mentions are defined by expressions that need
no more scratch words than the frame of the function has. -/
def Function.ConstantsFit (program : Program) (sizes : Sizes) (function : Function) : Prop :=
  ∀ info (id : Nat) declared e, function.Uses program (.var info id) →
    program.vars[id]? = some declared →
    declared.storage = .constant → declared.initializer = some e →
    e.scratchWords sizes.of ≤ (Slots.frameOf program sizes function).scratchWords

/-- A frame has the scratch words for every expression whose code belongs to the
function. The initializers of constants are not among the statements that they
are counted by, so that these have to be known to fit. -/
theorem Function.Uses.scratchWords_le {program : Program} {sizes : Sizes}
    {function : Function} {e : Expr}
    (h : function.Uses program e) (hConstants : function.ConstantsFit program sizes) :
    e.scratchWords sizes.of ≤ (Slots.frameOf program sizes function).scratchWords := by
  have hParts : ∀ part ∈ Stmt.blockParts function.body,
      part.scratchWords sizes.of program.initializerOf? ≤
      (Slots.frameOf program sizes function).scratchWords :=
    blockParts_scratchWords_le function.body (blockScratchWords_le_iff.mp (Nat.le_refl _)).2
  induction h with
  | body inside own => exact Stmt.expression_scratchWords_le (hParts _ inside) _ own
  | part whole inside ih => exact (Expr.scratchWords_le_iff.mp ih).2 _ inside
  | @initializer id declared e own declaration initialized =>
      obtain ⟨s, hInside, hDeclares⟩ := List.mem_filterMap.mp own
      have hDeclare := hParts s hInside
      cases s with
      | declare other =>
          cases hDeclares
          simpa [Stmt.scratchWords, Program.initializerOf?, declaration, initialized] using hDeclare
      | _ => cases hDeclares
  | constant mentioned declaration storage initialized ih =>
      exact hConstants _ _ _ _ mentioned declaration storage initialized

end ScriptBackend
