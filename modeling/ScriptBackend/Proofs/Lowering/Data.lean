import Mathlib.Data.List.SplitBy
import ScriptBackend.Lowering.DataSegment
import ScriptBackend.Proofs.Outcome
import ScriptBackend.Proofs.Program.Sizes

/-!
Words that are known at compile time. The only addresses among them are those of
functions of the program, in the words of constants, of initializers and of
defaults alike. A variable begins with as many words as its type has.
-/
namespace ScriptBackend.Lowering

open ScriptBackend.Assembly Outcome

/-- An address is that of a function of the program. -/
def Datum.IsKnown (program : Program) (word : Datum) : Prop :=
  ∀ name, word = .address name → ∃ id, program.functionName? id = some name

section Words

variable {program : Program}

theorem Datum.isKnown_of_isNumber {word : Datum} (h : word.isNumber = true) :
    word.IsKnown program := by
  rintro name rfl
  cases h

/-- A conversion makes numbers of numbers and leaves names as they are. -/
theorem Datum.isKnown_convert {word : Datum} (h : word.IsKnown program) (ty : Ty) :
    ∀ other ∈ word.convert ty, other.IsKnown program := by
  intro other hOther name hName
  subst hName
  cases word with
  | int value => cases ty <;> simp [convert] at hOther
  | float value => cases ty <;> simp [convert, ofInt32] at hOther
  | text value => simp [convert] at hOther
  | address function =>
      simp only [convert, List.mem_singleton] at hOther
      exact h name hOther.symm

theorem isNumber_of_foldInt {op : BinaryOp} {a b : Int32} {word : Datum}
    (h : Datum.foldInt op a b = some word) : word.isNumber = true := by
  unfold Datum.foldInt at h
  dsimp only at h
  split at h
  all_goals first
    | cases h; rfl
    | (split at h <;> cases h; rfl)

theorem isNumber_of_foldFloat {op : BinaryOp} {a b : Binary32} {word : Datum}
    (h : Datum.foldFloat op a b = some word) : word.isNumber = true := by
  unfold Datum.foldFloat at h
  split at h
  all_goals first
    | (cases h; done)
    | (cases h; rfl)
    | (obtain ⟨_, _, rfl⟩ := Option.map_eq_some_iff.mp h; rfl)

/-- Whatever is folded is a number, since names take no part in arithmetic. -/
theorem isNumber_of_fold {op : BinaryOp} {a b word : Datum} (h : Datum.fold op a b = some word) :
    word.isNumber = true := by
  unfold Datum.fold at h
  split at h
  · exact isNumber_of_foldInt h
  · obtain ⟨first, _, h⟩ := Option.bind_eq_some_iff.mp h
    obtain ⟨second, _, h⟩ := Option.bind_eq_some_iff.mp h
    exact isNumber_of_foldFloat h

theorem isNumber_of_neg? {word other : Datum} (h : word.neg? = some other) :
    other.isNumber = true := by
  cases word <;> cases h <;> rfl

theorem isNumber_of_mapM_neg? {words others : List Datum}
    (h : words.mapM Datum.neg? = some others) :
    ∀ other ∈ others, other.isNumber = true := by
  induction words generalizing others with
  | nil =>
      cases h
      simp
  | cons word rest ih =>
      rw [List.mapM_cons] at h
      obtain ⟨first, hFirst, h⟩ := Option.bind_eq_some_iff.mp h
      obtain ⟨later, hLater, h⟩ := Option.bind_eq_some_iff.mp h
      cases h
      intro other hOther
      rcases List.mem_cons.mp hOther with rfl | hOther
      · exact isNumber_of_neg? hFirst
      · exact ih hLater other hOther

theorem isNumber_of_not? {word other : Datum} (h : word.not? = some other) :
    other.isNumber = true := by
  obtain ⟨_, _, rfl⟩ := Option.map_eq_some_iff.mp h
  rfl

theorem single?_eq_some {words : List Datum} {word : Datum} (h : single? words = some word) :
    words = [word] := by
  unfold single? at h
  split at h
  · cases h
    rfl
  · cases h

/-- The words of an expression are known if those of the constants in it are. -/
theorem isKnown_of_foldWith {constant? : Nat → Option (List Datum)}
    (hConstant : ∀ id words, constant? id = some words → ∀ word ∈ words, word.IsKnown program) :
    ∀ (e : Expr) (words : List Datum), foldWith program.functionName? constant? e = some words →
      ∀ word ∈ words, word.IsKnown program := by
  intro e words h
  have hNumbers : (∀ word ∈ words, word.isNumber = true) → ∀ word ∈ words, word.IsKnown program :=
    fun hAll word hWord => Datum.isKnown_of_isNumber (hAll word hWord)
  cases e with
  | int info number =>
      cases h
      exact hNumbers (by simp [Datum.ofInt32, Datum.isNumber])
  | float info number =>
      obtain ⟨_, _, rfl⟩ := Option.map_eq_some_iff.mp h
      exact hNumbers (by simp [Datum.isNumber])
  | bool info truth =>
      cases h
      exact hNumbers (by simp [Datum.ofBool, Datum.isNumber])
  | text info content =>
      cases h
      intro word hWord name hName
      rw [List.mem_singleton.mp hWord] at hName
      cases hName
  | null info =>
      cases h
      exact hNumbers (by simp [Datum.isNumber])
  | vector info x y z =>
      simp only [foldWith, Option.bind_eq_bind, Option.bind_eq_some_iff] at h
      obtain ⟨_, _, _, _, _, _, _, _, _, _, _, _, _, _, _, _, _, _, h⟩ := h
      cases h
      exact hNumbers (by simp [Datum.isNumber])
  | var info id => exact hConstant id words h
  | functionRef info id =>
      obtain ⟨name, hName, rfl⟩ := Option.map_eq_some_iff.mp h
      intro word hWord other hOther
      rw [List.mem_singleton.mp hWord] at hOther
      cases hOther
      exact ⟨id, hName⟩
  | neg info operand =>
      obtain ⟨_, _, h⟩ := Option.bind_eq_some_iff.mp h
      exact hNumbers (isNumber_of_mapM_neg? h)
  | not info operand =>
      simp only [foldWith, Option.bind_eq_bind, Option.bind_eq_some_iff] at h
      obtain ⟨_, _, _, _, _, hNot, h⟩ := h
      cases h
      exact hNumbers (by simpa using isNumber_of_not? hNot)
  | binary info op left right =>
      simp only [foldWith, Option.bind_eq_bind, Option.bind_eq_some_iff] at h
      obtain ⟨_, _, _, _, _, _, _, _, _, hFold, h⟩ := h
      cases h
      exact hNumbers (by simpa using isNumber_of_fold hFold)
  | convert info operand =>
      simp only [foldWith, Option.bind_eq_bind, Option.bind_eq_some_iff] at h
      obtain ⟨_, hOperand, word, hWord, h⟩ := h
      cases h
      have hInner := isKnown_of_foldWith hConstant operand _ hOperand
      rw [single?_eq_some hWord] at hInner
      exact Datum.isKnown_convert (hInner word (by simp)) info.ty
  | member info base field => cases h
  | index info array position => cases h
  | call info id passed => cases h
  | callNative info id passed => cases h
  | callThrough info target passed => cases h

/-- The words of a constant name only functions of the program, however deep one
constant leads to another. -/
theorem isKnown_of_constantWithin? (depth : Nat) :
    ∀ id words, constantWithin? program depth id = some words →
      ∀ word ∈ words, word.IsKnown program := by
  induction depth with
  | zero =>
      intro id words h
      cases h
  | succ depth ih =>
      intro id words h
      obtain ⟨declared, _, h⟩ := Option.bind_eq_some_iff.mp h
      split at h
      · obtain ⟨e, _, h⟩ := Option.bind_eq_some_iff.mp h
        exact isKnown_of_foldWith ih e words h
      · cases h

/-- The only addresses in the words of a constant expression are those of
functions. -/
theorem isKnown_of_fold? {e : Expr} {words : List Datum} (h : fold? program e = some words) :
    ∀ word ∈ words, word.IsKnown program :=
  isKnown_of_foldWith (isKnown_of_constantWithin? _) e words h

end Words

section Depth

variable {program : Program}

/-- Whatever has words goes on to have them when more constants do. -/
theorem foldWith_mono {functionName? : Nat → Option String}
    {constant? other? : Nat → Option (List Datum)}
    (hConstant : ∀ id words, constant? id = some words → other? id = some words) :
    ∀ (e : Expr) (words : List Datum), foldWith functionName? constant? e = some words →
      foldWith functionName? other? e = some words := by
  intro e words h
  cases e with
  | vector info x y z =>
      simp only [foldWith, Option.bind_eq_bind, Option.bind_eq_some_iff] at h ⊢
      obtain ⟨_, hX, _, hFirst, _, hFirstFloat, _, hY, _, hSecond, _, hSecondFloat, _, hZ, h⟩ := h
      exact ⟨_, foldWith_mono hConstant x _ hX, _, hFirst, _, hFirstFloat, _,
        foldWith_mono hConstant y _ hY, _, hSecond, _, hSecondFloat, _,
        foldWith_mono hConstant z _ hZ, h⟩
  | var info id => exact hConstant id words h
  | neg info operand =>
      simp only [foldWith, Option.bind_eq_bind, Option.bind_eq_some_iff] at h ⊢
      obtain ⟨_, hOperand, h⟩ := h
      exact ⟨_, foldWith_mono hConstant operand _ hOperand, h⟩
  | not info operand =>
      simp only [foldWith, Option.bind_eq_bind, Option.bind_eq_some_iff] at h ⊢
      obtain ⟨_, hOperand, h⟩ := h
      exact ⟨_, foldWith_mono hConstant operand _ hOperand, h⟩
  | binary info op left right =>
      simp only [foldWith, Option.bind_eq_bind, Option.bind_eq_some_iff] at h ⊢
      obtain ⟨_, hLeft, _, hFirst, _, hRight, h⟩ := h
      exact ⟨_, foldWith_mono hConstant left _ hLeft, _, hFirst, _,
        foldWith_mono hConstant right _ hRight, h⟩
  | convert info operand =>
      simp only [foldWith, Option.bind_eq_bind, Option.bind_eq_some_iff] at h ⊢
      obtain ⟨_, hOperand, h⟩ := h
      exact ⟨_, foldWith_mono hConstant operand _ hOperand, h⟩
  | _ => exact h

/-- A constant that has words at some depth has them at every greater one. -/
theorem constantWithin?_succ (depth : Nat) :
    ∀ id words, constantWithin? program depth id = some words →
      constantWithin? program (depth + 1) id = some words := by
  induction depth with
  | zero =>
      intro id words h
      cases h
  | succ depth ih =>
      intro id words h
      rw [constantWithin?] at h ⊢
      obtain ⟨declared, hDeclared, h⟩ := Option.bind_eq_some_iff.mp h
      refine Option.bind_eq_some_iff.mpr ⟨declared, hDeclared, ?_⟩
      split at h
      · next hStorage =>
          obtain ⟨e, hInitializer, h⟩ := Option.bind_eq_some_iff.mp h
          rw [if_pos hStorage]
          exact Option.bind_eq_some_iff.mpr ⟨e, hInitializer, foldWith_mono ih e words h⟩
      · cases h

/-- A constant that has words has those of its initializer. -/
theorem fold?_of_constant {id : Nat} {declared : Variable} {e : Expr} {info : Info}
    {words : List Datum}
    (hDeclared : program.vars[id]? = some declared) (hInitializer : declared.initializer = some e)
    (h : fold? program (.var info id) = some words) : fold? program e = some words := by
  have hSize : program.vars.size ≠ 0 :=
    Nat.ne_zero_of_lt (Array.getElem?_eq_some_iff.mp hDeclared).1
  obtain ⟨depth, hDepth⟩ := Nat.exists_eq_add_one_of_ne_zero hSize
  rw [fold?, hDepth] at h ⊢
  obtain ⟨found, hFound, h⟩ := Option.bind_eq_some_iff.mp h
  cases hFound.symm.trans hDeclared
  split at h
  · obtain ⟨inner, hInner, h⟩ := Option.bind_eq_some_iff.mp h
    cases hInner.symm.trans hInitializer
    exact foldWith_mono (constantWithin?_succ depth) _ words h
  · cases h

end Depth
section Initial

variable {setting : Setting}

/-- The words of an initializer name only functions of the program. -/
theorem isKnown_of_initializerWords {ty : Ty} {e : Expr} {words : List Datum}
    (h : initializerWords setting ty e = .ok words) :
    ∀ word ∈ words, word.IsKnown setting.program := by
  unfold initializerWords at h
  split at h
  · cases h
  · next found hFound =>
      dsimp only at h
      have hKnown := isKnown_of_fold? hFound
      split at h
      · cases h
      · split at h
        · cases h
          intro word hWord
          obtain ⟨other, hOther, rfl⟩ := List.mem_map.mp hWord
          cases other with
          | int value => exact Datum.isKnown_of_isNumber rfl
          | float value => exact Datum.isKnown_of_isNumber rfl
          | text value => exact hKnown _ hOther
          | address function => exact hKnown _ hOther
        · cases h
          exact hKnown

theorem isKnown_of_defaultsWith {sizes : Sizes}
    {structDefaults : Nat → Except CompileFault (List Datum)}
    (hStruct : ∀ id words, structDefaults id = .ok words →
      ∀ word ∈ words, word.IsKnown setting.program) {ty : Ty} {words : List Datum}
    (h : defaultsWith sizes structDefaults ty = .ok words) :
    ∀ word ∈ words, word.IsKnown setting.program := by
  have hNumbers : (∀ word ∈ words, word.isNumber = true) →
      ∀ word ∈ words, word.IsKnown setting.program :=
    fun hAll word hWord => Datum.isKnown_of_isNumber (hAll word hWord)
  induction ty generalizing words with
  | struct id => exact hStruct id words h
  | array item length ih =>
      rw [defaultsWith] at h
      split at h
      · cases h
        exact hNumbers (by simp [Datum.isNumber])
      · obtain ⟨inner, hInner, h⟩ := bind_eq_ok.mp h
        cases h
        intro word hWord
        rcases List.mem_cons.mp hWord with rfl | hWord
        · exact Datum.isKnown_of_isNumber rfl
        · obtain ⟨part, hPart, hWord⟩ := List.mem_flatten.mp hWord
          rw [List.eq_of_mem_replicate hPart] at hWord
          exact ih hInner (fun hAll word hWord =>
            Datum.isKnown_of_isNumber (hAll word hWord)) word hWord
  | _ =>
      cases h
      exact hNumbers (by simp [Datum.isNumber])

/-- The defaults of a struct name only functions of the program. -/
theorem isKnown_of_structDefaultsWithin (depth : Nat) :
    ∀ id words, structDefaultsWithin setting depth id = .ok words →
      ∀ word ∈ words, word.IsKnown setting.program := by
  induction depth with
  | zero =>
      intro id words h
      cases h
  | succ depth ih =>
      intro id words h
      rw [structDefaultsWithin] at h
      split at h
      · cases h
      · obtain ⟨fields, hFields, h⟩ := bind_eq_ok.mp h
        cases h
        intro word hWord
        obtain ⟨part, hPart, hWord⟩ := List.mem_flatten.mp hWord
        obtain ⟨field, _, hField⟩ := exists_of_mem_mapM hFields hPart
        split at hField
        · exact isKnown_of_initializerWords hField word hWord
        · exact isKnown_of_defaultsWith ih hField word hWord

/-- The only addresses in the words that a variable begins with are those of
functions. -/
theorem isKnown_of_initialWords {ty : Ty} {initializer : Option Expr} {words : List Datum}
    (h : initialWords setting ty initializer = .ok words) :
    ∀ word ∈ words, word.IsKnown setting.program := by
  cases initializer with
  | some e => exact isKnown_of_initializerWords h
  | none => exact isKnown_of_defaultsWith (isKnown_of_structDefaultsWithin _) h

end Initial

section Lengths

variable {setting : Setting} {ty : Ty} {words : List Datum}

/-- An initializer has as many words as its type, or is a fault. -/
theorem length_initializerWords {e : Expr} (h : initializerWords setting ty e = .ok words) :
    words.length = setting.sizes.of ty := by
  unfold initializerWords at h
  split at h
  · cases h
  · dsimp only at h
    split at h
    · cases h
    · next hLength => split at h <;> cases h <;> simpa using hLength

/-- Default words are as many as their type has, if those of the structs in it
are. -/
theorem length_defaultsWith {sizes : Sizes}
    {structDefaults : Nat → Except CompileFault (List Datum)}
    (hStruct : ∀ id, ty.struct? = some id → ∀ words, structDefaults id = .ok words →
      words.length = sizes.of (.struct id))
    (h : defaultsWith sizes structDefaults ty = .ok words) : words.length = sizes.of ty := by
  induction ty generalizing words with
  | struct id => exact hStruct id rfl words h
  | array item length ih =>
      have hSize : sizes.of (.array item length) = 1 + sizes.of item * length := rfl
      rw [defaultsWith] at h
      split at h
      · next hEmpty =>
          cases h
          rw [hSize, hEmpty]
          rfl
      · obtain ⟨inner, hInner, h⟩ := bind_eq_ok.mp h
        cases h
        have hItem := ih hStruct hInner
        simp only [List.length_cons, List.length_flatten, List.map_replicate,
          List.sum_replicate_nat, hItem, hSize, Nat.mul_comm length]
        omega
  | _ =>
      cases h
      first
        | rfl
        | exact List.length_replicate

/-- The words of a struct are those of its fields, one behind the other. -/
theorem length_flatten_fields {sizes : Sizes} {fields : List Field} {parts : List (List Datum)}
    (h : List.Forall₂ (fun field part => part.length = sizes.of field.ty) fields parts) :
    parts.flatten.length = totalWords (fun field => sizes.of field.ty) fields := by
  induction h with
  | nil => rfl
  | cons hFirst _ ih => rw [List.flatten_cons, List.length_append, hFirst, ih, totalWords]

/-- The default words of a struct are as many as it has: a field with an
initializer has the words of its type like any other. -/
theorem length_structDefaultsWithin (hSizes : setting.sizes = .ofStructs setting.program.structs)
    (depth : Nat) : ∀ id, (Ty.struct id).HasSize setting.program.structs → ∀ words,
      structDefaultsWithin setting depth id = .ok words →
        words.length = setting.sizes.of (.struct id) := by
  induction depth with
  | zero =>
      intro id _ words h
      cases h
  | succ depth ih =>
      intro id hSize words h
      rw [structDefaultsWithin] at h
      split at h
      · cases h
      · next struct hStruct =>
          obtain ⟨parts, hParts, h⟩ := bind_eq_ok.mp h
          cases h
          rw [hSizes, Sizes.of_struct hSize hStruct, ← hSizes]
          apply length_flatten_fields
          have hEach := (List.forall₂_and_left _ _).mpr
            ⟨fun field (hField : field ∈ struct.fields) => hField, forall₂_of_mapM hParts⟩
          refine hEach.imp fun field part hPart => ?_
          obtain ⟨hField, hPart⟩ := hPart
          split at hPart
          · exact length_initializerWords hPart
          · refine length_defaultsWith (fun inner hInner found hFound => ?_) hPart
            refine ih inner ?_ found hFound
            intro other hOther
            cases hOther
            exact hSize.field hStruct hField inner hInner

/-- A variable begins with as many words as its type has. -/
theorem length_initialWords (hSizes : setting.sizes = .ofStructs setting.program.structs)
    {initializer : Option Expr} (hSize : ty.HasSize setting.program.structs)
    (h : initialWords setting ty initializer = .ok words) : words.length = setting.sizes.of ty := by
  cases initializer with
  | some e => exact length_initializerWords h
  | none =>
      refine length_defaultsWith (fun id hId found hFound => ?_) h
      refine length_structDefaultsWithin hSizes _ id (fun other hOther => ?_) found hFound
      cases hOther
      exact hSize id hId

end Lengths
end ScriptBackend.Lowering
