import Mathlib.Data.Fintype.EquivFin
import ScriptBackend.Proofs.Program.Sizes

/-!
Queries to a layout that remembers what it has measured. What is remembered are
true sizes only, so every answer is the one that the plain reading of types and
structs gives, whatever has been asked before; and the fields of a struct, found
by their names, lie one behind the other over exactly its words.
-/
namespace ScriptBackend

/-- The words of a type, read plainly: a struct has those of its fields, an
array a word for its length in front of the items, a reference a single one
whatever it refers to. -/
inductive Ty.Takes (structs : Array Struct) : Ty → Nat → Prop where
  | void : Takes structs .void 0
  | int : Takes structs .int 1
  | float : Takes structs .float 1
  | bool : Takes structs .bool 1
  | string : Takes structs .string 1
  | vector : Takes structs .vector 3
  | handle (name : String) : Takes structs (.handle name) 1
  | textLabel (capacity : Nat) : Takes structs (.textLabel capacity) ((capacity + 4) / 4)
  | ref (target : Ty) : Takes structs (.ref target) 1
  | functionPointer (prototype : Nat) : Takes structs (.functionPointer prototype) 1
  | array {item : Ty} {words : Nat} (length : Nat) (hItem : Takes structs item words) :
      Takes structs (.array item length) (1 + length * words)
  | struct {id : Nat} {struct : Struct} {words : Field → Nat} (hStruct : structs[id]? = some struct)
      (hFields : ∀ field ∈ struct.fields, Takes structs field.ty (words field)) :
      Takes structs (.struct id) (totalWords words struct.fields)
  | undeclared {id : Nat} (hStruct : structs[id]? = none) : Takes structs (.struct id) 0

/-- No struct contains itself, directly or through the structs of its fields. -/
def Acyclic (structs : Array Struct) : Prop :=
  ∀ id, ¬ Relation.TransGen (Nested structs) id id

variable {structs : Array Struct} {id : Nat} {ty : Ty}

/-! Plain sizes -/

/-- A type takes one number of words only, where it takes any. -/
theorem Ty.Takes.unique {first second : Nat} (h : ty.Takes structs first)
    (hSecond : ty.Takes structs second) :
    first = second := by
  induction h generalizing second with
  | array length _ ih =>
      cases hSecond with
      | array _ hItem => rw [ih hItem]
  | struct hStruct _ ih =>
      cases hSecond with
      | struct hSame hFields =>
          cases hStruct.symm.trans hSame
          exact totalWords_congr fun field hField => ih field hField (hFields field hField)
      | undeclared hNone => cases hStruct.symm.trans hNone
  | undeclared hNone =>
      cases hSecond with
      | struct hStruct => cases hNone.symm.trans hStruct
      | undeclared => rfl
  | _ =>
      cases hSecond
      rfl

/-- Sizes of structs make sizes of types. -/
theorem Ty.takes_words {words : Nat → Nat}
    (h : ∀ id, ty.struct? = some id → (Ty.struct id).Takes structs (words id)) :
    ty.Takes structs (ty.words words) := by
  induction ty with
  | struct id => exact h id rfl
  | array item length ih =>
      rw [Ty.words, Nat.mul_comm]
      exact .array length (ih h)
  | _ => constructor

/-- Within the depth to which a struct is nested, its words are those of its
fields. -/
theorem takes_structWordsWithin {depth : Nat} (h : NestedWithin structs depth id) :
    (Ty.struct id).Takes structs (structWordsWithin structs depth id) := by
  induction depth generalizing id with
  | zero => exact .undeclared h
  | succ depth ih =>
      cases hStruct : structs[id]? with
      | none =>
          rw [structWordsWithin_of_none _ hStruct]
          exact .undeclared hStruct
      | some struct =>
          rw [structWordsWithin_succ _ hStruct]
          exact .struct hStruct fun field hField => Ty.takes_words fun inner hInner =>
            ih (h inner ⟨struct, hStruct, field, hField, hInner⟩)

/-- A struct that is not declared holds none. -/
theorem acc_of_undeclared (h : structs[id]? = none) : Acc (Nested structs) id := by
  refine ⟨_, fun inner hNested => ?_⟩
  obtain ⟨struct, hStruct, _⟩ := hNested
  cases h.symm.trans hStruct

/-- As there are finitely many structs, one comes to an end on the way down when
none contains itself. -/
theorem Acyclic.acc (h : Acyclic structs) (id : Nat) : Acc (Nested structs) id := by
  let below : Fin structs.size → Fin structs.size → Prop := fun inner outer =>
    Relation.TransGen (Nested structs) inner outer
  have : IsTrans (Fin structs.size) below := ⟨fun _ _ _ => .trans⟩
  have : Std.Irrefl below := ⟨fun id => h id⟩
  have hWell : WellFounded below := Finite.wellFounded_of_trans_of_irrefl below
  have hDeclared : ∀ outer : Fin structs.size, Acc (Nested structs) outer := by
    intro outer
    induction outer using hWell.induction with
    | _ outer ih =>
        refine ⟨_, fun inner hNested => ?_⟩
        rcases Nat.lt_or_ge inner structs.size with hInner | hInner
        · exact ih ⟨inner, hInner⟩ (.single hNested)
        · exact acc_of_undeclared (Array.getElem?_eq_none hInner)
  rcases Nat.lt_or_ge id structs.size with hId | hId
  · exact hDeclared ⟨id, hId⟩
  · exact acc_of_undeclared (Array.getElem?_eq_none hId)

/-- When no struct holds itself, each type takes the words that are computed for
it. -/
theorem takes_wordsOf (h : Acyclic structs) (ty : Ty) : ty.Takes structs (wordsOf structs ty) :=
  Ty.takes_words fun id _ => takes_structWordsWithin (nestedWithin_size (h.acc id))

/-- Structs that contain only those declared before them do not contain
themselves. -/
theorem acyclic_of_lt (h : ∀ inner outer, Nested structs inner outer → inner < outer) :
    Acyclic structs := by
  have hLess : ∀ inner outer, Relation.TransGen (Nested structs) inner outer → inner < outer := by
    intro inner outer hBelow
    induction hBelow with
    | single hNested => exact h _ _ hNested
    | tail _ hNested ih => exact ih.trans (h _ _ hNested)
  exact fun id hSelf => Nat.lt_irrefl id (hLess id id hSelf)

/-! Sizes that 32 bits hold -/

/-- The types that values of a type are made of: the items of an array, the
fields of a struct. -/
inductive Ty.PartOf (structs : Array Struct) : Ty → Ty → Prop where
  | item {item : Ty} {length : Nat} : PartOf structs item (.array item length)
  | field {id : Nat} {struct : Struct} {field : Field} (hStruct : structs[id]? = some struct)
      (hField : field ∈ struct.fields) : PartOf structs field.ty (.struct id)

/-- 32 bits hold the words of a type, and the characters of a text label with
their terminator. -/
def Ty.Counted (structs : Array Struct) : Ty → Prop
  | .textLabel capacity => capacity + 1 < UInt32.size
  | ty => ∀ words, ty.Takes structs words → words < UInt32.size

/-- A type and all that it is made of, directly or not, are counted in 32 bits. -/
def Ty.Fits (structs : Array Struct) (ty : Ty) : Prop :=
  ∀ part, Relation.ReflTransGen (Ty.PartOf structs) part ty → part.Counted structs

/-- Fields and their sum are counted in 32 bits. -/
def FieldsFit (structs : Array Struct) (fields : List Field) : Prop :=
  (∀ field ∈ fields, field.ty.Fits structs) ∧
    totalWords (fun field => wordsOf structs field.ty) fields < UInt32.size

/-- Without fields there is nothing to count. -/
theorem fieldsFit_iff {fields : List Field} :
    ((∀ field ∈ fields, field.ty.Fits structs) ∧ (fields = [] ∨
        totalWords (fun field => wordsOf structs field.ty) fields < UInt32.size)) ↔
      FieldsFit structs fields := by
  refine and_congr_right fun _ => or_iff_right_of_imp ?_
  rintro rfl
  exact show 0 < UInt32.size by decide

/-- A type fits if it is counted in 32 bits and the types that it is made of fit. -/
theorem Ty.fits_iff :
    ty.Fits structs ↔
      ty.Counted structs ∧ ∀ part, Ty.PartOf structs part ty → part.Fits structs := by
  constructor
  · exact fun h => ⟨h ty .refl, fun part hPart inner hInner => h inner (hInner.tail hPart)⟩
  · rintro ⟨hCounted, hParts⟩ inner hInner
    rcases Relation.ReflTransGen.cases_tail hInner with rfl | ⟨part, hBelow, hPart⟩
    · exact hCounted
    · exact hParts part hPart inner hBelow

/-- In a table without cycles a type is counted if 32 bits hold the plain number
of its words. -/
theorem forall_takes_iff (hAcyclic : Acyclic structs) :
    (∀ words, ty.Takes structs words → words < UInt32.size) ↔ wordsOf structs ty < UInt32.size := by
  constructor
  · exact fun h => h _ (takes_wordsOf hAcyclic ty)
  · exact fun h words hTakes => (takes_wordsOf hAcyclic ty).unique hTakes ▸ h

/-- A struct takes the words of its fields. -/
theorem wordsOf_struct (hAcyclic : Acyclic structs) {struct : Struct}
    (hStruct : structs[id]? = some struct) : wordsOf structs (.struct id) =
      totalWords (fun field => wordsOf structs field.ty) struct.fields :=
  (takes_wordsOf hAcyclic _).unique (.struct hStruct fun field _ => takes_wordsOf hAcyclic field.ty)

/-- What has to fit, by the form of a type. -/
theorem fits_iff_of_acyclic (hAcyclic : Acyclic structs) : ty.Fits structs ↔
    match ty with
    | .textLabel capacity => capacity + 1 < UInt32.size
    | .array item length => item.Fits structs ∧ 1 + wordsOf structs item * length < UInt32.size
    | .struct id => ∀ struct, structs[id]? = some struct → FieldsFit structs struct.fields
    | _ => True := by
  rw [Ty.fits_iff]
  cases ty with
  | textLabel capacity => exact ⟨And.left, fun h => ⟨h, by rintro part ⟨⟩⟩⟩
  | array item length =>
      rw [and_comm]
      refine and_congr ⟨fun h => h item .item, ?_⟩ (forall_takes_iff hAcyclic)
      rintro h part ⟨⟩
      exact h
  | struct id =>
      have hCounted : (Ty.struct id).Counted structs ↔ wordsOf structs (.struct id) < UInt32.size :=
        forall_takes_iff hAcyclic
      rw [hCounted]
      constructor
      · intro h struct hStruct
        exact ⟨fun field hField => h.2 _ (.field hStruct hField),
          wordsOf_struct hAcyclic hStruct ▸ h.1⟩
      · intro h
        refine ⟨?_, ?_⟩
        · cases hStruct : structs[id]? with
          | none =>
              rw [show wordsOf structs (.struct id) = 0 from structWordsWithin_of_none _ hStruct]
              decide
          | some struct => exact wordsOf_struct hAcyclic hStruct ▸ (h struct hStruct).2
        · rintro part ⟨⟩
          next hField hStruct => exact (h _ hStruct).1 _ hField
  | _ =>
      refine iff_of_true ⟨?_, by rintro part ⟨⟩⟩ trivial
      rintro words ⟨⟩
      decide

namespace Sizes

/-- A type fits 32 bits when every step of its sum does. -/
theorem typeFits_iff (hAcyclic : Acyclic structs) {structFits : Nat → Bool}
    (h : ∀ id, ty.struct? = some id → (structFits id = true ↔ (Ty.struct id).Fits structs)) :
    typeFits (wordsOf structs) structFits ty = true ↔ ty.Fits structs := by
  induction ty with
  | struct id => exact h id rfl
  | array item length ih =>
      rw [fits_iff_of_acyclic hAcyclic, typeFits, Bool.and_eq_true, ih h, decide_eq_true_iff]
  | textLabel capacity => rw [fits_iff_of_acyclic hAcyclic, typeFits, decide_eq_true_iff]
  | _ => exact iff_of_true rfl ((fits_iff_of_acyclic hAcyclic).mpr trivial)

/-- A round checks the structs one level deeper than the round before it. -/
theorem getD_rechecked (hAcyclic : Acyclic structs) {known : Array Bool} {depth : Nat}
    (h : ∀ id, NestedWithin structs depth id →
      (known.getD id true = true ↔ (Ty.struct id).Fits structs))
    (hId : NestedWithin structs (depth + 1) id) :
    (rechecked structs (wordsOf structs) known).getD id true = true ↔
      (Ty.struct id).Fits structs := by
  rw [fits_iff_of_acyclic hAcyclic, rechecked, Array.getD_eq_getD_getElem?, Array.getElem?_map]
  dsimp only
  cases hStruct : structs[id]? with
  | none => simp
  | some struct =>
      simp only [Option.map_some, Option.getD_some, Option.some.injEq, forall_eq', fieldsFit,
        FieldsFit, Bool.and_eq_true, List.all_eq_true, decide_eq_true_iff]
      refine and_congr_left fun _ => forall₂_congr fun field hField => ?_
      exact typeFits_iff hAcyclic fun inner hInner =>
        h inner (hId inner ⟨struct, hStruct, field, hField, hInner⟩)

/-- A round of checks decides one more level of nesting, so enough rounds decide
all of them. -/
theorem getD_iterate_rechecked (hAcyclic : Acyclic structs) (rounds : Nat) {known : Array Bool}
    {depth : Nat} (h : ∀ id, NestedWithin structs depth id →
      (known.getD id true = true ↔ (Ty.struct id).Fits structs))
    (hId : NestedWithin structs (depth + rounds) id) :
    ((rechecked structs (wordsOf structs))^[rounds] known).getD id true = true ↔
      (Ty.struct id).Fits structs := by
  induction rounds generalizing known depth with
  | zero => exact h id hId
  | succ rounds ih =>
      rw [Function.iterate_succ_apply]
      rw [← Nat.succ_add_eq_add_succ] at hId
      exact ih (fun _ => getD_rechecked hAcyclic h) hId

/-- Lowering lets exactly the types pass that fit into 32 bits with all that
they are made of. -/
theorem fits_ofStructs (hAcyclic : Acyclic structs) :
    (ofStructs structs).fits ty = true ↔ ty.Fits structs := by
  have hWords : (ofStructs structs).of = wordsOf structs := funext (of_ofStructs structs)
  rw [fits, hWords]
  refine typeFits_iff hAcyclic fun id _ => ?_
  have hKnown : (ofStructs structs).structFits =
      (rechecked structs (wordsOf structs))^[structs.size] (Array.replicate structs.size true) := by
    rw [← hWords]
    exact untilStable_eq ..
  rw [hKnown]
  refine getD_iterate_rechecked hAcyclic _ (fun inner hInner => ?_)
    ((Nat.zero_add structs.size).symm ▸ nestedWithin_size (hAcyclic.acc id))
  refine iff_of_true ?_ ((fits_iff_of_acyclic hAcyclic).mpr fun struct hStruct => ?_)
  · rw [Array.getD_eq_getD_getElem?, Array.getElem?_replicate]
    split <;> rfl
  · cases (show structs[inner]? = none from hInner).symm.trans hStruct

end Sizes

namespace TypeLayout

/-! Queries -/

/-- What is remembered of structs are their sizes. A struct whose words 32 bits
do not hold is remembered only with the note that some number did not fit. -/
def Remembers (structs : Array Struct) (found : Measured) : Prop :=
  ∀ (id words : Nat), found.known[id]? = some words →
    ((Ty.struct id).Fits structs → (Ty.struct id).Takes structs words) ∧
      (¬ (Ty.struct id).Fits structs → found.wrapped = true)

/-- A query that gives an answer when it fits, whatever sizes are remembered,
and that notes exactly if it does not. What is remembered after it is as true as
before. -/
def Gives {α : Type} (structs : Array Struct) (query : Query α) (answer : α) (fits : Prop) : Prop :=
  ∀ found, Remembers structs found →
    Remembers structs (query.run found).2 ∧
      ((query.run found).2.wrapped = true ↔ found.wrapped = true ∨ ¬ fits) ∧
      (fits → (query.run found).1 = answer)

namespace Gives

variable {α β : Type} {fits others : Prop}

theorem pure (answer : α) (h : fits) : Gives structs (Pure.pure answer) answer fits :=
  fun _ hFound => ⟨hFound, (or_iff_left fun hUnfit => hUnfit h).symm, fun _ => rfl⟩

/-- A question goes on with what depends on its answer, and fits when both parts
do. -/
theorem bind {query : Query α} {rest : α → Query β} {first : α} {answer : α → β}
    {restFits : α → Prop} (h : Gives structs query first fits)
    (hRest : ∀ value, Gives structs (rest value) (answer value) (restFits value)) :
    Gives structs (query >>= rest) (answer first) (fits ∧ restFits first) := by
  intro found hFound
  obtain ⟨hMiddle, hNoted, hFirst⟩ := h found hFound
  obtain ⟨hNext, hNotedNext, hAnswer⟩ := hRest (query.run found).1 _ hMiddle
  refine ⟨hNext, ?_, fun hFits => ?_⟩
  · refine hNotedNext.trans ?_
    rw [hNoted, or_assoc, not_and_or]
    -- the value matters only where the query fits
    by_cases hFits : fits
    · rw [hFirst hFits]
    · simp [hFits]
  · have hValue := hFirst hFits.1
    rw [hValue] at hAnswer
    refine Eq.trans ?_ (hAnswer hFits.2)
    show ((rest (query.run found).1).run (query.run found).2).1 = _
    rw [hValue]

theorem congr {query : Query α} {first second : α} (h : Gives structs query first fits)
    (hFits : fits ↔ others) (hAnswer : others → first = second) :
    Gives structs query second others := by
  intro found hFound
  obtain ⟨hNext, hNoted, hFirst⟩ := h found hFound
  exact ⟨hNext, hNoted.trans (or_congr_right (not_congr hFits)),
    fun hOthers => (hFirst (hFits.mpr hOthers)).trans (hAnswer hOthers)⟩

end Gives

/-- Cutting keeps a number that 32 bits hold, and notes any other. -/
theorem gives_cut (words : Nat) : Gives structs (cut words) words (words < UInt32.size) := by
  intro found hFound
  refine ⟨fun id known hKnown => ?_, ?_, fun hFits => Nat.mod_eq_of_lt hFits⟩
  · obtain ⟨hTakes, hNoted⟩ := hFound id known hKnown
    exact ⟨hTakes, fun hFits => Bool.or_eq_true_iff.mpr (.inl (hNoted hFits))⟩
  · show (found.wrapped || decide (UInt32.size ≤ words)) = true ↔ _
    rw [Bool.or_eq_true_iff, decide_eq_true_iff, Nat.not_lt]

/-- The words of a type are asked for in order, and the answer is right unless
the sum wraps. -/
theorem gives_typeWords (hAcyclic : Acyclic structs) {structWords : Nat → Query Nat}
    (h : ∀ id, ty.struct? = some id →
      Gives structs (structWords id) (wordsOf structs (.struct id)) ((Ty.struct id).Fits structs)) :
    Gives structs (typeWords structWords ty) (wordsOf structs ty) (ty.Fits structs) := by
  induction ty with
  | struct id => exact h id rfl
  | array item length ih =>
      refine ((ih h).bind fun words => (gives_cut (words * length)).bind fun product =>
        gives_cut (1 + product)).congr ?_ fun _ => rfl
      have hArray := @fits_iff_of_acyclic structs (.array item length) hAcyclic
      rw [hArray]
      exact and_congr_right fun _ => and_iff_right_of_imp fun hSum => by omega
  | textLabel capacity =>
      refine ((gives_cut (capacity + 1)).bind fun words => .pure ((words + 3) / 4) trivial).congr ?_
        fun _ => rfl
      rw [fits_iff_of_acyclic hAcyclic, and_true]
  | _ => exact .pure _ ((fits_iff_of_acyclic hAcyclic).mpr trivial)

/-- Fields are added to the words before them as far as 32 bits hold the sum. -/
theorem gives_fieldsWords {measure : Ty → Query Nat} {fields : List Field}
    (h : ∀ field ∈ fields,
      Gives structs (measure field.ty) (wordsOf structs field.ty) (field.ty.Fits structs))
    (start : Nat) : Gives structs (fieldsWords measure start fields)
      (start + totalWords (fun field => wordsOf structs field.ty) fields)
      ((∀ field ∈ fields, field.ty.Fits structs) ∧ (fields = [] ∨
        start + totalWords (fun field => wordsOf structs field.ty) fields < UInt32.size)) := by
  induction fields generalizing start with
  | nil => exact .pure _ (by simp)
  | cons field rest ih =>
      rw [List.forall_mem_cons] at h
      refine (h.1.bind fun size =>
        (gives_cut (start + size)).bind fun total => ih h.2 total).congr ?_
        fun _ => Nat.add_assoc ..
      rw [List.forall_mem_cons, totalWords, ← Nat.add_assoc]
      constructor
      · rintro ⟨hField, hSum, hRest, hEmpty | hTotal⟩
        · exact ⟨⟨hField, hRest⟩, .inr (by rwa [hEmpty, totalWords, Nat.add_zero])⟩
        · exact ⟨⟨hField, hRest⟩, .inr hTotal⟩
      · rintro ⟨⟨hField, hRest⟩, hEmpty | hTotal⟩
        · cases hEmpty
        · exact ⟨hField, by omega, hRest, .inr hTotal⟩

/-- A struct that is measured for the first time: its fields, as far as it is
declared. -/
def measured (structs : Array Struct) (depth id : Nat) : Query Nat :=
  match structs[id]? with
  | some struct => fieldsWords (typeWords (structWords structs depth)) 0 struct.fields
  | none => pure 0

/-- A struct that was measured before is not measured again. -/
theorem run_structWords_known {found : Measured} {words : Nat} (depth : Nat)
    (h : found.known[id]? = some words) :
    (structWords structs (depth + 1) id).run found = (words, found) := by
  simp only [structWords, StateT.run_bind, StateT.run_get, pure_bind, h]
  rfl

/-- A struct that is new is measured and noted with its words. -/
theorem run_structWords_new {found : Measured} {depth : Nat} (h : found.known[id]? = none) :
    (structWords structs (depth + 1) id).run found =
      (((measured structs depth id).run found).1,
        { ((measured structs depth id).run found).2 with
          known := ((measured structs depth id).run found).2.known.insert id
            ((measured structs depth id).run found).1 }) := by
  simp only [structWords, StateT.run_bind, StateT.run_get, pure_bind, h, measured]
  cases structs[id]? <;> rfl

/-- What is remembered stays right when the words of one more struct are noted. -/
theorem Remembers.insert {found : Measured} {words : Nat} (h : Remembers structs found)
    (hTakes : (Ty.struct id).Fits structs → (Ty.struct id).Takes structs words)
    (hNoted : ¬ (Ty.struct id).Fits structs → found.wrapped = true) :
    Remembers structs { found with known := found.known.insert id words } := by
  intro other known hKnown
  rw [Std.TreeMap.getElem?_insert] at hKnown
  split at hKnown
  · next hSame =>
      cases hKnown
      obtain rfl := Std.compare_eq_iff_eq.mp hSame
      exact ⟨hTakes, hNoted⟩
  · exact h other known hKnown

/-- A struct is measured as it is read plainly, be it remembered or not, and so
are the structs in it. -/
theorem gives_structWords (hAcyclic : Acyclic structs) {depth : Nat}
    (h : NestedWithin structs depth id) :
    Gives structs (structWords structs depth id) (wordsOf structs (.struct id))
      ((Ty.struct id).Fits structs) := by
  induction depth generalizing id with
  | zero =>
      have hNone : wordsOf structs (.struct id) = 0 := structWordsWithin_of_none _ h
      rw [hNone]
      exact .pure 0 ((fits_iff_of_acyclic hAcyclic).mpr (by simp [show structs[id]? = none from h]))
  | succ depth ih =>
      have hTakes := takes_wordsOf hAcyclic (.struct id)
      have hMeasured : Gives structs (measured structs depth id) (wordsOf structs (.struct id))
          ((Ty.struct id).Fits structs) := by
        unfold measured
        cases hStruct : structs[id]? with
        | none =>
            have hNone : wordsOf structs (.struct id) = 0 := structWordsWithin_of_none _ hStruct
            rw [hNone]
            exact .pure 0 ((fits_iff_of_acyclic hAcyclic).mpr (by simp [hStruct]))
        | some struct =>
            refine (gives_fieldsWords (fun field hField => gives_typeWords hAcyclic
              fun inner hInner =>
                ih (h inner ⟨struct, hStruct, field, hField, hInner⟩)) 0).congr ?_ ?_
            · rw [fits_iff_of_acyclic hAcyclic, Nat.zero_add]
              simpa [hStruct] using fieldsFit_iff
            · rw [wordsOf_struct hAcyclic hStruct, Nat.zero_add]
              exact fun _ => rfl
      intro found hFound
      cases hKnown : found.known[id]? with
      | some words =>
          rw [run_structWords_known depth hKnown]
          obtain ⟨hTrue, hNoted⟩ := hFound id words hKnown
          exact ⟨hFound, (or_iff_left_of_imp hNoted).symm, fun hFits => (hTrue hFits).unique hTakes⟩
      | none =>
          rw [run_structWords_new hKnown]
          obtain ⟨hNext, hNoted, hAnswer⟩ := hMeasured found hFound
          refine ⟨hNext.insert (fun hFits => ?_) (fun hFits => hNoted.mpr (.inr hFits)), hNoted,
            hAnswer⟩
          rw [hAnswer hFits]
          exact hTakes

theorem gives_fieldPlace? {measure : Ty → Query Nat} {name : String} {fields : List Field}
    (h : ∀ ty, Gives structs (measure ty) (wordsOf structs ty) (ty.Fits structs)) (start : Nat) :
    Gives structs (fieldPlace? measure name start fields)
      (fieldOffset? (wordsOf structs) name start fields)
      ((∀ field ∈ fieldsBefore name fields, field.ty.Fits structs) ∧
        (fieldsBefore name fields = [] ∨ start + totalWords (fun field => wordsOf structs field.ty)
          (fieldsBefore name fields) < UInt32.size)) := by
  induction fields generalizing start with
  | nil => exact .pure _ (by simp [fieldsBefore])
  | cons field rest ih =>
      unfold fieldPlace? fieldOffset?
      split
      · next hName => exact .pure _ (by simp [fieldsBefore, hName])
      · next hName =>
          have hBefore : fieldsBefore name (field :: rest) = field :: fieldsBefore name rest := by
            simp [fieldsBefore, hName]
          refine ((h field.ty).bind fun size => (gives_cut (start + size)).bind fun offset =>
            ih offset).congr ?_ fun _ => rfl
          rw [hBefore, List.forall_mem_cons, totalWords, ← Nat.add_assoc]
          constructor
          · rintro ⟨hField, hSum, hRest, hEmpty | hTotal⟩
            · exact ⟨⟨hField, hRest⟩, .inr (by rwa [hEmpty, totalWords, Nat.add_zero])⟩
            · exact ⟨⟨hField, hRest⟩, .inr hTotal⟩
          · rintro ⟨⟨hField, hRest⟩, hEmpty | hTotal⟩
            · cases hEmpty
            · exact ⟨hField, by omega, hRest, .inr hTotal⟩

/-- What a layout is asked: the size of a type, or the place of a field of a
struct. -/
inductive Question where
  | size (ty : Ty)
  | field (id : Nat) (name : String)

/-- All that is counted for an answer is counted in 32 bits: a type with what it
is made of, or the fields in front of the one that is looked for. -/
def Question.Fits (structs : Array Struct) : Question → Prop
  | .size ty => ty.Fits structs
  | .field id name => ∀ struct, structs[id]? = some struct →
      FieldsFit structs (fieldsBefore name struct.fields)

/-- Fields in front of another one fit if all do. -/
theorem Question.fits_field (hAcyclic : Acyclic structs) (h : (Ty.struct id).Fits structs)
    (name : String) : (Question.field id name).Fits structs := by
  intro struct hStruct
  obtain ⟨hFields, hTotal⟩ := (fits_iff_of_acyclic hAcyclic).mp h struct hStruct
  have hSplit : fieldsBefore name struct.fields ++ _ = struct.fields :=
    List.takeWhile_append_dropWhile
  rw [← hSplit, totalWords_append] at hTotal
  exact ⟨fun field hField => hFields field (List.takeWhile_subset _ hField), by omega⟩

def ask (layout : TypeLayout) : Question → TypeLayout
  | .size ty => (layout.size ty).2
  | .field id name => (layout.field? id name).2

/-- The layout after questions, one behind the other. -/
def askAll (layout : TypeLayout) (questions : List Question) : TypeLayout :=
  questions.foldl ask layout

/-- A layout of given structs that remembers sizes only. -/
structure Truthful (structs : Array Struct) (layout : TypeLayout) : Prop where
  same : layout.structs = structs
  remembers : Remembers structs layout.toMeasured

theorem truthful_ofStructs (structs : Array Struct) : (ofStructs structs).Truthful structs where
  same := rfl
  remembers := by simp [ofStructs, Remembers]

namespace Truthful

variable {layout : TypeLayout}

/-- Whatever was asked before, a type is measured by its words unless the sum
wraps. -/
theorem gives_measure (h : layout.Truthful structs) (hAcyclic : Acyclic structs) (ty : Ty) :
    Gives structs (layout.measure ty) (wordsOf structs ty) (ty.Fits structs) := by
  rw [measure, h.same]
  exact gives_typeWords hAcyclic fun id _ =>
    gives_structWords hAcyclic (nestedWithin_size (hAcyclic.acc id))

/-- A question for a size leaves the layout truthful, and notes whether the sum
has wrapped. -/
theorem size (h : layout.Truthful structs) (hAcyclic : Acyclic structs) (ty : Ty) :
    (layout.size ty).2.Truthful structs ∧
      ((layout.size ty).2.wrapped = true ↔ layout.wrapped = true ∨ ¬ ty.Fits structs) ∧
      (ty.Fits structs → (layout.size ty).1 = wordsOf structs ty) := by
  obtain ⟨hNext, hNoted, hAnswer⟩ := h.gives_measure hAcyclic ty layout.toMeasured h.remembers
  exact ⟨⟨h.same, hNext⟩, hNoted, hAnswer⟩

/-- A question for a field is answered by its place behind the fields before it,
unless the sum wraps. -/
theorem field (h : layout.Truthful structs) (hAcyclic : Acyclic structs) (id : Nat)
    (name : String) :
    (layout.field? id name).2.Truthful structs ∧
      ((layout.field? id name).2.wrapped = true ↔
        layout.wrapped = true ∨ ¬ (Question.field id name).Fits structs) ∧
      ((Question.field id name).Fits structs → (layout.field? id name).1 =
        structs[id]?.bind fun struct => fieldOffset? (wordsOf structs) name 0 struct.fields) := by
  rw [field?, h.same]
  cases hStruct : structs[id]? with
  | none => exact ⟨h, by simp [Question.Fits, hStruct], fun _ => rfl⟩
  | some struct =>
      have hFits : (Question.field id name).Fits structs ↔
          FieldsFit structs (fieldsBefore name struct.fields) := by
        simp [Question.Fits, hStruct]
      have hGives : Gives structs (fieldPlace? layout.measure name 0 struct.fields)
          (fieldOffset? (wordsOf structs) name 0 struct.fields)
          ((Question.field id name).Fits structs) := by
        refine (gives_fieldPlace? (h.gives_measure hAcyclic) 0).congr ?_ fun _ => rfl
        rw [hFits, Nat.zero_add]
        exact fieldsFit_iff
      obtain ⟨hNext, hNoted, hAnswer⟩ := hGives layout.toMeasured h.remembers
      exact ⟨⟨rfl, hNext⟩, hNoted, hAnswer⟩

theorem ask (h : layout.Truthful structs) (hAcyclic : Acyclic structs) (question : Question) :
    (layout.ask question).Truthful structs ∧
      ((layout.ask question).wrapped = true ↔
        layout.wrapped = true ∨ ¬ question.Fits structs) := by
  cases question with
  | size ty => exact ⟨(h.size hAcyclic ty).1, (h.size hAcyclic ty).2.1⟩
  | field id name => exact ⟨(h.field hAcyclic id name).1, (h.field hAcyclic id name).2.1⟩

/-- A layout stays truthful through any questions, in any order. -/
theorem askAll (h : layout.Truthful structs) (hAcyclic : Acyclic structs)
    (questions : List Question) : (layout.askAll questions).Truthful structs := by
  induction questions generalizing layout with
  | nil => exact h
  | cons question rest ih => exact ih (h.ask hAcyclic question).1

end Truthful

/-! Fields -/

def fieldStart (words : Ty → Nat) (fields : List Field) (index : Nat) : Nat :=
  totalWords (fun field => words field.ty) (fields.take index)

theorem fieldStart_succ {words : Ty → Nat} {fields : List Field} {index : Nat} {field : Field}
    (h : fields[index]? = some field) :
    fieldStart words fields (index + 1) = fieldStart words fields index + words field.ty := by
  induction fields generalizing index with
  | nil => cases h
  | cons first rest ih =>
      cases index with
      | zero =>
          cases h
          simp [fieldStart, totalWords]
      | succ index =>
          have hRest : fieldStart words rest (index + 1) =
              fieldStart words rest index + words field.ty := ih h
          simp only [fieldStart, List.take_succ_cons, totalWords] at hRest ⊢
          omega

/-- The first field of a name is found where it begins. -/
theorem fieldOffset?_eq (words : Ty → Nat) (name : String) (start : Nat) (fields : List Field) :
    fieldOffset? words name start fields =
      (fields.findIdx? fun field => Text.sameName field.name name).bind fun index =>
        fields[index]?.map fun field => (start + fieldStart words fields index, field.ty) := by
  induction fields generalizing start with
  | nil => rfl
  | cons first rest ih =>
      rw [fieldOffset?, List.findIdx?_cons]
      split
      · simp [fieldStart, totalWords]
      · rw [ih]
        cases rest.findIdx? fun field => Text.sameName field.name name with
        | none => rfl
        | some index => simp [fieldStart, totalWords, Nat.add_assoc]

/-- Ranges of words, each up to the beginning of the next, without a gap and
without overlap up to an end. -/
structure Tiles (start : Nat → Nat) (count total : Nat) : Prop where
  first : start 0 = 0
  last : start count = total
  covered : ∀ word < total, ∃! index, index < count ∧ start index ≤ word ∧ word < start (index + 1)

theorem start_le_start {start : Nat → Nat} {count index later : Nat}
    (hNext : ∀ index < count, start index ≤ start (index + 1)) (hLater : index ≤ later)
    (hCount : later ≤ count) :
    start index ≤ start later := by
  induction later, hLater using Nat.le_induction with
  | base => exact Nat.le_refl _
  | succ later _ ih => exact (ih (Nat.le_of_succ_le hCount)).trans (hNext later hCount)

/-- Starts in increasing order from zero cut the words behind them into
consecutive pieces. -/
theorem tiles_of_le {start : Nat → Nat} {count : Nat} (hFirst : start 0 = 0)
    (hNext : ∀ index < count, start index ≤ start (index + 1)) :
    Tiles start count (start count) := by
  refine ⟨hFirst, rfl, fun word hWord => ?_⟩
  -- the first beginning behind the word ends the range that has it
  have hBehind : ∃ index, word < start index := ⟨count, hWord⟩
  obtain ⟨index, hIndex⟩ : ∃ index, Nat.find hBehind = index + 1 := by
    refine Nat.exists_eq_succ_of_ne_zero fun hZero => ?_
    have hFound := Nat.find_spec hBehind
    rw [hZero, hFirst] at hFound
    exact Nat.not_lt_zero _ hFound
  have hInside : index + 1 ≤ count := hIndex ▸ Nat.find_min' hBehind hWord
  have hStart : start index ≤ word := Nat.not_lt.mp (Nat.find_min hBehind (by omega))
  have hStop : word < start (index + 1) := hIndex ▸ Nat.find_spec hBehind
  refine ⟨index, ⟨hInside, hStart, hStop⟩, fun other hOther => ?_⟩
  obtain ⟨hCount, hBegin, hEnd⟩ := hOther
  rcases Nat.lt_trichotomy other index with hLess | hSame | hMore
  · have := start_le_start hNext (show other + 1 ≤ index from hLess) (Nat.le_of_lt hInside)
    omega
  · exact hSame
  · have := start_le_start hNext (show index + 1 ≤ other from hMore) (Nat.le_of_lt hCount)
    omega

/-- The answers of a layout are those of the plain reading, as far as 32 bits
hold the numbers that are counted for them. -/
structure ReadsPlainly (structs : Array Struct) (layout : TypeLayout) : Prop where
  size : ∀ ty, ty.Fits structs → ∀ words, (layout.size ty).1 = words ↔ ty.Takes structs words
  /-- A name leads to the first field that has it, which begins behind the
  fields before it; and the fields of a struct tile it in order. -/
  fields : ∀ id struct, structs[id]? = some struct → ∃ start : Nat → Nat,
    start 0 = 0 ∧
    (∀ (index : Nat) field words, struct.fields[index]? = some field →
      field.ty.Takes structs words → start (index + 1) = start index + words) ∧
    (∀ name, (Question.field id name).Fits structs → (layout.field? id name).1 =
      (struct.fields.findIdx? fun field => Text.sameName field.name name).bind fun index =>
        struct.fields[index]?.map fun field => (start index, field.ty)) ∧
    ((Ty.struct id).Fits structs →
      Tiles start struct.fields.length (layout.size (.struct id)).1)
  undeclared : ∀ id name, structs[id]? = none → (layout.field? id name).1 = none
  /-- Numbers of more than 32 bits come up for the other questions, and for no
  others. -/
  wraps : ∀ question, (layout.ask question).wrapped = true ↔
    layout.wrapped = true ∨ ¬ question.Fits structs

/-- Without cycles, every answer is that of the plain reading, whatever has been
asked before. -/
theorem readsPlainly_askAll (hAcyclic : Acyclic structs) (asked : List Question) :
    ReadsPlainly structs ((ofStructs structs).askAll asked) := by
  have hLayout := (truthful_ofStructs structs).askAll hAcyclic asked
  have hTakes := takes_wordsOf hAcyclic
  refine ⟨fun ty hFits words => ?_, fun id struct hStruct => ?_, fun id name hNone => ?_,
    fun question => (hLayout.ask hAcyclic question).2⟩
  · rw [(hLayout.size hAcyclic ty).2.2 hFits]
    exact ⟨fun h => h ▸ hTakes ty, (hTakes ty).unique⟩
  · refine ⟨fieldStart (wordsOf structs) struct.fields, rfl,
      fun index field words hField hWords => ?_, fun name hFits => ?_, fun hFits => ?_⟩
    · rw [fieldStart_succ hField, (hTakes field.ty).unique hWords]
    · rw [(hLayout.field hAcyclic id name).2.2 hFits, hStruct, Option.bind_some, fieldOffset?_eq]
      simp only [Nat.zero_add]
    · have hTotal : wordsOf structs (.struct id) =
          fieldStart (wordsOf structs) struct.fields struct.fields.length := by
        rw [fieldStart, List.take_length, wordsOf_struct hAcyclic hStruct]
      rw [(hLayout.size hAcyclic _).2.2 hFits, hTotal]
      refine tiles_of_le rfl fun index hIndex => ?_
      rw [fieldStart_succ (List.getElem?_eq_getElem hIndex)]
      exact Nat.le_add_right ..
  · have hFits : (Question.field id name).Fits structs := by simp [Question.Fits, hNone]
    rw [(hLayout.field hAcyclic id name).2.2 hFits, hNone]
    rfl

/-- A struct of points, with a number before them and one behind. -/
def pathStructs : Array Struct := #[
  ⟨"POINT", [⟨"pos", .vector, none⟩, ⟨"id", .int, none⟩]⟩,
  ⟨"PATH", [⟨"count", .int, none⟩, ⟨"points", .array (.struct 0) 2, none⟩, ⟨"tag", .float, none⟩]⟩]

theorem acyclic_pathStructs : Acyclic pathStructs := by
  refine acyclic_of_lt fun inner outer hNested => ?_
  obtain ⟨struct, hStruct, field, hField, hInner⟩ := hNested
  match outer with
  | 0 =>
      cases hStruct
      rcases List.mem_pair.mp hField with rfl | rfl <;> cases hInner
  | 1 =>
      cases hStruct
      rcases List.mem_cons.mp hField with rfl | hField
      · cases hInner
      · rcases List.mem_pair.mp hField with rfl | rfl <;> cases hInner
        exact Nat.zero_lt_one
  | outer + 2 => cases hStruct

/-- The number behind the points is found behind them, also when fields have
been looked for before. -/
theorem readsPlainly_askAll_path :
    Acyclic pathStructs ∧
      (((ofStructs pathStructs).askAll [.field 1 "tag", .size (.struct 0)]).size (.struct 1)).1 =
        11 ∧
      (((ofStructs pathStructs).askAll [.field 1 "tag", .size (.struct 0)]).field? 1 "TAG").1 =
        some (10, .float) := by
  have hReads := readsPlainly_askAll acyclic_pathStructs [.field 1 "tag", .size (.struct 0)]
  have hTakes := takes_wordsOf acyclic_pathStructs
  have hFits : (Ty.struct 1).Fits pathStructs :=
    (Sizes.fits_ofStructs acyclic_pathStructs).mp (by decide +kernel)
  have hFound : pathStructs[1].fields.findIdx? (fun field => Text.sameName field.name "TAG") =
      some 2 := by
    simp [pathStructs, List.findIdx?_cons, Text.sameName, Text.lowerCased, Text.asciiLower,
      ← String.toList_inj]
  obtain ⟨start, hFirst, hNext, hField, _⟩ := hReads.fields 1 _ rfl
  refine ⟨acyclic_pathStructs, (hReads.size _ hFits 11).mpr (hTakes (.struct 1)), ?_⟩
  have hCount : start 1 = 1 := by rw [hNext 0 _ 1 rfl (hTakes .int), hFirst]
  have hPoints : start 2 = 10 := by
    rw [hNext 1 _ 9 rfl (hTakes (.array (.struct 0) 2)), hCount]
  rw [hField "TAG" (Question.fits_field acyclic_pathStructs hFits _), hFound, ← hPoints]
  rfl

/-- The plain number of words of a large array has more than 32 bits. The layout
answers with the lower ones of them, and notes it. -/
theorem size_wraps :
    Acyclic #[] ∧ (Ty.array (.array .int 65535) 65536).Takes #[] 4294967297 ∧
      ((ofStructs #[]).size (.array (.array .int 65535) 65536)).1 = 1 ∧
      ((ofStructs #[]).size (.array (.array .int 65535) 65536)).2.wrapped = true := by
  refine ⟨acyclic_of_lt ?_, .array 65536 (.array 65535 .int), by decide, by decide⟩
  rintro inner outer ⟨struct, hStruct, _⟩
  cases hStruct

end TypeLayout
end ScriptBackend
