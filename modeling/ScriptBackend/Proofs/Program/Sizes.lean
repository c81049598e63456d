import Mathlib.Data.Finset.Card
import Mathlib.Data.Finset.Range
import Mathlib.Logic.Function.Iterate
import Mathlib.Logic.Relation
import ScriptBackend.Program.TypeLayout
import ScriptBackend.Proofs.Outcome

/-!
The size of a struct is the sum of the sizes of its fields, whatever other
structs a program declares. Structs are measured round by round; a struct that
does not contain itself has its size after as many rounds as there are structs,
because on the way down through its fields no struct comes twice.
-/
namespace ScriptBackend

def Ty.struct? : Ty → Option Nat
  | .struct id => some id
  | .array item _ => item.struct?
  | _ => none

/-- A struct has a field whose values are made of those of another struct. -/
def Nested (structs : Array Struct) (inner outer : Nat) : Prop :=
  ∃ struct, structs[outer]? = some struct ∧ ∃ field ∈ struct.fields, field.ty.struct? = some inner

/-- The type has a size: on the way down through its structs one comes to an end. -/
def Ty.HasSize (structs : Array Struct) (ty : Ty) : Prop :=
  ∀ id, ty.struct? = some id → Acc (Nested structs) id

variable {structs : Array Struct} {id : Nat} {ty : Ty}

/-- The words of a type depend on those of the struct that its values are made
of, and on no others. -/
theorem Ty.words_congr {first second : Nat → Nat}
    (h : ∀ id, ty.struct? = some id → first id = second id) : ty.words first = ty.words second := by
  induction ty with
  | struct id => exact h id rfl
  | array item length ih => rw [words, words, ih h]
  | _ => rfl

theorem Ty.HasSize.field {struct : Struct} {field : Field} (h : (Ty.struct id).HasSize structs)
    (hStruct : structs[id]? = some struct) (hField : field ∈ struct.fields) :
    field.ty.HasSize structs :=
  fun _ hInner => (h id rfl).inv ⟨struct, hStruct, field, hField, hInner⟩

/-- Where no struct has a field made of structs, every type has a size. -/
theorem Ty.hasSize_of_flat
    (h : ∀ struct ∈ structs, ∀ field ∈ struct.fields, field.ty.struct? = none) (ty : Ty) :
    ty.HasSize structs := by
  refine fun outer _ => ⟨outer, fun inner hNested => ?_⟩
  obtain ⟨struct, hStruct, field, hField, hInner⟩ := hNested
  rw [h struct (Array.mem_of_getElem? hStruct) field hField] at hInner
  cases hInner

theorem totalWords_congr {α : Type} {first second : α → Nat} {items : List α}
    (h : ∀ item ∈ items, first item = second item) :
    totalWords first items = totalWords second items := by
  induction items with
  | nil => rfl
  | cons item rest ih =>
      rw [List.forall_mem_cons] at h
      rw [totalWords, totalWords, h.1, ih h.2]

theorem totalWords_append {α : Type} {words : α → Nat} (first second : List α) :
    totalWords words (first ++ second) = totalWords words first + totalWords words second := by
  induction first with
  | nil => exact (Nat.zero_add _).symm
  | cons item rest ih => rw [List.cons_append, totalWords, ih, totalWords, Nat.add_assoc]

/-- One more level of nesting: the fields are measured with one level less. -/
theorem structWordsWithin_succ {struct : Struct} (depth : Nat) (h : structs[id]? = some struct) :
    structWordsWithin structs (depth + 1) id =
      totalWords (fun field => field.ty.words (structWordsWithin structs depth)) struct.fields := by
  rw [structWordsWithin, h]

/-- A struct that is not declared takes no words. -/
theorem structWordsWithin_of_none (depth : Nat) (h : structs[id]? = none) :
    structWordsWithin structs depth id = 0 := by
  cases depth with
  | zero => rfl
  | succ depth => rw [structWordsWithin, h]

/-- Nothing is below itself where one comes to an end on the way down. -/
theorem not_self_of_acc {α : Type} {below : α → α → Prop} {a : α} (h : Acc below a) :
    ¬ below a a := by
  induction h with
  | intro a _ ih => exact fun hSelf => ih a hSelf hSelf

/-- Structs of a program that are all different are no more than the program has. -/
theorem length_le_of_nodup {path : List Nat} (hPath : path.Nodup)
    (hDeclared : ∀ id ∈ path, id < structs.size) : path.length ≤ structs.size := by
  rw [← List.toFinset_card_of_nodup hPath, ← Finset.card_range structs.size]
  apply Finset.card_le_card
  intro id hId
  exact Finset.mem_range.mpr (hDeclared id (List.mem_toFinset.mp hId))

/-- Below a struct others are nested at most to a given depth. A struct that is
not declared has none below it. -/
def NestedWithin (structs : Array Struct) : Nat → Nat → Prop
  | 0, id => structs[id]? = none
  | depth + 1, id => ∀ inner, Nested structs inner id → NestedWithin structs depth inner

/-- A struct below those of a path has no more levels below it than there are
structs besides those of the path. -/
theorem nestedWithin_of_path (h : Acc (Nested structs) id) :
    ∀ (depth : Nat) (path : List Nat), path.Nodup →
      (∀ outer ∈ path, outer < structs.size ∧ Relation.TransGen (Nested structs) id outer) →
      structs.size ≤ depth + path.length → NestedWithin structs depth id := by
  induction h with
  | intro id hBelow ih =>
      intro depth path hPath hAbove hReach
      cases hStruct : structs[id]? with
      | none =>
          cases depth with
          | zero => exact hStruct
          | succ depth =>
              rintro inner ⟨struct, hDeclared, _⟩
              cases hStruct.symm.trans hDeclared
      | some struct =>
          have hFresh : id ∉ path := fun hMem =>
            not_self_of_acc (Acc.intro id hBelow).transGen (hAbove id hMem).2
          have hLonger : (id :: path).Nodup := List.nodup_cons.mpr ⟨hFresh, hPath⟩
          have hDeclared : ∀ outer ∈ id :: path, outer < structs.size := by
            intro outer hOuter
            rcases List.mem_cons.mp hOuter with rfl | hOuter
            · exact (Array.getElem?_eq_some_iff.mp hStruct).1
            · exact (hAbove outer hOuter).1
          have hRoom := length_le_of_nodup hLonger hDeclared
          rw [List.length_cons] at hRoom
          cases depth with
          | zero => omega
          | succ depth =>
              intro inner hNested
              refine ih inner hNested depth (id :: path) hLonger (fun outer hOuter => ?_) ?_
              · refine ⟨hDeclared outer hOuter, ?_⟩
                rcases List.mem_cons.mp hOuter with rfl | hOuter
                · exact .single hNested
                · exact .head hNested (hAbove outer hOuter).2
              · rw [List.length_cons]
                omega

/-- Without cycles no struct has more levels below it than there are structs. -/
theorem nestedWithin_size (h : Acc (Nested structs) id) : NestedWithin structs structs.size id :=
  nestedWithin_of_path h structs.size [] List.nodup_nil (by simp) (by simp)

/-- Levels below the last struct change nothing. -/
theorem structWordsWithin_stable {depth : Nat} (h : NestedWithin structs depth id) :
    structWordsWithin structs depth id = structWordsWithin structs (depth + 1) id := by
  induction depth generalizing id with
  | zero => rw [structWordsWithin_of_none _ h, structWordsWithin_of_none _ h]
  | succ depth ih =>
      cases hStruct : structs[id]? with
      | none => rw [structWordsWithin_of_none _ hStruct, structWordsWithin_of_none _ hStruct]
      | some struct =>
          rw [structWordsWithin_succ _ hStruct, structWordsWithin_succ _ hStruct]
          exact totalWords_congr fun field hField => Ty.words_congr fun inner hInner =>
            ih (h inner ⟨struct, hStruct, field, hField, hInner⟩)

namespace Sizes

/-- A round measures the structs one level deeper than the round before it. -/
theorem getD_remeasured {known : Array Nat} {depth : Nat}
    (h : ∀ id, known.getD id 0 = structWordsWithin structs depth id) (id : Nat) :
    (remeasured structs known).getD id 0 = structWordsWithin structs (depth + 1) id := by
  have hKnown : (fun id => known.getD id 0) = structWordsWithin structs depth := funext h
  rw [remeasured, hKnown, Array.getD_eq_getD_getElem?, Array.getElem?_map]
  cases hStruct : structs[id]? with
  | none => rw [structWordsWithin_of_none _ hStruct]; rfl
  | some struct => rw [structWordsWithin_succ _ hStruct]; rfl

/-- A step that changes nothing is the last one: all later ones are like it. -/
theorem untilStable_eq {α : Type} [DecidableEq α] (step : α → α) (rounds : Nat) (found : α) :
    untilStable step rounds found = step^[rounds] found := by
  induction rounds generalizing found with
  | zero => rfl
  | succ rounds ih =>
      rw [untilStable, Function.iterate_succ_apply]
      split
      · next hSame => rw [hSame, Function.iterate_fixed hSame]
      · exact ih (step found)

/-- A round of measuring settles one more level of nesting. -/
theorem getD_iterate_remeasured (rounds : Nat) {known : Array Nat} {depth : Nat}
    (h : ∀ id, known.getD id 0 = structWordsWithin structs depth id) (id : Nat) :
    ((remeasured structs)^[rounds] known).getD id 0 =
      structWordsWithin structs (depth + rounds) id := by
  induction rounds generalizing known depth with
  | zero => exact h id
  | succ rounds ih =>
      rw [Function.iterate_succ_apply, ← Nat.succ_add_eq_add_succ]
      exact ih (getD_remeasured h)

/-- Measuring all structs in rounds gives every type the size that the plain
definition gives it. -/
theorem of_ofStructs (structs : Array Struct) (ty : Ty) :
    (ofStructs structs).of ty = wordsOf structs ty := by
  refine Ty.words_congr fun id _ => ?_
  simp only [ofStructs, untilStable_eq]
  refine (getD_iterate_remeasured _ (fun id => ?_) id).trans (by rw [Nat.zero_add])
  simp [structWordsWithin, Array.getD_eq_getD_getElem?, Array.getElem?_replicate]
  split <;> rfl

/-- A struct that does not contain itself takes the words of its fields. -/
theorem of_struct {struct : Struct} (h : (Ty.struct id).HasSize structs)
    (hStruct : structs[id]? = some struct) :
    (ofStructs structs).of (.struct id) =
      totalWords (fun field => (ofStructs structs).of field.ty) struct.fields := by
  simp only [of_ofStructs]
  show structWordsWithin structs structs.size id = _
  rw [structWordsWithin_stable (nestedWithin_size (h id rfl)), structWordsWithin_succ _ hStruct]
  rfl

theorem guarded_eq_ok {enough : Bool} : guarded enough = .ok () ↔ enough = true := by
  cases enough <;> simp [guarded]

/-- A size that 32 bits hold is the plain one. -/
theorem of_eq_of_measure {sizes : Sizes} {words : Nat} (h : sizes.measure ty = .ok words) :
    sizes.of ty = words := by
  obtain ⟨_, _, h⟩ := Outcome.bind_eq_ok.mp h
  cases h
  rfl

/-- Types that are measured in order take the sum of their words. -/
theorem totalWords_eq_of_measureAll {sizes : Sizes} {types : List Ty} {words : Nat}
    (h : sizes.measureAll types = .ok words) : totalWords sizes.of types = words := by
  obtain ⟨_, _, h⟩ := Outcome.bind_eq_ok.mp h
  cases h
  rfl

theorem of_eq_of_isWord {sizes : Sizes} {word : Bool} (h : sizes.isWord ty = .ok word) :
    word = decide (sizes.of ty = 1) := by
  obtain ⟨words, hWords, h⟩ := Outcome.bind_eq_ok.mp h
  cases h
  rw [of_eq_of_measure hWords]

/-- A reference is a word. -/
theorem of_isRef {sizes : Sizes} (h : ty.isRef = true) : sizes.of ty = 1 := by
  cases ty <;> first | rfl | cases h

end Sizes

/-- A field that is found lies among the words of all fields, and has the type
that the program gives it. -/
theorem fieldOffset?_bounds {words : Ty → Nat} {name : String} {start offset : Nat}
    {fields : List Field} {ty : Ty} (h : fieldOffset? words name start fields = some (offset, ty)) :
    start ≤ offset ∧
      offset + words ty ≤ start + totalWords (fun field => words field.ty) fields := by
  induction fields generalizing start with
  | nil => cases h
  | cons first rest ih =>
      rw [totalWords]
      unfold fieldOffset? at h
      split at h
      · cases h
        omega
      · obtain ⟨hLow, hHigh⟩ := ih h
        omega

/-- The field that is found by a name has the type found with it. -/
theorem fieldOffset?_type {words : Ty → Nat} {name : String} {start offset : Nat}
    {fields : List Field} {ty : Ty} (h : fieldOffset? words name start fields = some (offset, ty)) :
    ∃ field, fields.find? (fun field => Text.sameName field.name name) = some field ∧
      field.ty = ty := by
  induction fields generalizing start with
  | nil => cases h
  | cons first rest ih =>
      unfold fieldOffset? at h
      split at h
      · next hName =>
          cases h
          exact ⟨first, List.find?_cons_of_pos hName, rfl⟩
      · next hName =>
          obtain ⟨field, hField, hTy⟩ := ih h
          exact ⟨field, by simp [hName, hField], hTy⟩

end ScriptBackend
