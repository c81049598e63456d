import Std.Data.TreeMap
import ScriptBackend.Program.Basic
import ScriptBackend.Program.Fault

/-!
Sizes of types in words and offsets of fields in structs. The plain definitions
recur through nested structs and count as far as is needed; a layout answers the
same questions in 32 bits and remembers the structs it has measured. Lowering
knows the plain sizes of all structs, and stops where 32 bits do not hold one.
Nesting without cycles is never deeper than the number of structs, which bounds
the recursion.
-/
namespace ScriptBackend

/-! Plain sizes -/

def totalWords {α : Type} (words : α → Nat) : List α → Nat
  | [] => 0
  | item :: rest => words item + totalWords words rest

/-- The size of a type when the sizes of the structs are given. The length of an
array takes a word in front of the items, a text label has four characters a
word and a terminator. -/
def Ty.words (structWords : Nat → Nat) : Ty → Nat
  | .void => 0
  | .vector => 3
  | .textLabel capacity => (capacity + 4) / 4
  | .array item length => 1 + item.words structWords * length
  | .struct id => structWords id
  | _ => 1

/-- The size of a struct: the sum of its fields, structs nested up to a given
depth. A struct that is not declared has no words. -/
def structWordsWithin (structs : Array Struct) : Nat → Nat → Nat
  | 0, _ => 0
  | depth + 1, id =>
    match structs[id]? with
    | some struct =>
      totalWords (fun field => field.ty.words (structWordsWithin structs depth)) struct.fields
    | none => 0

def wordsOf (structs : Array Struct) (ty : Ty) : Nat :=
  ty.words (structWordsWithin structs structs.size)

def fieldOffset? (words : Ty → Nat) (name : String) : Nat → List Field → Option (Nat × Ty)
  | _, [] => none
  | offset, field :: rest =>
    if Text.sameName field.name name then some (offset, field.ty)
    else fieldOffset? words name (offset + words field.ty) rest

/-- The fields in front of the first one with a given name; all of them if there
is none. -/
def fieldsBefore (name : String) (fields : List Field) : List Field :=
  fields.takeWhile fun field => !Text.sameName field.name name

/-! Layouts -/

/-- What a layout has found out: sizes of structs, and whether 32 bits were too
few on the way. -/
structure Measured where
  known : Std.TreeMap Nat Nat
  /-- Some number of words had more than 32 bits. A build that checks for
  overflow stops there, the others go on with the lower 32 bits. -/
  wrapped : Bool

/-- The structs of a program with what has been found out about them so far. -/
structure TypeLayout extends Measured where
  structs : Array Struct

namespace TypeLayout

/-- A computation that may use and extend what has been found out. -/
abbrev Query := StateM Measured

def ofStructs (structs : Array Struct) : TypeLayout :=
  ⟨⟨∅, false⟩, structs⟩

/-- The lower 32 bits of a number of words. It is noted when these are not all
of it. -/
def cut (words : Nat) : Query Nat :=
  modifyGet fun found =>
    (words % UInt32.size,
      { found with wrapped := found.wrapped || decide (UInt32.size ≤ words) })

/-- The size of a type by a way to measure structs. -/
def typeWords (structWords : Nat → Query Nat) : Ty → Query Nat
  | .void => pure 0
  | .vector => pure 3
  | .textLabel capacity => do return ((← cut (capacity + 1)) + 3) / 4
  | .array item length => do
    let words ← typeWords structWords item
    cut (1 + (← cut (words * length)))
  | .struct id => structWords id
  | _ => pure 1

/-- The sizes of fields added to the words in front of them. -/
def fieldsWords (words : Ty → Query Nat) : Nat → List Field → Query Nat
  | total, [] => pure total
  | total, field :: rest => do
    let size ← words field.ty
    fieldsWords words (← cut (total + size)) rest

/-- The size of a struct: remembered, or measured and remembered. -/
def structWords (structs : Array Struct) : Nat → Nat → Query Nat
  | 0, _ => pure 0
  | depth + 1, id => do
    match (← get).known[id]? with
    | some words => pure words
    | none =>
      let words ←
        match structs[id]? with
        | some struct => fieldsWords (typeWords (structWords structs depth)) 0 struct.fields
        | none => pure 0
      modify fun found => { found with known := found.known.insert id words }
      pure words

/-- The offset and type of the first field with a given name, fields before it
measured. -/
def fieldPlace? (words : Ty → Query Nat) (name : String) :
    Nat → List Field → Query (Option (Nat × Ty))
  | _, [] => pure none
  | offset, field :: rest =>
    if Text.sameName field.name name then pure (some (offset, field.ty))
    else do
      let size ← words field.ty
      fieldPlace? words name (← cut (offset + size)) rest

def measure (layout : TypeLayout) : Ty → Query Nat :=
  typeWords (structWords layout.structs layout.structs.size)

/-- The size of a type, and the layout with what was found out meanwhile. -/
def size (layout : TypeLayout) (ty : Ty) : Nat × TypeLayout :=
  let (words, found) := (layout.measure ty).run layout.toMeasured
  (words, { layout with toMeasured := found })

/-- The offset and type of a field of a struct, and the layout with what was
found out. -/
def field? (layout : TypeLayout) (id : Nat) (name : String) : Option (Nat × Ty) × TypeLayout :=
  match layout.structs[id]? with
  | none => (none, layout)
  | some struct =>
    let (place, found) :=
      (fieldPlace? layout.measure name 0 struct.fields).run layout.toMeasured
    (place, { layout with toMeasured := found })

end TypeLayout

/-! Sizes of all structs -/

/-- The structs of a program with the sizes of all of them. -/
structure Sizes where
  structs : Array Struct
  structWords : Array Nat
  /-- By struct, whether 32 bits hold its size and the sizes of all that it is
  made of. -/
  structFits : Array Bool

namespace Sizes

/-- Takes a step again and again until it changes nothing, at most a given
number of times. -/
def untilStable {α : Type} [DecidableEq α] (step : α → α) : Nat → α → α
  | 0, found => found
  | rounds + 1, found =>
    let next := step found
    if next = found then found else untilStable step rounds next

/-- The sizes of all structs, when sizes that they are taken to have are given. -/
def remeasured (structs : Array Struct) (known : Array Nat) : Array Nat :=
  structs.map fun struct =>
    totalWords (fun field => field.ty.words fun id => known.getD id 0) struct.fields

/-- Whether 32 bits hold the size of a type and of all that it is made of, when
this is known of structs. -/
def typeFits (words : Ty → Nat) (structFits : Nat → Bool) : Ty → Bool
  | .textLabel capacity => capacity + 1 < UInt32.size
  | .array item length =>
    typeFits words structFits item && 1 + words item * length < UInt32.size
  | .struct id => structFits id
  | _ => true

/-- Whether 32 bits hold the sizes of fields and their sum. -/
def fieldsFit (words : Ty → Nat) (fits : Ty → Bool) (fields : List Field) : Bool :=
  fields.all (fun field => fits field.ty) &&
    totalWords (fun field => words field.ty) fields < UInt32.size

/-- Which structs are held by 32 bits, when it is given which are taken to be. -/
def rechecked (structs : Array Struct) (words : Ty → Nat) (known : Array Bool) : Array Bool :=
  structs.map fun struct =>
    fieldsFit words (typeFits words fun id => known.getD id true) struct.fields

/-- Measures all structs of a program. A struct that contains itself has no
size; whatever it is given here changes nothing about the others. -/
def ofStructs (structs : Array Struct) : Sizes :=
  let rounds := structs.size
  let words := untilStable (remeasured structs) rounds (Array.replicate rounds 0)
  let ofTy := Ty.words fun id => words.getD id 0
  ⟨structs, words, untilStable (rechecked structs ofTy) rounds (Array.replicate rounds true)⟩

def of (sizes : Sizes) (ty : Ty) : Nat :=
  ty.words fun id => sizes.structWords.getD id 0

/-- Whether 32 bits hold the size of a type and of all that it is made of. -/
def fits (sizes : Sizes) : Ty → Bool :=
  typeFits sizes.of fun id => sizes.structFits.getD id true

def guarded (enough : Bool) : Except CompileFault Unit :=
  if enough then .ok () else .error (.unsupported .overflow)

/-- The size of a type, if 32 bits hold it and the sizes of all that the type is
made of. -/
def measure (sizes : Sizes) (ty : Ty) : Except CompileFault Nat := do
  guarded (sizes.fits ty)
  return sizes.of ty

/-- The sizes of types and their sum, if 32 bits hold them all. -/
def measureAll (sizes : Sizes) (types : List Ty) : Except CompileFault Nat := do
  let words := totalWords sizes.of types
  guarded (types.all sizes.fits && words < UInt32.size)
  return words

def isWord (sizes : Sizes) (ty : Ty) : Except CompileFault Bool :=
  return (← sizes.measure ty) = 1

def field? (sizes : Sizes) (id : Nat) (name : String) : Option (Nat × Ty) :=
  sizes.structs[id]?.bind fun struct => fieldOffset? sizes.of name 0 struct.fields

/-- Whether 32 bits hold the offset of a field and the sizes of the fields in
front of it. -/
def fieldFits (sizes : Sizes) (id : Nat) (name : String) : Bool :=
  sizes.structs[id]?.all fun struct =>
    fieldsFit sizes.of sizes.fits (fieldsBefore name struct.fields)

end Sizes
end ScriptBackend
