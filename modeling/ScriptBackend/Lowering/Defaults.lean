import ScriptBackend.Lowering.Environment

/-!
The words that variables begin with: the words of the initializer, or the
defaults of the type. Structs nest without cycles, so they are never nested
deeper than there are structs.
-/
namespace ScriptBackend.Lowering

/-- The words of an initializer of a type. Integers become floats where the type
holds floats. -/
def initializerWords (setting : Setting) (ty : Ty) (e : Expr) :
    Except CompileFault (List Datum) :=
  match fold? setting.program e with
  | none => unsupported .initializerNotConstant
  | some words =>
    let size := setting.sizes.of ty
    if words.length ≠ size then unsupported (.initializerSize words.length ty size)
    else if ty.holdsFloats then .ok (words.map fun word => (word.float?.map .float).getD word)
    else .ok words

/-- The default words of a type when those of structs are given. An array begins
with its length; all its items are alike. -/
def defaultsWith (sizes : Sizes) (structDefaults : Nat → Except CompileFault (List Datum)) :
    Ty → Except CompileFault (List Datum)
  | .struct id => structDefaults id
  | .array item length =>
    let count := Datum.int (Int64.ofNat length)
    if length = 0 then .ok [count]
    else do
      let words ← defaultsWith sizes structDefaults item
      return count :: (List.replicate length words).flatten
  | .float => .ok [.float Binary32.zero]
  | .vector => .ok [.float Binary32.zero, .float Binary32.zero, .float Binary32.zero]
  | ty => .ok (List.replicate (sizes.of ty) (.int 0))

/-- The default words of a struct, structs nested up to a given depth: those of
its fields, where a field may have an initializer of its own. -/
def structDefaultsWithin (setting : Setting) :
    Nat → Nat → Except CompileFault (List Datum)
  | 0, id => unsupported (.undeclaredStruct id)
  | depth + 1, id =>
    match setting.program.structs[id]? with
    | none => unsupported (.undeclaredStruct id)
    | some struct => do
      let words ← struct.fields.mapM fun field =>
        match field.initial with
        | some e => initializerWords setting field.ty e
        | none => defaultsWith setting.sizes (structDefaultsWithin setting depth) field.ty
      return words.flatten

/-- The default words of a type. -/
def defaultWords (setting : Setting) (ty : Ty) : Except CompileFault (List Datum) :=
  defaultsWith setting.sizes
    (structDefaultsWithin setting (setting.program.structs.size + 1)) ty

def initialWords (setting : Setting) (ty : Ty) (initializer : Option Expr) :
    Except CompileFault (List Datum) :=
  match initializer with
  | some e => initializerWords setting ty e
  | none => defaultWords setting ty

end ScriptBackend.Lowering
