import ScriptBackend.Proofs.Program.Frames
import ScriptBackend.Proofs.Program.Sizes

/-!
What the code of a function is made of: the expressions of its statements with
all their parts, the initializers of its locals, and those of the constants that
are mentioned, which stand in for them.
-/
namespace ScriptBackend

def Expr.children : Expr → List Expr
  | .vector _ x y z => [x, y, z]
  | .neg _ operand | .not _ operand | .convert _ operand => [operand]
  | .binary _ _ left right => [left, right]
  | .member _ base _ => [base]
  | .index _ array position => [array, position]
  | .call _ _ passed | .callNative _ _ passed => passed
  | .callThrough _ target passed => target :: passed
  | _ => []

/-- The expressions that the code of a statement evaluates or stores to,
statements inside left out. An assignment with an operator stores the target
combined with the source, and so does a counting loop. -/
def Stmt.expressions (program : Program) : Stmt → List Expr
  | .declare id => [.ofVariable program id]
  | .assign target none source => [target, source]
  | .assign target (some op) source => [target, .combined op target source]
  | .branch arms _ => arms.map Prod.fst
  | .loop condition _ => [condition]
  | .countUp limit counter _ => [limit, counter, .ofInt 0, .combined .add counter (.ofInt 1)]
  | .select scrutinee _ => [scrutinee]
  | .ret (some e) | .evaluate e => [e]
  | _ => []

/-- The expressions whose code belongs to a function. -/
inductive Function.Uses (program : Program) (function : Function) : Expr → Prop where
  | body {s : Stmt} {e : Expr} (inside : s ∈ Stmt.blockParts function.body)
      (own : e ∈ s.expressions program) : Function.Uses program function e
  | part {e child : Expr} (whole : Function.Uses program function e) (inside : child ∈ e.children) :
      Function.Uses program function child
  | initializer {id : Nat} {declared : Variable} {e : Expr} (own : id ∈ function.locals)
      (declaration : program.vars[id]? = some declared)
        (initialized : declared.initializer = some e) :
      Function.Uses program function e
  | constant {info : Info} {id : Nat} {declared : Variable} {e : Expr}
      (mentioned : Function.Uses program function (.var info id))
      (declaration : program.vars[id]? = some declared) (storage : declared.storage = .constant)
      (initialized : declared.initializer = some e) : Function.Uses program function e

/-- A function that mentions no variables in the frames of other functions. -/
def Function.KeepsToOwn (program : Program) (function : Function) : Prop :=
  ∀ info id, function.Uses program (.var info id) → id ∈ program.frameIds → id ∈ function.frameIds

/-- Whether an expression that names a place has the type of the place: a
variable the one it is declared with, a member that of the field, and an element
that of the items of its array. -/
def Expr.NamesPlace (program : Program) : Expr → Prop
  | .var info id => ∀ declared, program.vars[id]? = some declared → info.ty = declared.ty.target
  | .member info base field => info.ty = (Expr.memberOf program base field).ty
  | .index info array _ => ∃ length, array.ty = .array info.ty length
  | _ => True

theorem Expr.ty_memberOf_vector {program : Program} {base : Expr} {field : String}
    (h : base.ty = .vector) : (memberOf program base field).ty = .float := by
  unfold memberOf
  rw [h]
  rfl

theorem Expr.ty_memberOf_struct {program : Program} {base : Expr} {field : String} {id : Nat}
    {declared : Field} (h : base.ty = .struct id)
    (hField : program.structs[id]?.bind (·.field? field) = some declared) :
    (memberOf program base field).ty = declared.ty := by
  unfold memberOf
  rw [h]
  dsimp only
  rw [hField]
  rfl

/-- A function whose places have the types of their declarations, in a program
without structs that contain themselves. -/
structure Function.IsTyped (program : Program) (function : Function) : Prop where
  places : ∀ e, function.Uses program e → e.NamesPlace program
  finite : ∀ id, Acc (Nested program.structs) id

end ScriptBackend
