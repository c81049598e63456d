import ScriptBackend.Program.Expr
import ScriptBackend.Text.Bytes

/-!
Programs: declarations by position, and functions whose bodies are typed
statements. The smart constructors of expressions derive type, constancy and
place from the parts, as a checker does.
-/
namespace ScriptBackend

/-- Where the words of a variable are. -/
inductive Region where
  | globals
  | statics
  /-- Statics that whoever launches the script fills in. -/
  | arguments
  | locals
  | parameters
deriving DecidableEq, Inhabited

/-- How a variable is kept. -/
inductive Storage where
  /-- Known at compile time and never stored. -/
  | constant
  | placed (region : Region)
deriving DecidableEq, Inhabited

/-- A statement of a function body. -/
inductive Stmt where
  /-- A local comes into being; its initializer runs here. -/
  | declare (id : Nat)
  /-- An assignment, combined with an operator if there is one. -/
  | assign (target : Expr) (op : Option BinaryOp) (value : Expr)
  /-- The first arm whose condition holds, or else the other statements. -/
  | branch (arms : List (Expr × List Stmt)) (otherwise : List Stmt)
  | loop (condition : Expr) (body : List Stmt)
  /-- The counter runs from zero while it is below the limit. -/
  | countUp (limit counter : Expr) (body : List Stmt)
  /-- Cases with their values; a case without a value is the default. -/
  | select (value : Expr) (cases : List (Option Int32 × List Stmt))
  | breakOut
  | continueLoop
  | goto (name : String)
  | label (name : String)
  | ret (value : Option Expr)
  /-- An expression evaluated for its effects. -/
  | evaluate (expression : Expr)
deriving Inhabited

/-- A field of a struct, with the constant it begins as if one is given. -/
structure Field where
  name : String
  ty : Ty
  initial : Option Expr
deriving Inhabited

/-- A struct: its fields follow each other in memory. -/
structure Struct where
  name : String
  fields : List Field
deriving Inhabited

/-- The signature of function pointers. -/
structure Prototype where
  name : String
  parameters : List Ty
  result : Ty
deriving Inhabited

/-- A native as the program declares it. -/
structure NativeSignature where
  name : String
  parameters : List Ty
  result : Ty
deriving Inhabited

/-- A variable of any kind. -/
structure Variable where
  name : String
  ty : Ty
  storage : Storage
  initializer : Option Expr
deriving Inhabited

/-- A function. Its parameters are variables; procedures have the result type
`void`. -/
structure Function where
  name : String
  parameters : List Nat
  result : Ty
  body : List Stmt
deriving Inhabited

/-- A checked program. -/
structure Program where
  name : String
  /-- The hash of the script if the program fixes it. -/
  hash : Option UInt32
  /-- The block of globals that the script owns. -/
  globalsBlock : Option UInt8
  structs : Array Struct
  prototypes : Array Prototype
  vars : Array Variable
  functions : Array Function
  natives : Array NativeSignature
deriving Inhabited

namespace Program

/-- The position of the first function with a given name, the case of ASCII
letters ignored. -/
def functionNamed? (program : Program) (name : String) : Option Nat :=
  program.functions.findIdx? fun function => Text.sameName function.name name

def functionName? (program : Program) (id : Nat) : Option String :=
  program.functions[id]?.map Function.name

end Program

/-- The first field with a given name, the case of ASCII letters ignored. -/
def Struct.field? (struct : Struct) (name : String) : Option Field :=
  struct.fields.find? fun field => Text.sameName field.name name

namespace Expr

def literalInfo (ty : Ty) : Info :=
  ⟨ty, true, false⟩

def ofInt (value : Int32) : Expr :=
  .int (literalInfo .int) value

def ofFloat (value : Binary32) : Expr :=
  .float (literalInfo .float) value

def ofBool (value : Bool) : Expr :=
  .bool (literalInfo .bool) value

def ofText (value : String) : Expr :=
  .text (literalInfo .string) value

def ofNull (ty : Ty) : Expr :=
  .null (literalInfo ty)

def ofComponents (x y z : Expr) : Expr :=
  .vector ⟨.vector, x.isConstant && y.isConstant && z.isConstant, false⟩ x y z

/-- The use of a variable. A constant is substituted, every other variable is a
place. -/
def ofVariable (program : Program) (id : Nat) : Expr :=
  let (ty, constant) :=
    match program.vars[id]? with
    | some declared => (declared.ty.target, declared.storage == .constant)
    | none => (.void, false)
  .var ⟨ty, constant, !constant⟩ id

/-- The address of a function as a pointer of a given prototype. -/
def ofFunction (id prototype : Nat) : Expr :=
  .functionRef (literalInfo (.functionPointer prototype)) id

def negated (operand : Expr) : Expr :=
  .neg ⟨operand.ty, operand.isConstant, false⟩ operand

def inverted (operand : Expr) : Expr :=
  .not ⟨.bool, operand.isConstant, false⟩ operand

/-- Two values combined. A vector on the right makes the result a vector. -/
def combined (op : BinaryOp) (left right : Expr) : Expr :=
  let ty :=
    if op.isLogical then .bool
    else if right.ty = .vector then .vector
    else left.ty
  .binary ⟨ty, left.isConstant && right.isConstant, false⟩ op left right

def memberOf (program : Program) (base : Expr) (field : String) : Expr :=
  let ty :=
    match base.ty with
    | .vector => .float
    | .struct id =>
      match program.structs[id]?.bind (·.field? field) with
      | some found => found.ty
      | none => .void
    | _ => .void
  .member ⟨ty, false, base.isPlace⟩ base field

def elementOf (array position : Expr) : Expr :=
  let ty :=
    match array.ty with
    | .array item _ => item
    | _ => .void
  .index ⟨ty, false, array.isPlace⟩ array position

/-- What is known about the result of a call, which is nothing for a callee that
is not declared. -/
def resultInfo (result : Option Ty) : Info :=
  ⟨result.getD .void, false, false⟩

def callOf (program : Program) (id : Nat) (arguments : List Expr) : Expr :=
  .call (resultInfo (program.functions[id]?.map (·.result))) id arguments

def nativeCallOf (program : Program) (id : Nat) (arguments : List Expr) : Expr :=
  .callNative (resultInfo (program.natives[id]?.map (·.result))) id arguments

def callThroughOf (program : Program) (target : Expr) (arguments : List Expr) : Expr :=
  let result :=
    match target.ty with
    | .functionPointer prototype => program.prototypes[prototype]?.map (·.result)
    | _ => none
  .callThrough (resultInfo result) target arguments

def converted (operand : Expr) (ty : Ty) : Expr :=
  .convert ⟨ty, operand.isConstant, false⟩ operand

end Expr
end ScriptBackend
