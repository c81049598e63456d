import ScriptBackend.Assembly.Statement
import ScriptBackend.Binary32.Arithmetic
import ScriptBackend.Program.Basic

/-!
Data: words that are known at compile time, and the operators on them.
-/
namespace ScriptBackend.Lowering

open ScriptBackend.Assembly

/-- A word that is known at compile time. -/
inductive Datum where
  | int (value : Int64)
  | float (value : Binary32)
  /-- The offset of a string. -/
  | text (value : String)
  /-- The address of a function. -/
  | address (function : String)
deriving DecidableEq, Inhabited

namespace Datum

def ofInt32 (value : Int32) : Datum :=
  .int value.toInt64

def ofBool (value : Bool) : Datum :=
  .int (if value then 1 else 0)

def isZero : Datum → Bool
  | .int value => value == 0
  | .float value => value == Binary32.zero
  | .text _ | .address _ => false

def isNumber : Datum → Bool
  | .int _ | .float _ => true
  | .text _ | .address _ => false

/-- The word as a 32-bit integer if it is an integer. -/
def int32? : Datum → Option Int32
  | .int value => some value.toInt32
  | _ => none

def float? : Datum → Option Binary32
  | .float value => some value
  | .int value => some (Binary32.ofInt value.toInt32.toInt)
  | _ => none

def operand : Datum → Operand
  | .int value => .int value
  | .float value => .float value
  | .text value => .text value
  | .address function => .name function

/-- The integer operators. They wrap around; a quotient that does not exist or
does not fit has no value. -/
def foldInt (op : BinaryOp) (a b : Int32) : Option Datum :=
  let divides := b != 0 && !(a == Int32.minValue && b == -1)
  match op with
  | .add => some (ofInt32 (a + b))
  | .sub => some (ofInt32 (a - b))
  | .mul => some (ofInt32 (a * b))
  | .div => if divides then some (ofInt32 (a / b)) else none
  | .mod => if divides then some (ofInt32 (a % b)) else none
  | .bitAnd => some (ofInt32 (a &&& b))
  | .bitOr => some (ofInt32 (a ||| b))
  | .bitXor => some (ofInt32 (a ^^^ b))
  | .eq => some (ofBool (a == b))
  | .ne => some (ofBool (a != b))
  | .gt => some (ofBool (b < a))
  | .ge => some (ofBool (b ≤ a))
  | .lt => some (ofBool (a < b))
  | .le => some (ofBool (a ≤ b))
  | .and => some (ofBool (a != 0 && b != 0))
  | .or => some (ofBool (a != 0 || b != 0))

/-- The float operators. Only finite results have a value: no literal denotes
the others. -/
def foldFloat (op : BinaryOp) (a b : Binary32) : Option Datum :=
  match op with
  | .add => (a.add? b).map .float
  | .sub => (a.sub? b).map .float
  | .mul => (a.mul? b).map .float
  | .div => (a.div? b).map .float
  | .mod => (a.rem? b).map .float
  | .eq => some (ofBool (a.eq b))
  | .ne => some (ofBool (!a.eq b))
  | .gt => some (ofBool (b.lt a))
  | .ge => some (ofBool (b.le a))
  | .lt => some (ofBool (a.lt b))
  | .le => some (ofBool (a.le b))
  | .bitAnd | .bitOr | .bitXor | .and | .or => none

/-- An operator on two words: on integers if both are, otherwise on floats. -/
def fold (op : BinaryOp) : Datum → Datum → Option Datum
  | .int a, .int b => foldInt op a.toInt32 b.toInt32
  | a, b => do foldFloat op (← a.float?) (← b.float?)

def neg? : Datum → Option Datum
  | .int value => some (ofInt32 (-value.toInt32))
  | .float value => some (.float value.neg)
  | .text _ | .address _ => none

def not? (word : Datum) : Option Datum :=
  word.int32?.map fun value => ofBool (value == 0)

def convert (ty : Ty) : Datum → List Datum
  | .int value =>
    let float := Datum.float (Binary32.ofInt value.toInt32.toInt)
    match ty with
    | .float => [float]
    | .vector => [float, float, float]
    | _ => [.int value]
  | .float value =>
    match ty with
    | .int => [ofInt32 value.toInt32]
    | .vector => [.float value, .float value, .float value]
    | _ => [.float value]
  | word => [word]

end Datum

def single? : List Datum → Option Datum
  | [word] => some word
  | _ => none

/-- The words of a constant expression, when the names of functions and the
words of constants are given. -/
def foldWith (functionName? : Nat → Option String) (constant? : Nat → Option (List Datum)) :
    Expr → Option (List Datum)
  | .int _ value => some [.ofInt32 value]
  | .float _ value => value.finite?.map fun finite => [.float finite]
  | .bool _ value => some [.ofBool value]
  | .text _ value => some [.text value]
  | .null _ => some [.int 0]
  | .vector _ x y z => do
    let x ← (← single? (← foldWith functionName? constant? x)).float?
    let y ← (← single? (← foldWith functionName? constant? y)).float?
    let z ← (← single? (← foldWith functionName? constant? z)).float?
    return [.float x, .float y, .float z]
  | .var _ id => constant? id
  | .functionRef _ id => (functionName? id).map fun name => [.address name]
  | .neg _ operand => do (← foldWith functionName? constant? operand).mapM Datum.neg?
  | .not _ operand => do
    let word ← (← single? (← foldWith functionName? constant? operand)).not?
    return [word]
  | .binary _ op left right => do
    let a ← single? (← foldWith functionName? constant? left)
    let b ← single? (← foldWith functionName? constant? right)
    return [← Datum.fold op a b]
  | .convert info operand => do
    let word ← single? (← foldWith functionName? constant? operand)
    return word.convert info.ty
  | .member .. | .index .. | .call .. | .callNative .. | .callThrough .. => none

/-- The words of a constant, which may be defined through others up to a given
depth. -/
def constantWithin? (program : Program) : Nat → Nat → Option (List Datum)
  | 0, _ => none
  | depth + 1, id => do
    let declared ← program.vars[id]?
    if declared.storage == .constant then
      foldWith program.functionName? (constantWithin? program depth) (← declared.initializer)
    else
      none

/-- The words of a constant expression. Constants that are defined through each
other without a cycle are never nested deeper than there are variables. -/
def fold? (program : Program) (e : Expr) : Option (List Datum) :=
  foldWith program.functionName? (constantWithin? program program.vars.size) e

end ScriptBackend.Lowering
