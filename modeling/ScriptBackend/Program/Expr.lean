import ScriptBackend.Binary32.Basic
import ScriptBackend.Program.Ty

/-!
Typed expressions. Each node carries what the checker found out about it: its
type, whether its value is known at compile time, and whether it names a place
in memory.
-/
namespace ScriptBackend

/-- The operators between two values. `and` and `or` evaluate their right side
only if needed. -/
inductive BinaryOp where
  | add
  | sub
  | mul
  | div
  | mod
  | bitAnd
  | bitOr
  | bitXor
  | eq
  | ne
  | gt
  | ge
  | lt
  | le
  | and
  | or
deriving DecidableEq, Inhabited

namespace BinaryOp

def describe : BinaryOp → String
  | .add => "Add"
  | .sub => "Sub"
  | .mul => "Mul"
  | .div => "Div"
  | .mod => "Mod"
  | .bitAnd => "BitAnd"
  | .bitOr => "BitOr"
  | .bitXor => "BitXor"
  | .eq => "Eq"
  | .ne => "Ne"
  | .gt => "Gt"
  | .ge => "Ge"
  | .lt => "Lt"
  | .le => "Le"
  | .and => "And"
  | .or => "Or"

/-- Whether the result is a truth value whatever the operands are. -/
def isLogical : BinaryOp → Bool
  | .eq | .ne | .gt | .ge | .lt | .le | .and | .or => true
  | _ => false

/-- Whether the right operand may stay unevaluated. -/
def isShortCircuit : BinaryOp → Bool
  | .and | .or => true
  | _ => false

end BinaryOp

/-- What the checker knows about an expression. -/
structure Info where
  ty : Ty
  isConstant : Bool
  /-- Whether the expression names a place that can be stored to. -/
  isPlace : Bool
deriving DecidableEq, Inhabited

/-- An expression. Variables, functions and natives are named by their position
in the program. -/
inductive Expr where
  | int (info : Info) (value : Int32)
  | float (info : Info) (value : Binary32)
  | bool (info : Info) (value : Bool)
  | text (info : Info) (value : String)
  | null (info : Info)
  | vector (info : Info) (x y z : Expr)
  | var (info : Info) (id : Nat)
  /-- The address of a function. -/
  | functionRef (info : Info) (id : Nat)
  | neg (info : Info) (operand : Expr)
  | not (info : Info) (operand : Expr)
  | binary (info : Info) (op : BinaryOp) (left right : Expr)
  | member (info : Info) (base : Expr) (field : String)
  | index (info : Info) (array position : Expr)
  | call (info : Info) (id : Nat) (arguments : List Expr)
  | callNative (info : Info) (id : Nat) (arguments : List Expr)
  /-- A call of the function whose address is the value of an expression. -/
  | callThrough (info : Info) (target : Expr) (arguments : List Expr)
  /-- The operand as a value of the type of the whole expression. -/
  | convert (info : Info) (operand : Expr)
deriving Inhabited

namespace Expr

def info : Expr → Info
  | .int i _ | .float i _ | .bool i _ | .text i _ | .null i | .vector i .. | .var i _
  | .functionRef i _ | .neg i _ | .not i _ | .binary i .. | .member i .. | .index i ..
  | .call i .. | .callNative i .. | .callThrough i .. | .convert i _ => i

/-- The same expression with other knowledge about it. -/
def withInfo (info : Info) : Expr → Expr
  | .int _ value => .int info value
  | .float _ value => .float info value
  | .bool _ value => .bool info value
  | .text _ value => .text info value
  | .null _ => .null info
  | .vector _ x y z => .vector info x y z
  | .var _ id => .var info id
  | .functionRef _ id => .functionRef info id
  | .neg _ operand => .neg info operand
  | .not _ operand => .not info operand
  | .binary _ op left right => .binary info op left right
  | .member _ base field => .member info base field
  | .index _ array position => .index info array position
  | .call _ id arguments => .call info id arguments
  | .callNative _ id arguments => .callNative info id arguments
  | .callThrough _ target arguments => .callThrough info target arguments
  | .convert _ operand => .convert info operand

def ty (e : Expr) : Ty :=
  e.info.ty

/-- Whether the value of an expression is known at compile time. -/
def isConstant (e : Expr) : Bool :=
  e.info.isConstant

def isPlace (e : Expr) : Bool :=
  e.info.isPlace

/-- Whether an expression reaches into a value: a member or an element of it. -/
def isPart : Expr → Bool
  | .member .. | .index .. => true
  | _ => false

/-- The beginning of a chain of members and elements when it is a value without
storage of its own, such as the result of a call. -/
def unstoredRoot? : Expr → Option Expr
  | .member _ base _ | .index _ base _ =>
    if base.isPart then base.unstoredRoot?
    else
      match base with
      | .var i _ => if i.isConstant then some base else none
      | _ => some base
  | _ => none

end Expr
end ScriptBackend
