import ScriptBackend.Text.Digits

/-!
The types of script values. Every value takes a whole number of words.
-/
namespace ScriptBackend

/-- A type. Structs and prototypes are named by their position in the program. -/
inductive Ty where
  | void
  | int
  | float
  | bool
  | string
  | vector
  /-- An opaque number of the engine. -/
  | handle (name : String)
  /-- A buffer of characters, the terminator not counted. -/
  | textLabel (capacity : Nat)
  | struct (id : Nat)
  | array (item : Ty) (length : Nat)
  /-- The address of a value. -/
  | ref (target : Ty)
  /-- The address of a function with a given signature. -/
  | functionPointer (prototype : Nat)
deriving DecidableEq, Inhabited

namespace Ty

def render : Ty → String
  | .void => "VOID"
  | .int => "INT"
  | .float => "FLOAT"
  | .bool => "BOOL"
  | .string => "STRING"
  | .vector => "VECTOR"
  | .handle name => name
  | .textLabel capacity => "TEXT_LABEL_" ++ Text.decimal capacity
  | .struct id => "STRUCT#" ++ Text.decimal id
  | .array item length => item.render ++ "[" ++ Text.decimal length ++ "]"
  | .ref target => target.render ++ "&"
  | .functionPointer prototype => "PROTO#" ++ Text.decimal prototype

/-- The type of what is read through a variable: a reference stands for its
target. -/
def target : Ty → Ty
  | .ref inner => inner
  | ty => ty

def isRef : Ty → Bool
  | .ref _ => true
  | _ => false

def holdsFloats : Ty → Bool
  | .float | .vector => true
  | _ => false

end Ty
end ScriptBackend
