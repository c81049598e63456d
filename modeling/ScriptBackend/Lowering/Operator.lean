import ScriptBackend.Lowering.Environment

/-!
Which instruction an operator or a conversion becomes. Integers, floats and
vectors have families of their own; every type that is neither float nor vector
counts as integer.
-/
namespace ScriptBackend.Lowering

/-- A family of arithmetic instructions. -/
inductive Family where
  | int
  | float
  | vector
deriving DecidableEq

namespace Family

def ofTy : Ty → Family
  | .float => .float
  | .vector => .vector
  | _ => .int

def ofOperands (left right : Ty) : Family :=
  if left = .vector ∨ right = .vector then .vector
  else if left = .float ∨ right = .float then .float
  else .int

def letter : Family → String
  | .int => "I"
  | .float => "F"
  | .vector => "V"

def supports (family : Family) (op : BinaryOp) : Bool :=
  match op with
  | .add | .sub | .mul | .div => true
  | .mod | .eq | .ne | .gt | .ge | .lt | .le => family != .vector
  | .bitAnd | .bitOr | .bitXor => family == .int
  | .and | .or => false

def stem : BinaryOp → String
  | .add => "ADD"
  | .sub => "SUB"
  | .mul => "MUL"
  | .div => "DIV"
  | .mod => "MOD"
  | .bitAnd | .and => "AND"
  | .bitOr | .or => "OR"
  | .bitXor => "XOR"
  | .eq => "EQ"
  | .ne => "NE"
  | .gt => "GT"
  | .ge => "GE"
  | .lt => "LT"
  | .le => "LE"

def mnemonic? (family : Family) (op : BinaryOp) : Option String :=
  if family.supports op then some (family.letter ++ stem op) else none

/-- Makes an operand a value of the family: integers become floats, and floats
vectors. -/
def widening (family : Family) (operand : Ty) : Code :=
  (if family ≠ .int ∧ operand = .int then [plain "I2F"] else []) ++
    if family = .vector ∧ operand ≠ .vector then [plain "F2V"] else []

end Family

def operation (op : BinaryOp) (left right : Ty) : Except CompileFault (Family × String) :=
  let family := Family.ofOperands left right
  match family.mnemonic? op with
  | some mnemonic => .ok (family, mnemonic)
  | none => unsupported (.operator op left right)

def componentConversion (ty : Ty) : Code :=
  if ty = .float then [] else [plain "I2F"]

/-- Takes a value as one of another type without any code. One word may stand
for any other. -/
def unchanged (sizes : Sizes) (source target : Ty) : Except CompileFault Code :=
  if source = target then .ok []
  else do
    if ← sizes.isWord source <&&> sizes.isWord target then return []
    else unsupported (.conversion source target)

def conversion (sizes : Sizes) (source target : Ty) : Except CompileFault Code :=
  match source, target with
  | .int, .float => .ok [plain "I2F"]
  | .float, .int => .ok [plain "F2I"]
  | .float, .vector => .ok [plain "F2V"]
  | .int, .vector => .ok [plain "I2F", plain "F2V"]
  | source, target => unchanged sizes source target

end ScriptBackend.Lowering
