import ScriptBackend.Assembly.Fault
import ScriptBackend.Program.Expr

/-!
Why a program cannot be compiled. Most causes are contradictions in the program
that a checker would have found.
-/
namespace ScriptBackend

/-- What a variable is asked for that its storage cannot give. -/
inductive StorageUse where
  | globalWithoutBlock
  | reference
  | constantWithoutValue
deriving DecidableEq

def StorageUse.describe : StorageUse → String
  | .globalWithoutBlock => "a global without a globals block"
  | .reference => "a reference"
  | .constantWithoutValue => "a constant without a value"

/-- Constructs that have no code. -/
inductive Unsupported where
  | globalsSize (limit : Nat)
  | scratchSize (needed available : Nat)
  | initializerNotConstant
  | initializerSize (found : Nat) (ty : Ty) (expected : Nat)
  | undeclaredStruct (id : Nat)
  | textInData (name : String)
  | referenceWithoutTarget (name : String)
  | callOf (ty : Ty)
  | argumentCount (name : String) (found expected : Nat)
  | textLabelFrom (value target : Ty)
  | nonFiniteFloat
  | conversion (source target : Ty)
  | operator (op : BinaryOp) (left right : Ty)
  | vectorField (field : String)
  | unknownField (field : String)
  | fieldOf (field : String) (ty : Ty)
  | addressOfValue
  | storeToValue
  /-- Words that 32 bits cannot count. The arithmetic stops here, with no
  message of the program. -/
  | overflow
deriving DecidableEq

def Unsupported.describe : Unsupported → String
  | .globalsSize limit => "globals exceed " ++ Text.decimal limit ++ " words"
  | .scratchSize needed available =>
    Text.decimal needed ++ " scratch words needed, frame has " ++ Text.decimal available
  | .initializerNotConstant => "initializer is not a constant expression with finite values"
  | .initializerSize found ty expected =>
    "initializer of " ++ Text.decimal found ++ " words for a " ++ ty.render ++ " of " ++
      Text.decimal expected ++ " words"
  | .undeclaredStruct id => "undeclared struct #" ++ Text.decimal id
  | .textInData name => "string default in '" ++ name ++ "': statics hold no string literals"
  | .referenceWithoutTarget name => "reference '" ++ name ++ "' without a target"
  | .callOf ty => "calling a " ++ ty.render
  | .argumentCount name found expected =>
    Text.decimal found ++ " argument(s) passed to '" ++ name ++ "', which takes " ++
      Text.decimal expected
  | .textLabelFrom value target => "assigning a " ++ value.render ++ " to a " ++ target.render
  | .nonFiniteFloat => "non-finite float constant"
  | .conversion source target => "conversion from " ++ source.render ++ " to " ++ target.render
  | .operator op left right => op.describe ++ " on " ++ left.render ++ " and " ++ right.render
  | .vectorField field => "vector field '" ++ field ++ "'"
  | .unknownField field => "unknown field '" ++ field ++ "'"
  | .fieldOf field ty => "field '" ++ field ++ "' of a " ++ ty.render
  | .addressOfValue => "address of an expression that is not an lvalue"
  | .storeToValue => "assignment to an expression that is not an lvalue"
  | .overflow => "more words than 32 bits count"

/-- Why a program cannot be compiled. -/
inductive CompileFault where
  | missingSlot (variableName : String)
  | missingFunction (id : Nat)
  | missingNative (id : Nat)
  | missingPrototype (id : Nat)
  | invalidStorage (variableName : String) (use : StorageUse)
  | breakOutsideConstruct
  | continueOutsideLoop
  | missingEntryPoint
  | unknownNative (name : String)
  /-- More words than a call of a native can pass. -/
  | nativeSignature (name : String) (arguments returns : Nat)
  | unsupported (what : Unsupported)
  /-- The assembly of the program does not assemble. -/
  | assembly (fault : Assembly.Fault)
deriving DecidableEq

/-- What is reported about a program that cannot be compiled. -/
def CompileFault.message : CompileFault → String
  | .missingSlot variableName => "Internal error: no slot assigned to '" ++ variableName ++ "'"
  | .missingFunction id =>
    "Internal error: function #" ++ Text.decimal id ++ " is not declared"
  | .missingNative id => "Internal error: native #" ++ Text.decimal id ++ " is not declared"
  | .missingPrototype id =>
    "Internal error: prototype #" ++ Text.decimal id ++ " is not declared"
  | .invalidStorage variableName use =>
    "Internal error: '" ++ variableName ++ "' has no storage suitable for " ++ use.describe
  | .breakOutsideConstruct => "Internal error: BREAK outside a loop or SWITCH"
  | .continueOutsideLoop => "Internal error: CONTINUE outside a loop"
  | .missingEntryPoint => "Script has no MAIN procedure"
  | .unknownNative name => "Unknown native '" ++ name ++ "'"
  | .nativeSignature name arguments returns =>
    "Native '" ++ name ++ "' takes " ++ Text.decimal arguments ++
      " argument words and returns " ++ Text.decimal returns ++ " (limits 63 and 3)"
  | .unsupported what => "Unsupported construct: " ++ what.describe
  | .assembly fault => "Assembly failed: " ++ fault.message

end ScriptBackend
