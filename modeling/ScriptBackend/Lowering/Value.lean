import ScriptBackend.Lowering.Operator

/-!
Expressions as code. The code of a value leaves the words of the value on the
stack, the code of an address one word. Parts of a value are read through an
address; a value without storage is first copied to the scratch words. A
constant expression with a value becomes that value.
-/
namespace ScriptBackend.Lowering

open ScriptBackend.Assembly

/-- The words of an expression that is known to be constant. -/
def knownWords? (setting : Setting) (e : Expr) : Option (List Datum) :=
  if e.isConstant then fold? setting.program e else none

/-- Whether parts of an expression are read where it is stored: it is itself a
part, or a variable that is not substituted. -/
def isStored : Expr → Bool
  | .member .. | .index .. => true
  | .var info _ => !info.isConstant
  | _ => false

def continuesChain (op : BinaryOp) : Expr → Bool
  | .binary _ inner _ _ => inner == op
  | _ => false

/-- Jumps to the end of a chain if the value on the stack decides it, and drops
the value if not. -/
def decision (op : BinaryOp) (finish : String) : Code :=
  plain "DUP" :: (if op = .or then [plain "INOT"] else []) ++ [naming "JZ" finish, plain "DROP"]

def chainEnd (op : BinaryOp) (number : Nat) : String :=
  numbered (if op = .or then ".or_" else ".and_") number

/-- Copies a value to the scratch words and pushes their address. -/
def spill (environment : Environment) (ty : Ty) (value : Gen Code) : Gen Code := do
  let size ← environment.sizes.measure ty
  let frame := environment.frame
  if frame.scratchWords < size then
    unsupported (.scratchSize size frame.scratchWords)
  else
    let slot := frame.scratchOffset
    let code ← value
    let store :=
      if size = 1 then [commented "scratch" (counted "LOCAL_STORE" [slot])]
      else
        [counted "PUSH_CONST" [size], counted "LOCAL" [slot], commented "scratch" (plain "STORE_N")]
    return code ++ store ++ [counted "LOCAL" [slot]]

/-- The value of a variable. A constant is replaced by its initializer, whose
code `constant` makes. -/
def variableValue (setting : Setting) (constant : Expr → Gen Code) (id : Nat) : Gen Code := do
  let declared ← setting.declaration id
  if declared.storage = .constant then
    match declared.initializer with
    | some value => constant value
    | none => throw (.invalidStorage declared.name .constantWithoutValue)
  else
    setting.variableLoad id

def checkArguments (name : String) (parameters : List Ty) (arguments : List Expr) :
    Except CompileFault PUnit :=
  if parameters.length = arguments.length then .ok ()
  else unsupported (.argumentCount name arguments.length parameters.length)

/-- The most argument words that a call of a native can pass. -/
def nativeArgumentLimit : Nat := 63

def nativeReturnLimit : Nat := 3

/-- The instruction that calls a native: its words in and out and its name in
capitals. -/
def nativeCall (setting : Setting) (native : NativeSignature) :
    Except CompileFault Statement := do
  let arguments ← setting.sizes.measureAll native.parameters
  let returns ← setting.sizes.measure native.result
  if nativeArgumentLimit < arguments ∨ nativeReturnLimit < returns then
    .error (.nativeSignature native.name arguments returns)
  else if (setting.natives.named? native.name).isNone then
    .error (.unknownNative native.name)
  else
    return .ofInstruction "NATIVE" [.int (Int64.ofNat arguments), .int (Int64.ofNat returns),
      .name (Text.upperCased native.name)]

/-- The signature of the function pointers of a type. -/
def prototypeOf (setting : Setting) : Ty → Except CompileFault Prototype
  | .functionPointer id =>
    match setting.program.prototypes[id]? with
    | some prototype => .ok prototype
    | none => .error (.missingPrototype id)
  | other => unsupported (.callOf other)

def functionName (setting : Setting) (id : Nat) : Except CompileFault String :=
  match setting.program.functionName? id with
  | some name => .ok name
  | none => .error (.missingFunction id)

def parameterTypes (setting : Setting) (function : Function) : Except CompileFault (List Ty) :=
  function.parameters.mapM fun id => return (← setting.declaration id).ty

mutual

/-- The code that pushes the value of an expression. -/
def value (environment : Environment) (constant : Expr → Gen Code) (e : Expr) : Gen Code :=
  match knownWords? environment.toSetting e with
  | some words => pure (pushData words)
  | none =>
    match e with
    | .int _ number => pure (pushData [.ofInt32 number])
    | .bool _ truth => pure (pushData [.ofBool truth])
    | .text _ content => pure (pushData [.text content])
    | .null _ => pure (pushData [.int 0])
    | .float _ number =>
      if number.isFinite then pure (pushData [.float number])
      else unsupported .nonFiniteFloat
    | .vector _ x y z => do
      let first ← value environment constant x
      let second ← value environment constant y
      let third ← value environment constant z
      return first ++ componentConversion x.ty ++ (second ++ componentConversion y.ty) ++
        (third ++ componentConversion z.ty)
    | .var _ id => variableValue environment.toSetting constant id
    | .functionRef _ id => do
      return [naming "PUSH_CONST" (← functionName environment.toSetting id)]
    | .neg _ operand => do
      let code ← value environment constant operand
      return code ++ [plain ((Family.ofTy operand.ty).letter ++ "NEG")]
    | .not _ operand => do
      let code ← value environment constant operand
      return code ++ [plain "INOT"]
    | .binary _ op left right =>
      if op.isShortCircuit then do
        let finish := chainEnd op (← freshNumber)
        let first ←
          if continuesChain op left then chain environment constant op finish left
          else value environment constant left
        let second ←
          if continuesChain op right then chain environment constant op finish right
          else value environment constant right
        return first ++ decision op finish ++ second ++ [.ofLabel finish]
      else do
        let (family, mnemonic) ← operation op left.ty right.ty
        let first ← value environment constant left
        let second ← value environment constant right
        return first ++ family.widening left.ty ++ (second ++ family.widening right.ty) ++
          [plain mnemonic]
    | .member info base field => do
      let size ← environment.sizes.measure info.ty
      let offset ← environment.memberOffset base.ty field
      let source ←
        if isStored base then storedAddress environment constant base
        else spill environment base.ty (value environment constant base)
      if size = 1 then return source ++ [counted "IOFFSET_CONST_LOAD" [offset]]
      else return counted "PUSH_CONST" [size] :: source ++ atOffset offset ++ [plain "LOAD_N"]
    | .index info array position => do
      let size ← environment.sizes.measure info.ty
      let index ← value environment constant position
      let source ←
        if isStored array then storedAddress environment constant array
        else spill environment array.ty (value environment constant array)
      if size = 1 then return index ++ source ++ [counted "ARRAY_LOAD" [1]]
      else
        return counted "PUSH_CONST" [size] :: index ++ source ++ [counted "ARRAY" [size],
          plain "LOAD_N"]
    | .call _ id passed =>
      match environment.program.functions[id]? with
      | none => throw (.missingFunction id)
      | some function => do
        let parameters ← parameterTypes environment.toSetting function
        checkArguments function.name parameters passed
        let code ← arguments environment constant parameters passed
        return code ++ [naming "CALL" function.name]
    | .callNative _ id passed =>
      match environment.program.natives[id]? with
      | none => throw (.missingNative id)
      | some native => do
        checkArguments native.name native.parameters passed
        let code ← arguments environment constant native.parameters passed
        return code ++ [← nativeCall environment.toSetting native]
    | .callThrough _ target passed => do
      let prototype ← prototypeOf environment.toSetting target.ty
      checkArguments prototype.name prototype.parameters passed
      let code ← arguments environment constant prototype.parameters passed
      let pointer ← value environment constant target
      return code ++ pointer ++ [plain "CALLINDIRECT"]
    | .convert info operand => do
      let code ← value environment constant operand
      return code ++ (← conversion environment.sizes operand.ty info.ty)

/-- The code of a node of a chain of one operator: its operands with a decision
between them. Other expressions are no such nodes. -/
def chain (environment : Environment) (constant : Expr → Gen Code) (op : BinaryOp)
    (finish : String) : Expr → Gen Code
  | .binary _ _ left right => do
    let first ←
      if continuesChain op left then chain environment constant op finish left
      else value environment constant left
    let second ←
      if continuesChain op right then chain environment constant op finish right
      else value environment constant right
    return first ++ decision op finish ++ second
  | _ => pure []

/-- The code that pushes the address of an expression that is stored, for
reading. A chain of parts may begin at a value without storage. -/
def storedAddress (environment : Environment) (constant : Expr → Gen Code) : Expr → Gen Code
  | .member _ base field => do
    let offset ← environment.memberOffset base.ty field
    let source ←
      if isStored base then storedAddress environment constant base
      else spill environment base.ty (value environment constant base)
    return source ++ atOffset offset
  | .index info array position => do
    let size ← environment.sizes.measure info.ty
    let index ← value environment constant position
    let source ←
      if isStored array then storedAddress environment constant array
      else spill environment array.ty (value environment constant array)
    return index ++ source ++ [counted "ARRAY" [size]]
  | .var _ id => environment.variableAddress id
  | _ => unsupported .addressOfValue

/-- The code that pushes the address of a place. -/
def address (environment : Environment) (constant : Expr → Gen Code) : Expr → Gen Code
  | .member _ base field => do
    let offset ← environment.memberOffset base.ty field
    let source ← address environment constant base
    return source ++ atOffset offset
  | .index info array position => do
    let size ← environment.sizes.measure info.ty
    let index ← value environment constant position
    let source ← address environment constant array
    return index ++ source ++ [counted "ARRAY" [size]]
  | .var _ id => environment.variableAddress id
  | _ => unsupported .addressOfValue

/-- The code that pushes arguments: addresses for references, values for the
rest. -/
def arguments (environment : Environment) (constant : Expr → Gen Code) (parameters : List Ty) :
    List Expr → Gen Code
  | [] => pure []
  | first :: rest => do
    let code ←
      if (parameters.head?.map Ty.isRef).getD false then address environment constant first
      else value environment constant first
    let others ← arguments environment constant parameters.tail rest
    return code ++ others

end

/-- The code of the initializer of a constant, constants nested up to a given
depth. -/
def initializerWithin (environment : Environment) : Nat → Expr → Gen Code
  | 0, _ => unsupported .initializerNotConstant
  | depth + 1, e => value environment (initializerWithin environment depth) e

namespace Environment

/-- The code of the initializers of constants. Constants that are defined
through each other without a cycle are never nested deeper than there are
variables. -/
def initializerCode (environment : Environment) : Expr → Gen Code :=
  initializerWithin environment environment.program.vars.size

/-- The code that pushes the value of an expression. -/
def value (environment : Environment) (e : Expr) : Gen Code :=
  Lowering.value environment environment.initializerCode e

/-- The code that pushes the address of a place. -/
def address (environment : Environment) (e : Expr) : Gen Code :=
  Lowering.address environment environment.initializerCode e

end Environment
end ScriptBackend.Lowering
