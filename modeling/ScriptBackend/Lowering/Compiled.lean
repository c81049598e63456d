import ScriptBackend.Assembly.Unit
import ScriptBackend.Lowering.Block
import ScriptBackend.Lowering.DataSegment
import ScriptBackend.Options

/-!
Whole programs as assembly, and through the assembler as scripts. The entry
point comes first in the code so that it has address 0.
-/
namespace ScriptBackend.Lowering

open ScriptBackend.Assembly

/-- The name of the function that a script begins with. -/
def entryName : String := "MAIN"

/-- Whether a body ends by returning, so that nothing runs past its end. -/
def endsInReturn (body : List Stmt) : Bool :=
  body.getLast? matches some (.ret _)

/-- The code of a function, behind the code before it. -/
def functionCode (setting : Setting) (before : Array Statement) (id : Nat) :
    Gen (Array Statement) := do
  match setting.program.functions[id]? with
  | none => throw (.missingFunction id)
  | some function =>
    let frame ← setting.slots.frame id
    let environment : Environment := { setting with frame := frame }
    Sizes.guarded (frame.size < UInt32.size)
    let enter :=
      { counted "ENTER" [frame.parameterWords, frame.size] with label := some function.name }
    let code ← block environment ⟨none, none⟩ (before.push enter) function.body
    return if endsInReturn function.body then code else code.push (leave frame)

def functionsCode (setting : Setting) (before : Array Statement) :
    List Nat → Gen (Array Statement)
  | [] => pure before
  | id :: rest => do functionsCode setting (← functionCode setting before id) rest

/-- The functions in the order of their code: the entry point, then the others. -/
def codeOrder (program : Program) (entry : Nat) : List Nat :=
  entry :: (List.range program.functions.size).filter (· ≠ entry)

def calledNative? (statement : Statement) : Option String :=
  match statement.content with
  | .instruction "NATIVE" [_, _, .name label] => some label
  | _ => none

def calledNatives (code : Array Statement) : Table String PUnit :=
  code.foldl (fun natives statement =>
    match calledNative? statement with
    | some label => natives.insertNew label ⟨⟩
    | none => natives) Table.empty

def nativeSegment (natives : NativeSource) (code : Array Statement) : Code :=
  let natives := (calledNatives code).keys.filterMap fun label =>
    (natives.named? label).map fun entry =>
      { Statement.ofDirective (.native entry.hash) with label := some label }
  if natives.isEmpty then [] else .ofDirective (.segment .natives) :: natives

/-- What a program is lowered with. -/
def Setting.ofProgram (natives : NativeSource) (program : Program) :
    Except CompileFault Setting := do
  let sizes := Sizes.ofStructs program.structs
  return ⟨program, sizes, ← Slots.ofProgram program sizes, natives⟩

/-- The assembly of a program: its identity, its data, the natives it calls and
its code. -/
def unitOf (setting : Setting) : Except CompileFault Code := do
  let program := setting.program
  match program.functionNamed? entryName with
  | none => .error .missingEntryPoint
  | some entry =>
    let (code, _) ← (functionsCode setting #[] (codeOrder program entry)).run 0
    let data ← dataSegments setting
    let hash := program.hash.toList.map fun hash => Statement.ofDirective (.scriptHash hash)
    return .ofDirective (.scriptName program.name) :: hash ++ data ++
      nativeSegment setting.natives code ++ .ofDirective (.segment .code) :: code.toList

end ScriptBackend.Lowering

namespace ScriptBackend

/-- Lowers a program to assembly. -/
def compileToAssembly (natives : NativeSource) (program : Program) :
    Except CompileFault (List Assembly.Statement) := do
  Lowering.unitOf (← Lowering.Setting.ofProgram natives program)

/-- Lowers a program and assembles it. -/
def compileToScript (natives : NativeSource) (options : Options) (program : Program) :
    Except CompileFault Script := do
  let statements ← compileToAssembly natives program
  (Assembly.assemble natives options statements).mapError .assembly

end ScriptBackend
