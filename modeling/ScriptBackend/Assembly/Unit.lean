import ScriptBackend.Assembly.CodeImage
import ScriptBackend.Assembly.DataImage
import ScriptBackend.Assembly.Reader
import ScriptBackend.Script

/-!
Assembling a unit: its data, the layout of its code, the words that wait for
code addresses, and its bytes. A script comes out only when every step succeeds.
-/
namespace ScriptBackend.Assembly

/-- The highest code address that calls and pushes of addresses reach. -/
def codeLimit : Nat := 0xFFFFFF

def resolveReferences (labels : LabelTable) :
    List CodeReference → DataImage → Except Fault DataImage
  | [], image => .ok image
  | reference :: rest, image =>
    match labels.find? reference.label with
    | none => .error ⟨reference.line, .undefinedLabel reference.label⟩
    | some address =>
      resolveReferences labels rest
        (image.store reference.segment reference.offset (Word.ofInt address))

/-- The script made of finished data and code. -/
def link (options : Options) (image : DataImage) (strings : StringPages) (code : CodeImage) :
    Script :=
  let name := image.name.getD options.defaultScriptName
  { name := name
    nameHash := nameHash name
    hash := image.hash
    codePages := Page.split code.code.toList
    codeLength := code.code.size
    stringPages := strings.toPages
    stringsLength := strings.size
    statics := image.statics ++ image.arguments
    argumentCount := image.arguments.size
    globalsBlock := image.block
    globalsPages := Page.split image.globals.toList
    globalsLength := image.globals.size
    natives := code.natives.rotated code.code.size }

/-- Assembles the statements of a unit. -/
def assemble (source : NativeSource) (options : Options) (statements : List Statement) :
    Except Fault Script := do
  let lines := scopeLines statements
  let data ← collectData lines
  let (laidOut, strings) := layoutCode data.symbols options lines data.strings
  let layout ← laidOut
  if codeLimit < layout.codeLength then
    .error ⟨0, .capacity .codeSize layout.codeLength codeLimit⟩
  let image ← resolveReferences layout.labels data.references data.image
  let environment : Environment := ⟨data.symbols, layout.labels, source, options⟩
  let code ← emitCode environment strings layout lines data.natives
  return link options image strings code

/-- Reads and assembles a unit of assembly text. -/
def assembleText (source : NativeSource) (options : Options) (text : String) :
    Except Fault Script := do
  assemble source options (← read text)

end ScriptBackend.Assembly
