import ScriptBackend.Assembly.Statement
import ScriptBackend.Binary32.Decimal
import ScriptBackend.Text.Quoted

/-!
Script assembly as text. A labelled instruction takes two lines, every other
statement one.
-/
namespace ScriptBackend.Assembly

open ScriptBackend.Text

def Operand.render : Operand → String
  | .int value => signedDecimal value.toInt
  | .float value => value.text
  | .text value => sourceQuoted value
  | .name identifier => identifier
  | .sizeOf label => "SIZEOF(" ++ label ++ ")"
  | .case value label => signedDecimal value.toInt ++ ":" ++ label

def renderOperands (operands : List Operand) : String :=
  String.intercalate ", " (operands.map Operand.render)

def Segment.render : Segment → String
  | .code => ".code"
  | .statics => ".static"
  | .arguments => ".arg"
  | .globals block => ".global " ++ decimal block.toNat
  | .strings => ".string"
  | .natives => ".include"

def Directive.render : Directive → String
  | .scriptName name => ".script_name " ++ name
  | .scriptHash hash => ".script_hash 0x" ++ hexUpper 8 hash.toNat
  | .segment begun => begun.render
  | .ints values => ".int " ++ renderOperands values
  | .floats values => ".float " ++ renderOperands values
  | .text value => ".str " ++ sourceQuoted value
  | .zero count => ".zero " ++ decimal count.toNat
  | .const name value => ".const " ++ name ++ " " ++ value.render
  | .native hash => ".native 0x" ++ hexUpper 16 hash.toNat

def renderInstruction (mnemonic : String) (operands : List Operand) : String :=
  if operands.isEmpty then mnemonic else mnemonic ++ " " ++ renderOperands operands

/-- Whether a directive stands at the beginning of its line. -/
def Directive.isHeading : Directive → Bool
  | .segment _ | .scriptName _ | .scriptHash _ => true
  | _ => false

def renderBody : Option String → Content → String
  | some label, .instruction mnemonic operands =>
    label ++ ":\n    " ++ renderInstruction mnemonic operands
  | some label, .directive directive => label ++ ": " ++ directive.render
  | some label, .empty => label ++ ":"
  | none, .instruction mnemonic operands => "    " ++ renderInstruction mnemonic operands
  | none, .directive directive =>
    if directive.isHeading then directive.render else "    " ++ directive.render
  | none, .empty => ""

def Statement.render (statement : Statement) : String :=
  renderBody statement.label statement.content ++
    match statement.comment with
    | some comment => " ; " ++ comment
    | none => ""

/-- Statements as text, a line end after each. -/
def render (statements : List Statement) : String :=
  String.join (statements.map fun statement => statement.render ++ "\n")

end ScriptBackend.Assembly
