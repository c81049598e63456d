import ScriptBackend.Assembly.Printer
import ScriptBackend.NativeTable

/-!
What can be wrong with script assembly. A fault names its cause and the line of
the statement; the wording is in one place for each kind.
-/
namespace ScriptBackend.Assembly

open ScriptBackend.Text

/-- A token of a line, as the reader meets it. -/
inductive Token where
  | name (name : String)
  | int (value : Int64)
  | float (value : Binary32)
  | text (value : String)
  | colon
  | comma
  | leftParen
  | rightParen
deriving DecidableEq

def Token.describe : Token → String
  | .name identifier => "Ident(" ++ diagnosticQuoted identifier ++ ")"
  | .int value => "Int(" ++ signedDecimal value.toInt ++ ")"
  | .float value => "Float(" ++ value.text ++ ")"
  | .text value => "Str(" ++ diagnosticQuoted value ++ ")"
  | .colon => "Colon"
  | .comma => "Comma"
  | .leftParen => "LeftParen"
  | .rightParen => "RightParen"

/-- Why a line cannot be read. Directives are named as they were written. -/
inductive SyntaxFault where
  | unexpectedCharacter (c : Char)
  | unterminatedText
  | unknownEscape (c : Char)
  | invalidHex (digits : List Char)
  | invalidFloat (literal : List Char)
  | invalidInteger (literal : List Char)
  | caseWithoutLabel
  | sizeOfWithoutLabel
  | sizeOfUnclosed
  | unexpectedToken (token : Token)
  | missingOperand
  | trailingComma
  | notOneOperand (directive : String)
  | notAnInteger (directive : String)
  | unwantedOperands (directive : String)
  | scriptNameWithoutName
  | textWithoutLiteral
  | constWithoutName
  | invalidBlock (block : Int64)
  | invalidCount (count : Int64)
  | noStatement (token : Token)
deriving DecidableEq

/-- What is reported about a line that cannot be read. -/
def SyntaxFault.message : SyntaxFault → String
  | .unexpectedCharacter c => "unexpected character '" ++ c.toString ++ "'"
  | .unterminatedText => "unterminated string literal"
  | .unknownEscape c => "unknown escape '\\" ++ c.toString ++ "'"
  | .invalidHex digits => "invalid hex literal '0x" ++ String.ofList digits ++ "'"
  | .invalidFloat literal => "invalid float literal '" ++ String.ofList literal ++ "'"
  | .invalidInteger literal => "invalid integer literal '" ++ String.ofList literal ++ "'"
  | .caseWithoutLabel => "expected label after ':' in case operand"
  | .sizeOfWithoutLabel => "expected label inside SIZEOF()"
  | .sizeOfUnclosed => "expected ')' after SIZEOF label"
  | .unexpectedToken token => "unexpected " ++ token.describe
  | .missingOperand => "expected operand"
  | .trailingComma => "trailing ','"
  | .notOneOperand directive => directive ++ " expects one operand"
  | .notAnInteger directive => directive ++ " expects an integer"
  | .unwantedOperands directive => directive ++ " takes no operands"
  | .scriptNameWithoutName => ".script_name expects a name"
  | .textWithoutLiteral => ".str expects a string literal"
  | .constWithoutName => ".const expects a name"
  | .invalidBlock block => "invalid globals block " ++ signedDecimal block.toInt
  | .invalidCount count => "invalid .zero count " ++ signedDecimal count.toInt
  | .noStatement token => "expected instruction or directive, found " ++ token.describe

/-- How many operands an instruction takes. -/
inductive Arity where
  | exactly (count : Nat)
  | atLeast (count : Nat)
  | either (first second : Nat)
deriving DecidableEq

def Arity.describe : Arity → String
  | .exactly count => decimal count
  | .atLeast count => "at least " ++ decimal count
  | .either first second => decimal first ++ " or " ++ decimal second

/-- Why an operand does not suit its instruction. -/
inductive OperandFault where
  | floatConstant (name : String)
  | notAnInteger (found : Operand)
  | notAFloat (found : Operand)
  | notALabel (found : Operand)
  | notACase (found : Operand)
  | notANative (found : Operand)
  | notAText (found : Operand)
  | notPushable (found : Operand)
  | notAFrameName (found : Operand)
  | notAConstant (found : Operand)
  | unexpected (found : Operand)
deriving DecidableEq

def OperandFault.message : OperandFault → String
  | .floatConstant name => "'" ++ name ++ "' is a float constant"
  | .notAnInteger found => "expected an integer, found " ++ found.render
  | .notAFloat found => "expected a float, found " ++ found.render
  | .notALabel found => "expected a label, found " ++ found.render
  | .notACase found => "expected value:label, found " ++ found.render
  | .notANative found => "expected a native, found " ++ found.render
  | .notAText found => "expected a string literal, found " ++ found.render
  | .notPushable found => "cannot push " ++ found.render
  | .notAFrameName found => "function name must be a string, found " ++ found.render
  | .notAConstant found => "constant value must be a number, found " ++ found.render
  | .unexpected found => "unexpected " ++ found.render

/-- Statements that belong to some segments only. -/
inductive Placed where
  | instruction (mnemonic : String)
  | label
  | data
  | zero
  | text
  | native
deriving DecidableEq

def Placed.describe : Placed → String
  | .instruction mnemonic => "instruction " ++ mnemonic
  | .label => "a label without data"
  | .data => "data"
  | .zero => ".zero"
  | .text => ".str"
  | .native => ".native"

def Segment.describe : Segment → String
  | .code => "Code"
  | .statics => "Static"
  | .arguments => "Arg"
  | .globals block => "Global \x7b block: " ++ decimal block.toNat ++ " \x7d"
  | .strings => "String"
  | .natives => "Include"

/-- The quantities that have a limit. -/
inductive Quantity where
  | codeSize
  | globalsBlock
  | textLength
  | staticCount
  | globalsCount
  | integerLiteral
  | integerConstant
  | index
  | globalId
  | frameNameLength
  | caseCount
  | byteOperand
  | operand32
  | argumentCount
  | returnCount
  | parameterCount
  | frameSize
  | operand16
  | operand24
  | caseValue
deriving DecidableEq

def Quantity.describe : Quantity → String
  | .codeSize => "code size"
  | .globalsBlock => "globals block"
  | .textLength => "string length"
  | .staticCount => "static count"
  | .globalsCount => "globals count"
  | .integerLiteral => "integer literal"
  | .integerConstant => "integer constant"
  | .index => "index"
  | .globalId => "global id"
  | .frameNameLength => "function name length"
  | .caseCount => "switch case count"
  | .byteOperand => "byte operand"
  | .operand32 => "32-bit operand"
  | .argumentCount => "native argument count"
  | .returnCount => "native return count"
  | .parameterCount => "parameter count"
  | .frameSize => "frame size"
  | .operand16 => "16-bit operand"
  | .operand24 => "24-bit operand"
  | .caseValue => "switch case value"

/-- Why a unit cannot be assembled. -/
inductive Cause where
  | malformed (fault : SyntaxFault)
  | unknownInstruction (mnemonic : String)
  | unknownDirective (directive : String)
  | undefinedLabel (label : String)
  | duplicateLabel (label : String)
  | operandCount (mnemonic : String) (expected : Arity) (found : Nat)
  | invalidOperand (instruction : String) (fault : OperandFault)
  | misplaced (what : Placed) (segment : Segment)
  | blockConflict (block existing : UInt8)
  | jumpOutOfRange (label : String) (distance : Int)
  | tooManyNatives
  | duplicateNative (hash : UInt64)
  | unknownNative (name : String)
  /-- A value outside what its encoding or section can hold. -/
  | capacity (what : Quantity) (value : Int) (limit : Nat)
  /-- The bytes of an instruction are not where the layout put it. -/
  | layoutMismatch (expected actual : Nat)
deriving DecidableEq

def Cause.ofNativeTable : NativeTableFault → Cause
  | .duplicate hash => .duplicateNative hash
  | .full => .tooManyNatives

/-- What is reported about a cause. Values print as unsigned 64-bit numbers. -/
def Cause.message : Cause → String
  | .malformed fault => "syntax error: " ++ fault.message
  | .unknownInstruction mnemonic => "unknown instruction '" ++ mnemonic ++ "'"
  | .unknownDirective directive => "unknown directive '" ++ directive ++ "'"
  | .undefinedLabel label => "undefined label '" ++ label ++ "'"
  | .duplicateLabel label => "label '" ++ label ++ "' is already defined"
  | .operandCount mnemonic expected found =>
    mnemonic ++ " expects " ++ expected.describe ++ " operand(s), found " ++ decimal found
  | .invalidOperand instruction fault =>
    "invalid operand for " ++ instruction ++ ": " ++ fault.message
  | .misplaced what segment =>
    what.describe ++ " is not allowed in the " ++ segment.describe ++ " segment"
  | .blockConflict block existing =>
    "globals block " ++ decimal block.toNat ++ " conflicts with block " ++ decimal existing.toNat
  | .jumpOutOfRange label distance =>
    "jump to '" ++ label ++ "' is out of range (offset " ++ signedDecimal distance ++ ")"
  | .tooManyNatives => "native table is full (65536 entries)"
  | .duplicateNative hash => "native 0x" ++ hexUpper 16 hash.toNat ++ " is already included"
  | .unknownNative name => "unknown native '" ++ name ++ "'"
  | .capacity what value limit =>
    what.describe ++ " " ++ decimal (value % 0x10000000000000000).toNat ++
      " exceeds limit " ++ decimal limit
  | .layoutMismatch expected actual =>
    "internal error: instruction emitted at " ++ address actual ++ " but laid out at " ++
      address expected

/-- A cause with the line of its statement. -/
structure Fault where
  line : Nat
  cause : Cause
deriving DecidableEq

def Fault.message (fault : Fault) : String :=
  "line " ++ decimal fault.line ++ ": " ++ fault.cause.message

end ScriptBackend.Assembly
