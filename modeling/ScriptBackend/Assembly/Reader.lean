import ScriptBackend.Assembly.Tokens

/-!
Reading script assembly. A line becomes a statement token by token; a unit is
its lines without those that say nothing.
-/
namespace ScriptBackend.Assembly

open ScriptBackend.Text

def readOperand : List Token → Except SyntaxFault (Operand × List Token)
  | [] => .error .missingOperand
  | .int value :: .colon :: .name label :: rest => .ok (.case value label, rest)
  | .int _ :: .colon :: _ => .error .caseWithoutLabel
  | .int value :: rest => .ok (.int value, rest)
  | .float value :: rest => .ok (.float value, rest)
  | .text value :: rest => .ok (.text value, rest)
  | .name name :: .leftParen :: rest =>
    if sameName name "SIZEOF" then
      match rest with
      | .name label :: .rightParen :: rest => .ok (.sizeOf label, rest)
      | .name _ :: _ => .error .sizeOfUnclosed
      | _ => .error .sizeOfWithoutLabel
    else
      .ok (.name name, .leftParen :: rest)
  | .name name :: rest => .ok (.name name, rest)
  | token :: _ => .error (.unexpectedToken token)

theorem readOperand_length {tokens rest : List Token} {operand : Operand}
    (h : readOperand tokens = .ok (operand, rest)) : rest.length < tokens.length := by
  unfold readOperand at h
  repeat' split at h
  all_goals cases h
  all_goals simp only [List.length_cons]; omega

/-- Skips the comma after an operand, which something must follow. -/
def skipComma : List Token → Except SyntaxFault (List Token)
  | [.comma] => .error .trailingComma
  | .comma :: rest => .ok rest
  | rest => .ok rest

theorem skipComma_length {tokens rest : List Token} (h : skipComma tokens = .ok rest) :
    rest.length ≤ tokens.length := by
  unfold skipComma at h
  split at h <;> cases h <;> simp

/-- Operands up to the end of the line, with commas or only blanks between them. -/
def readOperands (tokens : List Token) : Except SyntaxFault (List Operand) :=
  if tokens.isEmpty then .ok []
  else
    match _first : readOperand tokens with
    | .error fault => .error fault
    | .ok (operand, after) =>
      match _next : skipComma after with
      | .error fault => .error fault
      | .ok rest => (readOperands rest).map (operand :: ·)
termination_by tokens.length
decreasing_by
  have shorter := readOperand_length _first
  have bound := skipComma_length _next
  omega

def readSingle (directive : String) (tokens : List Token) : Except SyntaxFault Operand := do
  match ← readOperands tokens with
  | [operand] => .ok operand
  | _ => .error (.notOneOperand directive)

def readInteger (directive : String) (tokens : List Token) : Except SyntaxFault Int64 := do
  match ← readSingle directive tokens with
  | .int value => .ok value
  | _ => .error (.notAnInteger directive)

/-- A directive that begins a segment and says no more. -/
def readSegment (directive : String) (segment : Segment) (tokens : List Token) :
    Except SyntaxFault Directive :=
  if tokens.isEmpty then .ok (.segment segment) else .error (.unwantedOperands directive)

/-- The directive with a given name in lower case, read from the tokens after
it. `written` is the name as it stands in the source. -/
def readDirective? (lowered written : String) (tokens : List Token) :
    Option (Except SyntaxFault Directive) :=
  match lowered with
  | ".script_name" => some do
    match ← readSingle written tokens with
    | .name name => .ok (.scriptName name)
    | .text name => .ok (.scriptName name)
    | _ => .error .scriptNameWithoutName
  | ".script_hash" => some do
    return .scriptHash (← readInteger written tokens).toInt32.toUInt32
  | ".code" => some (readSegment written .code tokens)
  | ".static" => some (readSegment written .statics tokens)
  | ".arg" => some (readSegment written .arguments tokens)
  | ".string" => some (readSegment written .strings tokens)
  | ".include" => some (readSegment written .natives tokens)
  | ".global" => some do
    let block ← readInteger written tokens
    if 0 ≤ block && block ≤ 255 then
      return .segment (.globals (UInt8.ofNat block.toNatClampNeg))
    else
      .error (.invalidBlock block)
  | ".int" => some do return .ints (← readOperands tokens)
  | ".float" => some do return .floats (← readOperands tokens)
  | ".str" => some do
    match ← readSingle written tokens with
    | .text value => .ok (.text value)
    | _ => .error .textWithoutLiteral
  | ".zero" => some do
    let count ← readInteger written tokens
    if 0 ≤ count && count ≤ 0xFFFFFFFF then return .zero (UInt32.ofNat count.toNatClampNeg)
    else .error (.invalidCount count)
  | ".const" => some do
    match tokens with
    | .name name :: rest => return .const name (← readSingle written rest)
    | _ => .error .constWithoutName
  | ".native" => some do return .native (← readInteger written tokens).toUInt64
  | _ => none

/-- The label at the beginning of a line, and the tokens after it. -/
def readLabel : List Token → Option String × List Token
  | .name label :: .colon :: rest => (some label, rest)
  | tokens => (none, tokens)

def readContent : List Token → Except Cause Content
  | [] => .ok .empty
  | .name name :: rest =>
    if isLocal name then
      match readDirective? (lowerCased name) name rest with
      | none => .error (.unknownDirective name)
      | some (.error fault) => .error (.malformed fault)
      | some (.ok directive) => .ok (.directive directive)
    else
      match readOperands rest with
      | .error fault => .error (.malformed fault)
      | .ok operands => .ok (.instruction (upperCased name) operands)
  | token :: _ => .error (.malformed (.noStatement token))

/-- The statement on a line. A comment without text is none. -/
def readLine (number : Nat) (line : List Char) : Except Fault Statement :=
  match tokenize line with
  | .error fault => .error ⟨number, .malformed fault⟩
  | .ok (tokens, comment) =>
    let (label, rest) := readLabel tokens
    match readContent rest with
    | .error cause => .error ⟨number, cause⟩
    | .ok content =>
      let kept := (comment.filter fun text => !text.isEmpty).map String.ofList
      .ok ⟨number, label, content, kept⟩

/-- The lines of a text. A line ends with a line feed, before which one carriage
return is dropped; text after the last line feed is a line as it stands.
`current` holds the characters of the line so far and `done` the lines before
it, both backwards. -/
def linesFrom : List Char → List Char → List (List Char) → List (List Char)
  | [], [], done => done.reverse
  | [], current, done => (current.reverse :: done).reverse
  | '\n' :: rest, '\r' :: current, done => linesFrom rest [] (current.reverse :: done)
  | '\n' :: rest, current, done => linesFrom rest [] (current.reverse :: done)
  | c :: rest, current, done => linesFrom rest (c :: current) done

def linesOf (text : List Char) : List (List Char) :=
  linesFrom text [] []

/-- Whether a statement neither defines a label nor says anything. -/
def Statement.isBlank (statement : Statement) : Bool :=
  statement.label.isNone && statement.content = .empty

/-- Reads lines from a given number on. `found` holds the statements so far, the
last one first. -/
def readLines (number : Nat) : List (List Char) → List Statement → Except Fault (List Statement)
  | [], found => .ok found.reverse
  | line :: rest, found =>
    match readLine number line with
    | .error fault => .error fault
    | .ok statement =>
      readLines (number + 1) rest (if statement.isBlank then found else statement :: found)

def read (text : String) : Except Fault (List Statement) :=
  readLines 1 (linesOf text.toList) []

end ScriptBackend.Assembly
