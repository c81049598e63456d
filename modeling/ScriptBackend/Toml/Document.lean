import ScriptBackend.Toml.Number
import ScriptBackend.Toml.Reader

/-!
TOML documents: keys, values, and lines that assign values or open tables. Texts
are of one line.
-/
namespace ScriptBackend.Toml

open ScriptBackend.Text

namespace Reader

def characterNumber (width : Nat) : Reader Char := do
  let text ← get
  let digits := text.take width
  let number := ofHex digits
  if digits.length = width && digits.all isHexDigit && number.isValidChar then
    set (text.drop width)
    return Char.ofNat number
  else
    failure

def escape : Reader Char := do
  match ← next with
  | 'b' => return '\x08'
  | 't' => return '\t'
  | 'n' => return '\n'
  | 'f' => return '\x0C'
  | 'r' => return '\r'
  | '"' => return '"'
  | '\\' => return '\\'
  | 'u' => characterNumber 4
  | 'U' => characterNumber 8
  | _ => failure

/-- Takes the rest of a text in double quotes, where a backslash begins an
escape. -/
def quotedText : Reader String :=
  repeated (fun taken => do
    match ← next with
    | '"' => return .done (String.ofList taken.reverse)
    | '\\' => return .more ((← escape) :: taken)
    | c => if isPlain c then return .more (c :: taken) else failure) []

/-- Takes the rest of a text in single quotes, which stands for itself. -/
def literalText : Reader String := do
  let text ← takeWhile fun c => isPlain c && c ≠ '\''
  expect '\''
  return String.ofList text

/-- Whether a character may stand in a key without quotes. -/
def isBare (c : Char) : Bool :=
  isDigit c || ('a' ≤ c && c ≤ 'z') || ('A' ≤ c && c ≤ 'Z') || c = '_' || c = '-'

def keyPart : Reader String := do
  if ← accept '"' then quotedText
  else if ← accept '\'' then literalText
  else
    let name ← takeWhile isBare
    if name.isEmpty then failure else return String.ofList name

/-- How deep values and the tables of a key may be nested. -/
def deepest : Nat := 79

/-- Takes a key of one part or of several with points between them. -/
def key : Reader Key :=
  repeated (fun parents => do
    blanks
    let name ← keyPart
    blanks
    if ← accept '.' then return .more (name :: parents)
    else if deepest ≤ parents.length then failure
    else return .done ⟨parents.reverse, name⟩) []

def scalar : Reader Value := do
  if ← accept '"' then return .text (← quotedText)
  else if ← accept '\'' then return .text (← literalText)
  else
    let word ← takeWhile fun c => isBare c || c = '+' || c = '.'
    ofWord? word

/-- Takes an array, which may spread over lines and may have a comma after its
last item. -/
def array (item : Reader Value) : Reader Value := do
  expect '['
  repeated (fun items => do
    gap
    if ← accept ']' then return .done (.array items.reverse)
    let items := (← item) :: items
    gap
    if ← accept ',' then return .more items
    expect ']'
    return .done (.array items.reverse)) []

/-- Takes a key, its value and the sign between them. -/
def assignment (value : Reader Value) : Reader (Key × Value) := do
  let key ← key
  expect '='
  blanks
  return (key, ← value)

/-- Takes a table in braces, which stays on its line. -/
def bracedTable (item : Reader Value) : Reader Value := do
  expect '\x7b'
  blanks
  if ← accept '\x7d' then return .table .braces []
  repeated (fun entries => do
    let (key, value) ← assignment item
    blanks
    let entries ← Entries.assign key value entries
    if ← accept ',' then return .more entries
    expect '\x7d'
    return .done (.table .braces entries)) []

/-- Takes a value in which at most so many arrays and tables lie within each
other. -/
def value : Nat → Reader Value
  | 0 => scalar
  | nesting + 1 => do
    match (← get).head? with
    | some '[' => array (value nesting)
    | some '\x7b' => bracedTable (value nesting)
    | _ => scalar

/-- Takes a line of a document. The state is the table that the last header
opened, and what all lines so far say. -/
def line (opened : List String) (entries : Entries) :
    Reader (Step (List String × Entries) Entries) := do
  blanks
  match ← get with
  | [] => return .done entries
  | '#' :: _ | '\n' :: _ | '\r' :: _ =>
    endOfLine
    return .more (opened, entries)
  | '[' :: '[' :: rest =>
    set rest
    let key ← key
    expect ']'
    expect ']'
    endOfLine
    return .more (key.path, ← Entries.openItem key entries)
  | '[' :: rest =>
    set rest
    let key ← key
    expect ']'
    endOfLine
    return .more (key.path, ← Entries.openTable key entries)
  | _ =>
    let (key, value) ← assignment (value deepest)
    endOfLine
    return .more (opened, ← Entries.assignAt opened key value entries)

/-- Takes a whole document. A byte order mark may stand before it. -/
def document : Reader Entries := do
  discard <| accept '\uFEFF'
  repeated (fun (opened, entries) => line opened entries) ([], [])

end Reader

/-- The table that a document says, if it is well-formed. -/
def parse? (text : String) : Option Value :=
  (Reader.document.run' text.toList).map (.table .header)

end ScriptBackend.Toml
