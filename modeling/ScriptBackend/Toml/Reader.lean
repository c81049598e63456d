import ScriptBackend.Toml.Value

/-!
Reading a text from its front. A reader takes what it needs and fails on a
malformed text. Repetition is bounded by the text itself: a step that goes on
has taken at least one character.
-/
namespace ScriptBackend.Toml

/-- What reads the front of a text. It fails when the text is malformed. -/
abbrev Reader := StateT (List Char) Option

/-- What comes of one step of a repetition. -/
inductive Step (σ α : Type) where
  | more (state : σ)
  | done (result : α)

namespace Reader

variable {σ α : Type}

/-- Repeats a step at most once for each item of a list and once more. -/
def repeatWithin (step : σ → Reader (Step σ α)) : List Char → σ → Reader α
  | [], state => do
    match ← step state with
    | .more _ => failure
    | .done result => return result
  | _ :: bound, state => do
    match ← step state with
    | .more next => repeatWithin step bound next
    | .done result => return result

/-- Repeats a step until it is done. The text bounds the number of steps, which
is enough when every step but the last takes a character. -/
def repeated (step : σ → Reader (Step σ α)) (start : σ) : Reader α := do
  repeatWithin step (← get) start

def next : Reader Char := do
  match ← get with
  | c :: rest => set rest; return c
  | [] => failure

/-- Takes the longest beginning of the text whose characters are all of one kind. -/
def takeWhile (belongs : Char → Bool) : Reader (List Char) := do
  let text ← get
  set (text.dropWhile belongs)
  return text.takeWhile belongs

def accept (c : Char) : Reader Bool := do
  match ← get with
  | first :: rest => if first = c then set rest; return true else return false
  | [] => return false

def expect (c : Char) : Reader Unit := do
  unless ← accept c do failure

def blanks : Reader Unit := do
  discard <| takeWhile fun c => c = ' ' || c = '\t'

/-- Whether a character may stand in comments and texts: a tab, or what is no
control character of ASCII. -/
def isPlain (c : Char) : Bool :=
  c = '\t' || (' ' ≤ c && c ≠ '\x7F')

/-- Takes a comment, if there is one, up to the end of its line. -/
def comment : Reader Unit := do
  if ← accept '#' then discard <| takeWhile isPlain

/-- Takes a line break: a line feed, which a carriage return may precede. -/
def lineBreak : Reader Unit := do
  discard <| accept '\r'
  expect '\n'

/-- Takes what may follow the contents of a line, and the end of the line or of
the text. -/
def endOfLine : Reader Unit := do
  blanks
  comment
  unless (← get).isEmpty do lineBreak

def gap : Reader Unit :=
  repeated (fun _ => do
    blanks
    comment
    match (← get).head? with
    | some '\n' | some '\r' => lineBreak; return .more ()
    | _ => return .done ()) ()

end Reader
end ScriptBackend.Toml
