import ScriptBackend.Assembly.Statement

/-!
Scopes. A label without a leading point in the code segment opens the scope of a
function; local labels get the name of the scope they stand in before their own.
-/
namespace ScriptBackend.Assembly

/-- The full name of a label that is mentioned in a scope. -/
def qualify (scope : Option String) (name : String) : String :=
  if isLocal name then scope.getD "" ++ name else name

/-- A statement with the segment and scope it stands in, and the full name of
its label. -/
structure Line where
  statement : Statement
  segment : Segment
  label : Option String
  scope : Option String

namespace Line

def number (line : Line) : Nat :=
  line.statement.line

def qualify (line : Line) (name : String) : String :=
  Assembly.qualify line.scope name

end Line

/-- The segment and scope after the statements read so far, and those statements. -/
structure Scoping where
  segment : Segment
  scope : Option String
  lines : Array Line

namespace Scoping

/-- Before the first statement: the code segment, and no function. -/
def start : Scoping := ⟨.code, none, #[]⟩

/-- The segment that a statement stands in. A segment directive stands in the
segment it begins. -/
def segmentOf (current : Segment) : Content → Segment
  | .directive (.segment segment) => segment
  | _ => current

def add (scoping : Scoping) (statement : Statement) : Scoping :=
  let segment := segmentOf scoping.segment statement.content
  let scope :=
    match statement.label with
    | some name => if !isLocal name && segment = .code then some name else scoping.scope
    | none => scoping.scope
  let label := statement.label.map (qualify scoping.scope)
  ⟨segment, scope, scoping.lines.push ⟨statement, segment, label, scope⟩⟩

end Scoping

def scopeLines (statements : List Statement) : List Line :=
  (statements.foldl Scoping.add Scoping.start).lines.toList

end ScriptBackend.Assembly
