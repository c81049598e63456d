import ScriptBackend.Binary32.Basic

/-!
Script assembly as statements. A statement is one line: an optional label, then
a directive or an instruction or nothing, then an optional comment.
-/
namespace ScriptBackend.Assembly

/-- The section of the unit that statements belong to. -/
inductive Segment where
  | code
  | statics
  | arguments
  | globals (block : UInt8)
  | strings
  | natives
deriving DecidableEq, Inhabited

/-- An operand of an instruction or a directive. -/
inductive Operand where
  | int (value : Int64)
  | float (value : Binary32)
  | text (value : String)
  /-- A label, a constant or a native. -/
  | name (name : String)
  /-- The number of words of a labelled piece of data. -/
  | sizeOf (label : String)
  /-- A case of a branch. -/
  | case (value : Int64) (label : String)
deriving DecidableEq

/-- What a statement can say besides an instruction. -/
inductive Directive where
  | scriptName (name : String)
  | scriptHash (hash : UInt32)
  | segment (segment : Segment)
  | ints (values : List Operand)
  | floats (values : List Operand)
  | text (value : String)
  /-- Zero words, as many as given. -/
  | zero (count : UInt32)
  | const (name : String) (value : Operand)
  | native (hash : UInt64)
deriving DecidableEq

/-- What stands on a line between the label and the comment. -/
inductive Content where
  | empty
  | directive (directive : Directive)
  | instruction (mnemonic : String) (operands : List Operand)
deriving DecidableEq

/-- One line of assembly. Lines count from 1; a statement that was never text
has line 0. -/
structure Statement where
  line : Nat
  label : Option String
  content : Content
  comment : Option String
deriving DecidableEq

namespace Statement

def ofLabel (name : String) : Statement :=
  ⟨0, some name, .empty, none⟩

def ofDirective (directive : Directive) : Statement :=
  ⟨0, none, .directive directive, none⟩

def ofInstruction (mnemonic : String) (operands : List Operand) : Statement :=
  ⟨0, none, .instruction mnemonic operands, none⟩

end Statement

/-- Whether a label belongs to the function around it: its name begins with a
point. -/
def isLocal (name : String) : Bool :=
  name.toList.head? == some '.'

end ScriptBackend.Assembly
