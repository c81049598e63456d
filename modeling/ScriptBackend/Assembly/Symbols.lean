import Std.Data.TreeMap
import ScriptBackend.Assembly.Fault
import ScriptBackend.Assembly.Scope

/-!
Symbols: the constants and data labels of a unit, which all have their values
before any code is laid out, and the integers that operands denote under them.
-/
namespace ScriptBackend.Assembly

/-- The smallest integer that fits a word of 32 bits, signed. -/
def leastInt32 : Int := -0x80000000

/-- The largest integer that fits a word of 32 bits, unsigned. -/
def greatestUInt32 : Nat := 0xFFFFFFFF

/-- The value of a constant or a data label. -/
inductive Value where
  | int (value : Int)
  | float (value : Binary32)
deriving DecidableEq

/-- A label outside the code: its segment, the index, id or offset it stands
for, and the number of words up to the next label. -/
structure DataSymbol where
  segment : Segment
  value : Nat
  words : Nat
deriving DecidableEq

/-- Constants and data labels by their full names. -/
structure Symbols where
  constants : Std.TreeMap String Value
  data : Std.TreeMap String DataSymbol

namespace Symbols

def empty : Symbols := ⟨∅, ∅⟩

def contains (symbols : Symbols) (name : String) : Bool :=
  symbols.constants.contains name || symbols.data.contains name

/-- The value of a name. A constant goes before a data label. -/
def value? (symbols : Symbols) (name : String) : Option Value :=
  match symbols.constants[name]? with
  | some value => some value
  | none => symbols.data[name]?.map fun symbol => .int symbol.value

/-- A name that is no symbol has no value. -/
theorem value?_of_contains {symbols : Symbols} {name : String} (h : symbols.contains name = false) :
    symbols.value? name = none := by
  simp only [contains, Bool.or_eq_false_iff] at h
  rw [value?, Std.TreeMap.getElem?_eq_none_of_contains_eq_false h.1,
    Std.TreeMap.getElem?_eq_none_of_contains_eq_false h.2]
  rfl

end Symbols

/-- How a fault about an operand names the statement: by its mnemonic, or the
whole directive. -/
def Content.title : Content → String
  | .instruction mnemonic _ => mnemonic
  | .directive said => said.render
  | .empty => ""

def Line.fault (line : Line) (cause : Cause) : Fault :=
  ⟨line.number, cause⟩

/-- The integer that an operand denotes, if it is known without the code layout:
a literal, a constant, a data label or a number of words. A name that is none of
these has no value here. -/
def Symbols.intOperand (symbols : Symbols) (line : Line) : Operand → Except Fault (Option Int)
  | .int value => .ok (some value.toInt)
  | .name name =>
    match symbols.value? (line.qualify name) with
    | some (.int value) => .ok (some value)
    | some (.float _) =>
      .error (line.fault (.invalidOperand line.statement.content.title (.floatConstant name)))
    | none => .ok none
  | .sizeOf name =>
    match symbols.data[line.qualify name]? with
    | some symbol => .ok (some symbol.words)
    | none => .error (line.fault (.undefinedLabel name))
  | operand =>
    .error (line.fault (.invalidOperand line.statement.content.title (.notAnInteger operand)))

end ScriptBackend.Assembly
