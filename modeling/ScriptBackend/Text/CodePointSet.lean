/-!
Sets of code points. A set is given by the places where membership changes, so a
property of the whole code space is a short increasing table and a question is
one bisection.
-/
namespace ScriptBackend.Text

/-- The code points at which membership changes, in increasing order. Code point
zero is outside unless the table starts with it. -/
structure CodePointSet where
  changes : Array Nat

namespace CodePointSet

/-- The number of changes at or below `point`, searched between two positions of
the table. -/
def changesUpTo (set : CodePointSet) (point low high : Nat) : Nat :=
  if low < high then
    let middle := (low + high) / 2
    if set.changes.getD middle 0 ≤ point then
      set.changesUpTo point (middle + 1) high
    else
      set.changesUpTo point low middle
  else
    low
termination_by high - low

/-- A character belongs to the set when membership has changed an odd number of
times before it. -/
def contains (set : CodePointSet) (c : Char) : Bool :=
  set.changesUpTo c.toNat 0 set.changes.size % 2 == 1

end CodePointSet
end ScriptBackend.Text
