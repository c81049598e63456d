import Std.Data.TreeMap
import ScriptBackend.Page
import ScriptBackend.Text.Bytes

/-!
String pages: the literals of a script, each stored once with a zero byte after
it and never across the end of a page.
-/
namespace ScriptBackend

/-- The bytes of the literals stored so far, and where each begins. -/
structure StringPages where
  bytes : Array UInt8
  offsets : Std.TreeMap String Nat

namespace StringPages

/-- The longest literal that fits on a page together with its zero byte. -/
def maxLength : Nat := Page.size - 1

def empty : StringPages := ⟨#[], ∅⟩

/-- The number of bytes used, with the gaps at the ends of pages. -/
def size (pages : StringPages) : Nat :=
  pages.bytes.size

def offset? (pages : StringPages) (text : String) : Option Nat :=
  pages.offsets[text]?

/-- The offset of a literal, which is stored when it is new. A literal too long
for a page has no offset and changes nothing. -/
def intern (pages : StringPages) (text : String) : Option Nat × StringPages :=
  match pages.offsets[text]? with
  | some offset => (some offset, pages)
  | none =>
    let stored := Text.utf8 text
    if maxLength < stored.length then
      (none, pages)
    else
      let offset := Page.place pages.size (stored.length + 1)
      let gap : Array UInt8 := Array.replicate (offset - pages.size) 0
      (some offset,
        { bytes := ((pages.bytes ++ gap) ++ stored).push 0
          offsets := pages.offsets.insert text offset })

def toPages (pages : StringPages) : List (List UInt8) :=
  Page.split pages.bytes.toList

end StringPages
end ScriptBackend
