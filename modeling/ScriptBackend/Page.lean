/-!
Pages: code, strings and globals are stored in pages of a fixed size, and
nothing that has to be read in one piece may lie across the end of a page.
-/
namespace ScriptBackend.Page

def size : Nat := 0x4000

/-- The address at which something of `length` items is put when everything
before `address` is taken: there, or at the beginning of the next page when it
would not fit on this one. -/
def place (address length : Nat) : Nat :=
  if size < address % size + length then address + (size - address % size) else address

/-- Items cut into full pages and a shorter last one. -/
def split {α : Type} (items : List α) : List (List α) :=
  if _h : items.isEmpty then []
  else items.take size :: split (items.drop size)
termination_by items.length
decreasing_by
  have filled : 0 < items.length := by
    cases items with
    | nil => simp at _h
    | cons => exact Nat.succ_pos _
  rw [List.length_drop]
  exact Nat.sub_lt filled (by decide)

end ScriptBackend.Page
