/-!
TOML values, and how tables grow. A table remembers how it came to be, because
that decides what a later part of the document may still add to it.
-/
namespace ScriptBackend.Toml

/-- How a table came to be. -/
inductive Origin where
  /-- It was written in braces, which is all there will be. -/
  | braces
  /-- It has a header of its own. -/
  | header
  /-- It was passed on the way to the table of a header. -/
  | implied
  /-- It was passed by a dotted key. -/
  | dotted
deriving DecidableEq

/-- A value of a document. -/
inductive Value where
  | text (content : String)
  | int (number : Int)
  /-- A floating-point number as it is written. -/
  | float (literal : String)
  | bool (truth : Bool)
  | array (items : List Value)
  | table (origin : Origin) (entries : List (String × Value))
  /-- An array of tables with headers of their own. It grows at its end, so the
  last table comes first and the earlier ones stand in reverse order. -/
  | tables (last : List (String × Value)) (earlier : List (List (String × Value)))

abbrev Entries := List (String × Value)

/-- A dotted key: the tables that lead to it, and its name in the last of them. -/
structure Key where
  parents : List String
  name : String

def Key.path (key : Key) : List String :=
  key.parents ++ [key.name]

namespace Entries

/-- Replaces the value of a key, or adds the key at the end. -/
def put (key : String) (value : Value) : Entries → Entries
  | [] => [(key, value)]
  | (other, old) :: rest =>
    if other = key then (key, value) :: rest else (other, old) :: put key value rest

/-- Changes the table at the end of a path, which tables and the last tables of
growing arrays lead to. Tables that are missing on the way arise with the origin
`missing`. A dotted key does not pass a table that has a header of its own, and
nothing passes braces. -/
def changeAt (missing : Origin) (change : Origin → Entries → Option Entries) :
    List String → Origin → Entries → Option Entries
  | [], origin, entries => change origin entries
  | key :: path, _, entries => do
    let value ←
      match entries.lookup key with
      | none => (changeAt missing change path missing []).map (.table missing)
      | some (.table origin inner) =>
        if origin = .braces || (origin = .header && missing = .dotted) then none
        else (changeAt missing change path origin inner).map (.table origin)
      | some (.tables last earlier) =>
        (changeAt missing change path .header last).map (.tables · earlier)
      | some _ => none
    return Entries.put key value entries

/-- Stores a value under a new key. Of the tables that a dotted key may pass
only those that dotted keys made take its value. -/
def assign (key : Key) (value : Value) (entries : Entries) : Option Entries :=
  changeAt .dotted (fun origin inner =>
    if (!key.parents.isEmpty && origin ≠ .dotted) || (inner.lookup key.name).isSome then none
    else some (inner ++ [(key.name, value)])) key.parents .header entries

/-- Gives a table its header. The table is new or was only implied before. -/
def openTable (key : Key) (entries : Entries) : Option Entries :=
  changeAt .implied (fun _ inner =>
    match inner.lookup key.name with
    | none => some (inner ++ [(key.name, .table .header [])])
    | some (.table .implied known) => some (Entries.put key.name (.table .header known) inner)
    | some _ => none) key.parents .header entries

/-- Adds a table to a growing array, or begins the array with it. -/
def openItem (key : Key) (entries : Entries) : Option Entries :=
  changeAt .implied (fun _ inner =>
    match inner.lookup key.name with
    | none => some (inner ++ [(key.name, .tables [] [])])
    | some (.tables last earlier) =>
        some (Entries.put key.name (.tables [] (last :: earlier)) inner)
    | some _ => none) key.parents .header entries

/-- Stores a value in the table that a header has opened. -/
def assignAt (opened : List String) (key : Key) (value : Value) (entries : Entries) :
    Option Entries :=
  changeAt .implied (fun _ inner => Entries.assign key value inner) opened .header entries

end Entries

def Value.items? : Value → Option (List Value)
  | .array items => some items
  | .tables last earlier => some ((last :: earlier).reverse.map (.table .header))
  | _ => none

/-- The fields of a record, each by its name from a table or by its position
from an array. What a record does not name is left out. -/
def Value.fields? (names : List String) : Value → Option (List (Option Value))
  | .table _ entries => some (names.map fun name => entries.lookup name)
  | value => value.items?.map fun items => (List.range names.length).map fun i => items[i]?

def Value.text? : Value → Option String
  | .text content => some content
  | _ => none

def Value.bool? : Value → Option Bool
  | .bool truth => some truth
  | _ => none

def Value.word? : Value → Option UInt32
  | .int number =>
      if 0 ≤ number && number < 0x100000000 then some (UInt32.ofNat number.toNat) else none
  | _ => none

def fieldOr {α : Type} (absent : α) (read : Value → Option α) : Option Value → Option α
  | none => some absent
  | some value => read value

end ScriptBackend.Toml
