/-!
Ids of globals: the number of a block above the offset of a word in it.
-/
namespace ScriptBackend

/-- The number of globals of a block: an id has 18 bits for the offset. -/
def globalsLimit : Nat := 0x40000

/-- The id of the word at an offset in a block. -/
def globalId (block : UInt8) (offset : Nat) : Nat :=
  (block.toNat <<< 18) ||| offset

end ScriptBackend
