import Mathlib.Data.List.Range
import ScriptBackend.Word

/-!
The memory of the machine. Words have addresses that count bytes, eight for each
word; memory is seen as a function of the positions of words, and words next to
each other are written and read together.
-/
namespace ScriptBackend

abbrev Memory := Nat → Word

/-- A stack, the topmost word first, and the memory apart from it. -/
structure Cells where
  stack : List Word
  memory : Memory

def addressLimit : Nat := 0x2000000000000000

/-- The address of the word at a position. -/
def addressOf (position : Nat) : Word :=
  ⟨UInt64.ofNat (position * 8)⟩

namespace Word

/-- The position of the word at an address. -/
def position (address : Word) : Nat :=
  address.bits.toNat / 8

/-- The address some words behind another one, or before it. Addresses have 64
bits and wrap around. -/
def moved (address : Word) (words : Int32) : Word :=
  ⟨address.bits + words.toInt64.toUInt64 * 8⟩

/-- The address of an item of an array at an address, behind the word that holds
the length. -/
def item (array index : Word) (size : Nat) : Word :=
  ⟨array.bits + 8 + index.bits * UInt64.ofNat size * 8⟩

@[simp] theorem moved_zero (address : Word) : address.moved 0 = address := by
  have hZero : (0 : Int32).toInt64.toUInt64 * 8 = 0 := rfl
  rw [moved, hZero, UInt64.add_zero]

end Word

/-- A position that has an address is found again from it. -/
theorem position_addressOf {position : Nat} (h : position < addressLimit) :
    (addressOf position).position = position := by
  unfold addressLimit at h
  rw [Word.position, addressOf, UInt64.toNat_ofNat_of_lt' (by unfold UInt64.size; omega)]
  exact Nat.mul_div_cancel position (by decide)

/-- A distance of 31 bits is added as it is. -/
theorem Word.moved_ofNat (address : Word) {offset : Nat} (h : offset < 0x80000000) :
    address.moved (Int32.ofNat offset) = ⟨address.bits + UInt64.ofNat offset * 8⟩ := by
  have hMax : Int32.maxValue.toInt = 0x7FFFFFFF := rfl
  rw [moved, Int32.toInt64_ofNat' (by omega), Int64.toUInt64_ofNat']

/-- An address is moved by whole words, so that it leads to as many positions
further on. -/
theorem moved_addressOf (position : Nat) {offset : Nat} (h : offset < 0x80000000) :
    (addressOf position).moved (Int32.ofNat offset) = addressOf (position + offset) := by
  rw [Word.moved_ofNat _ h, addressOf, addressOf, Nat.add_mul, UInt64.ofNat_add,
    UInt64.ofNat_mul offset]
  rfl

/-- Pushing an integer keeps its low 32 bits. -/
theorem Word.toInt_ofInt (number : Int) : (Word.ofInt number).toInt = Int32.ofInt number := by
  have hLow : ((number % 0x100000000).toNat : Int) = number % 0x100000000 := by omega
  have hMod : (number % 0x100000000).bmod Int32.size = number.bmod Int32.size :=
    Int.emod_bmod number Int32.size
  have hWord : (Word.ofInt number).toInt = Int32.ofNat (number % 0x100000000).toNat := by
    rw [ofInt, toInt, UInt64.toUInt32_ofNat']
    rfl
  rw [hWord, ← Int32.toInt_inj, Int32.toInt_ofNat', Int32.toInt_ofInt, hLow, hMod]

/-! Words that lie next to each other -/

/-- As many words as counted from a position on. -/
def wordsAt (memory : Memory) (position count : Nat) : List Word :=
  (List.range count).map fun i => memory (position + i)

/-- The memory once words are written to it from a position on. -/
def written (memory : Memory) (position : Nat) (words : List Word) : Memory := fun i =>
  if position ≤ i then words[i - position]?.getD (memory i) else memory i

section Written

variable {memory : Memory} {position : Nat}

@[simp] theorem length_wordsAt (memory : Memory) (position count : Nat) :
    (wordsAt memory position count).length = count := by
  simp [wordsAt]

/-- Words from a position on are the first one and those behind it. -/
theorem wordsAt_cons (memory : Memory) (position count : Nat) :
    wordsAt memory position (count + 1) =
      memory position :: wordsAt memory (position + 1) count := by
  rw [wordsAt, List.range_succ_eq_map, List.map_cons, List.map_map, wordsAt, Nat.add_zero]
  congr 1
  refine List.map_congr_left fun i _ => ?_
  rw [Function.comp_apply, Nat.succ_eq_add_one, Nat.add_comm i, Nat.add_assoc]

/-- One more word is the one behind those counted so far. -/
theorem wordsAt_concat (memory : Memory) (position count : Nat) :
    wordsAt memory position (count + 1) =
      wordsAt memory position count ++ [memory (position + count)] := by
  rw [wordsAt, List.range_succ, List.map_append, List.map_singleton, wordsAt]

theorem wordsAt_one (memory : Memory) (position : Nat) :
    wordsAt memory position 1 = [memory position] := rfl

/-- Words are the same in memories that agree on their places. -/
theorem wordsAt_congr {other : Memory} {count : Nat}
    (h : ∀ i, position ≤ i → i < position + count → memory i = other i) :
    wordsAt memory position count = wordsAt other position count := by
  refine List.map_congr_left fun i hi => h _ (Nat.le_add_right _ _) ?_
  exact Nat.add_lt_add_left (List.mem_range.mp hi) position

@[simp] theorem written_nil : written memory position [] = memory := by
  funext i
  simp [written]

/-- The first of the words written stands at the position. -/
theorem written_self (word : Word) (rest : List Word) :
    written memory position (word :: rest) position = word := by
  simp [written]

/-- Words in front of those written stay as they are. -/
theorem written_of_lt {i : Nat} (h : i < position) (words : List Word) :
    written memory position words i = memory i :=
  if_neg (Nat.not_le_of_lt h)

/-- Words behind the last one written stay. -/
theorem written_of_ge {i : Nat} {words : List Word} (h : position + words.length ≤ i) :
    written memory position words i = memory i := by
  unfold written
  split
  · rw [List.getElem?_eq_none (by omega), Option.getD_none]
  · rfl

/-- Words may be written one after the other. -/
theorem written_cons (word : Word) (rest : List Word) :
    written (written memory position [word]) (position + 1) rest =
      written memory position (word :: rest) := by
  funext i
  rcases Nat.lt_trichotomy i position with hBefore | rfl | hBehind
  · rw [written_of_lt (Nat.lt_succ_of_lt hBefore), written_of_lt hBefore, written_of_lt hBefore]
  · rw [written_of_lt (Nat.lt_succ_self _), written_self, written_self]
  · obtain ⟨k, rfl⟩ := Nat.exists_eq_add_of_lt hBehind
    have hIndex : position + k + 1 - position = k + 1 := by omega
    have hRest : position + k + 1 - (position + 1) = k := by omega
    rw [written, if_pos (by omega), hRest, written_of_ge (by simp), written,
      if_pos (by omega), hIndex, List.getElem?_cons_succ]

/-- The last word may be written before the others. -/
theorem written_concat (words : List Word) (word : Word) :
    written (written memory (position + words.length) [word]) position words =
      written memory position (words ++ [word]) := by
  funext i
  rcases Nat.lt_trichotomy i (position + words.length) with hBefore | rfl | hBehind
  · rw [written, written_of_lt hBefore]
    by_cases hInside : position ≤ i
    · rw [if_pos hInside, written, if_pos hInside, List.getElem?_append_left (by omega)]
    · rw [if_neg hInside, written_of_lt (Nat.lt_of_not_le hInside)]
  · rw [written_of_ge (Nat.le_refl _), written_self, written, if_pos (Nat.le_add_right _ _),
      Nat.add_sub_cancel_left, List.getElem?_concat_length, Option.getD_some]
  · have hLength : (words ++ [word]).length = words.length + 1 := List.length_append
    rw [written_of_ge (Nat.le_of_lt hBehind), written_of_ge hBehind, written_of_ge (by omega)]

/-- Writing what is there changes nothing. -/
theorem written_eq_self {words : List Word}
    (h : ∀ (i : Nat) word, words[i]? = some word → memory (position + i) = word) :
    written memory position words = memory := by
  funext i
  unfold written
  split
  · next hBehind =>
      cases hWord : words[i - position]? with
      | none => rfl
      | some word =>
          rw [Option.getD_some, ← h _ word hWord, Nat.add_sub_cancel' hBehind]
  · rfl

/-- Words that are written are read back. -/
theorem wordsAt_written (memory : Memory) (position : Nat) (words : List Word) :
    wordsAt (written memory position words) position words.length = words := by
  refine List.ext_getElem (by simp) fun i hLeft hRight => ?_
  simp [wordsAt, written, hRight]

end Written

end ScriptBackend
