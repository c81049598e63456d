import Mathlib.Data.List.Sort
import ScriptBackend.Assembly.Shorthand
import ScriptBackend.Proofs.Instruction.Decoding

/-!
Instructions and shorthands are found by their names. Only hashes of names are
compared; this is enough because no two of the names have the same hash, and it
makes no difference between small and capital letters.
-/
namespace ScriptBackend

/-- In a list without equal keys, a key is found with its value. -/
theorem find?_of_nodup_keys {κ ν : Type} [DecidableEq κ] {entries : List (κ × ν)}
    {key : κ} {value : ν} (hKeys : (entries.map Prod.fst).Nodup) (h : (key, value) ∈ entries) :
    entries.find? (fun entry => entry.1 == key) = some (key, value) := by
  induction entries with
  | nil => cases h
  | cons first rest ih =>
      rw [List.map_cons, List.nodup_cons] at hKeys
      rcases List.mem_cons.mp h with rfl | hRest
      · simp
      · have hOther : first.1 ≠ key := by
          rintro rfl
          exact hKeys.1 (List.mem_map.mpr ⟨_, hRest, rfl⟩)
        rw [List.find?_cons_of_neg (by simpa using hOther)]
        exact ih hKeys.2 hRest

section Case

open Text

/-- The bytes of a letter and of its capital are mixed into a hash alike. -/
theorem lowered_upper : ∀ n < 26, ∃ upper lower : UInt8,
    String.utf8EncodeChar (asciiUpper (Char.ofNat (0x61 + n))) = [upper] ∧
      String.utf8EncodeChar (Char.ofNat (0x61 + n)) = [lower] ∧
        (if 0x41 ≤ upper && upper ≤ 0x5A then upper + 0x20 else upper) =
          if 0x41 ≤ lower && lower ≤ 0x5A then lower + 0x20 else lower := by
  intro n hn
  refine ⟨UInt8.ofNat (0x41 + n), UInt8.ofNat (0x61 + n), ?_⟩
  revert n
  decide

theorem foldl_mixByte_upper (c : Char) (hash : UInt32) :
    (String.utf8EncodeChar (asciiUpper c)).foldl mixByte hash =
      (String.utf8EncodeChar c).foldl mixByte hash := by
  by_cases hLetter : 0x61 ≤ c.toNat ∧ c.toNat ≤ 0x7A
  · obtain ⟨n, hn⟩ := Nat.exists_eq_add_of_le hLetter.1
    obtain ⟨upper, lower, hUpper, hLower, hSame⟩ := lowered_upper n (by omega)
    rw [← hn, Char.ofNat_toNat] at hUpper hLower
    rw [hUpper, hLower, List.foldl_cons, List.foldl_cons, mixByte, mixByte, hSame]
  · have hSame : asciiUpper c = c := by
      refine if_neg fun hRange => hLetter ?_
      simpa [Char.le_def, UInt32.le_iff_toNat_le] using hRange
    rw [hSame]

/-- The case of a name does not matter to its hash. -/
theorem nameHash_upperCased (name : String) : nameHash (upperCased name) = nameHash name := by
  have hBytes : ∀ hash, (name.toList.flatMap fun c =>
    String.utf8EncodeChar (asciiUpper c)).foldl mixByte hash =
      (name.toList.flatMap String.utf8EncodeChar).foldl mixByte hash := by
    induction name.toList with
    | nil => simp
    | cons c rest ih =>
        intro hash
        rw [List.flatMap_cons, List.flatMap_cons, List.foldl_append, List.foldl_append,
          foldl_mixByte_upper, ih]
  rw [nameHash, nameHash, utf8, utf8, upperCased, String.toList_map, List.flatMap_map, hBytes]
end Case

namespace Assembly

/-- No two names of instructions and shorthands have the same hash. -/
theorem nodup_hashes :
    (Opcode.hashes.map Prod.fst ++ Shorthand.hashes.map Prod.fst).Nodup := by
  -- sorted numbers are compared with their neighbours only
  have hSorted : (((Opcode.hashes.map Prod.fst ++ Shorthand.hashes.map Prod.fst).map
      UInt32.toNat).insertionSort (· ≤ ·)).IsChain (· < ·) := by decide +kernel
  have hNodup := (List.isChain_iff_pairwise.mp hSorted).imp Nat.ne_of_lt
  exact ((List.perm_insertionSort _ _).nodup_iff.mp hNodup).of_map _

/-- A shorthand is found by its mnemonic, which is none of a primitive
instruction. -/
theorem Shorthand.named?_mnemonic {shorthand : Shorthand} (h : shorthand ∈ Shorthand.all) :
    Opcode.named? shorthand.mnemonic = none ∧
      Shorthand.named? shorthand.mnemonic = some shorthand := by
  have hEntry : (nameHash shorthand.mnemonic, shorthand) ∈ Shorthand.hashes :=
    List.mem_map_of_mem h
  obtain ⟨_, hOwn, hApart⟩ := List.nodup_append.mp nodup_hashes
  constructor
  · rw [Opcode.named?, Opcode.ofHash?, Option.map_eq_none_iff, List.find?_eq_none]
    intro entry hOpcode hSame
    refine hApart entry.1 (List.mem_map_of_mem hOpcode) _ (List.mem_map_of_mem hEntry) ?_
    simpa using hSame
  · rw [Shorthand.named?, find?_of_nodup_keys hOwn hEntry]
    rfl

theorem Shorthand.named?_upperCased (name : String) :
    Shorthand.named? (Text.upperCased name) = Shorthand.named? name := by
  rw [named?, named?, nameHash_upperCased]

end Assembly

namespace Opcode

theorem named?_upperCased (name : String) : named? (Text.upperCased name) = named? name := by
  rw [named?, named?, nameHash_upperCased]

/-- Each opcode is found by its mnemonic, since no two mnemonics have one hash. -/
theorem named?_mnemonic (opcode : Opcode) : named? opcode.mnemonic = some opcode := by
  have hEntry : (nameHash opcode.mnemonic, opcode) ∈ hashes := List.mem_map_of_mem (mem_all opcode)
  obtain ⟨hOwn, _⟩ := List.nodup_append.mp Assembly.nodup_hashes
  rw [named?, ofHash?, find?_of_nodup_keys hOwn hEntry]
  rfl

/-- Different opcodes have different mnemonics. -/
theorem mnemonic_ne {opcode : Opcode} (other : Opcode) (h : opcode ≠ other) :
    opcode.mnemonic ≠ other.mnemonic := by
  intro hSame
  have hNamed := named?_mnemonic opcode
  rw [hSame, named?_mnemonic] at hNamed
  exact h (Option.some.inj hNamed).symm

end Opcode

namespace Assembly

variable {symbols : Symbols} {strings : StringPages} {line : Line}

/-- An instruction is expanded to itself. -/
theorem expand_opcode (opcode : Opcode) (operands : List Operand) :
    expand symbols strings line opcode.mnemonic operands = .ok [⟨opcode, operands⟩] := by
  rw [expand, Opcode.named?_mnemonic]

/-- A shorthand is expanded as its rule says. -/
theorem expand_shorthand {shorthand : Shorthand} (h : shorthand ∈ Shorthand.all)
    (operands : List Operand) :
    expand symbols strings line shorthand.mnemonic operands =
      Expansion.apply ⟨line, shorthand.mnemonic, symbols, strings⟩ shorthand.rule operands := by
  obtain ⟨hOpcode, hNamed⟩ := Shorthand.named?_mnemonic h
  simp only [expand, hOpcode, hNamed]

/-- Only a shorthand pushes a literal. -/
theorem pushedText?_opcode (opcode : Opcode) (operands : List Operand) :
    pushedText? opcode.mnemonic operands = none := by
  unfold pushedText?
  rw [Opcode.named?_mnemonic]
  split <;> rfl

/-- A shorthand pushes a literal if its rule says so. -/
theorem pushedText?_shorthand {shorthand : Shorthand} (h : shorthand ∈ Shorthand.all)
    (text : String) :
    pushedText? shorthand.mnemonic [.text text] =
      if shorthand.rule = .pushText then some text else none := by
  obtain ⟨hOpcode, hNamed⟩ := Shorthand.named?_mnemonic h
  simp only [pushedText?, hOpcode, hNamed]

end Assembly
end ScriptBackend
