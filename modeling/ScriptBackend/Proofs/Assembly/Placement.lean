import ScriptBackend.Proofs.Assembly.Expansion

/-!
The places of primitives. An arrangement lists the primitives of every line with
the addresses and sizes that paging gives them; laying out the code of a unit is
finding its arrangement, and the label table says where the next primitive
behind each label begins.
-/
namespace ScriptBackend

namespace Page

theorem le_place (address length : Nat) : address ≤ place address length := by
  unfold place
  split <;> omega

/-- What fits on the page that is begun is put at once. -/
theorem place_of_fits {address length : Nat} (h : address % size + length ≤ size) :
    place address length = address :=
  if_neg (Nat.not_lt.mpr h)

/-- What would cross the end of its page is put at the beginning of the next one. -/
theorem place_of_crosses {address length : Nat} (h : size < address % size + length) :
    place address length = (address / size + 1) * size := by
  have hMod : address % size < size := Nat.mod_lt _ (by decide)
  have hSplit := Nat.div_add_mod address size
  rw [place, if_pos h, Nat.add_mul, Nat.mul_comm, Nat.one_mul]
  omega

/-- What is put at its place lies on one page. -/
theorem place_fits {length : Nat} (address : Nat) (h : length ≤ size) :
    place address length % size + length ≤ size := by
  by_cases hFits : address % size + length ≤ size
  · rw [place_of_fits hFits]
    exact hFits
  · rw [place_of_crosses (Nat.not_le.mp hFits), Nat.mul_mod_left]
    omega

end Page

namespace Assembly

open Outcome

/-- A primitive of a line in its place: the address of its first byte and the
number of its bytes. -/
structure Located where
  line : Line
  primitive : Primitive
  address : Nat
  size : Nat

def Located.endAddress (located : Located) : Nat :=
  located.address + located.size

/-- Primitives that fill the code from one address to another. Each has its size
and begins where the one before it ends, or at the next page when it would not
fit. -/
def Contiguous (options : Options) : Nat → List Located → Nat → Prop
  | start, [], finish => start = finish
  | start, located :: rest, finish =>
    located.primitive.size located.line options = .ok located.size ∧
      located.address = Page.place start located.size ∧
      Contiguous options located.endAddress rest finish

theorem Contiguous.le {options : Options} {row : List Located} {start finish : Nat}
    (h : Contiguous options start row finish) : start ≤ finish := by
  induction row generalizing start with
  | nil => exact Nat.le_of_eq h
  | cons located rest ih =>
      obtain ⟨_, hAddress, hRest⟩ := h
      have hPlace := Page.le_place start located.size
      have hLater := ih hRest
      simp only [Located.endAddress] at hLater
      omega

/-- A row goes on behind another one where that one ends. -/
theorem Contiguous.append {options : Options} {first second : List Located}
    {start middle finish : Nat} (h : Contiguous options start first middle)
    (hNext : Contiguous options middle second finish) :
    Contiguous options start (first ++ second) finish := by
  induction first generalizing start with
  | nil =>
      cases h
      exact hNext
  | cons located rest ih =>
      obtain ⟨hSize, hAddress, hRest⟩ := h
      exact ⟨hSize, hAddress, ih hRest⟩

/-- The first of located primitives, or the end of the code, begins here. -/
def firstAddress (located : List Located) (finish : Nat) : Nat :=
  (located.head?.map Located.address).getD finish

/-- A row begins within its bounds, also when it is empty. -/
theorem Contiguous.firstAddress_le {options : Options} {row : List Located} {start finish : Nat}
    (h : Contiguous options start row finish) : firstAddress row finish ≤ finish := by
  cases row with
  | nil => exact Nat.le_refl _
  | cons located rest =>
      have hRest := h.2.2.le
      simp only [Located.endAddress] at hRest
      show located.address ≤ finish
      omega

/-- The lines of a unit with their primitives in place, one row a line. -/
inductive Arranged (symbols : Symbols) (strings : StringPages) (options : Options) :
    Nat → List Line → List (List Located) → Nat → Prop where
  | nil (address : Nat) : Arranged symbols strings options address [] [] address
  | cons {start middle finish : Nat} {line : Line} {lines : List Line} {row : List Located}
      {rows : List (List Located)}
      (primitives : line.primitives symbols strings = .ok (row.map Located.primitive))
      (own : ∀ located ∈ row, located.line = line)
      (places : Contiguous options start row middle)
      (rest : Arranged symbols strings options middle lines rows finish) :
      Arranged symbols strings options start (line :: lines) (row :: rows) finish

namespace Arranged

variable {symbols : Symbols} {strings : StringPages} {options : Options} {start finish : Nat}
  {lines : List Line} {rows : List (List Located)}

theorem length_eq (h : Arranged symbols strings options start lines rows finish) :
    rows.length = lines.length := by
  induction h with
  | nil => rfl
  | cons primitives own places rest ih => simp [ih]

/-- The rows one behind the other fill the code. -/
theorem contiguous (h : Arranged symbols strings options start lines rows finish) :
    Contiguous options start rows.flatten finish := by
  induction h with
  | nil => rfl
  | cons primitives own places rest ih => exact places.append ih

theorem le (h : Arranged symbols strings options start lines rows finish) : start ≤ finish :=
  h.contiguous.le

/-- An arrangement stays one when more literals are stored. -/
theorem mono {later : StringPages} (hKeeps : strings.Keeps later)
    (h : Arranged symbols strings options start lines rows finish) :
    Arranged symbols later options start lines rows finish := by
  induction h with
  | nil address => exact .nil address
  | cons primitives own places rest ih =>
      exact .cons (Line.primitives_of_keeps hKeeps primitives) own places ih

/-- The row of a line holds the primitives of its instruction. -/
theorem row_of_line {i : Nat} {line : Line} {row : List Located}
    (h : Arranged symbols strings options start lines rows finish)
    (hLine : lines[i]? = some line) (hRow : rows[i]? = some row) :
    line.primitives symbols strings = .ok (row.map Located.primitive) ∧
      ∀ located ∈ row, located.line = line := by
  induction h generalizing i with
  | nil => simp at hLine
  | cons primitives own places rest ih =>
      cases i with
      | zero =>
          simp only [List.getElem?_cons_zero, Option.some.injEq] at hLine hRow
          subst hLine hRow
          exact ⟨primitives, own⟩
      | succ i =>
          simp only [List.getElem?_cons_succ] at hLine hRow
          exact ih hLine hRow

/-- Every primitive comes from the instruction of one of the lines. -/
theorem expanded_of_mem (h : Arranged symbols strings options start lines rows finish)
    {located : Located} (hMem : located ∈ rows.flatten) :
    located.line ∈ lines ∧ ∃ mnemonic operands primitives,
      located.line.instruction? = some (mnemonic, operands) ∧
      expand symbols strings located.line mnemonic operands = .ok primitives ∧
      located.primitive ∈ primitives := by
  induction h with
  | nil => cases hMem
  | @cons _ _ _ line _ row _ primitives own _ _ ih =>
      rcases List.mem_append.mp hMem with hFirst | hLater
      · refine ⟨by simp [own located hFirst], ?_⟩
        rw [own located hFirst]
        rw [Line.primitives] at primitives
        split at primitives
        · rw [List.map_eq_nil_iff.mp (Except.ok.inj primitives).symm] at hFirst
          cases hFirst
        · next mnemonic operands hInstruction =>
            exact ⟨mnemonic, operands, _, hInstruction, primitives, List.mem_map_of_mem hFirst⟩
      · obtain ⟨hLine, hExpanded⟩ := ih hLater
        exact ⟨List.mem_cons_of_mem _ hLine, hExpanded⟩

/-- A line without an instruction has an empty row, any other one at least one
primitive. -/
theorem row_cases {i : Nat} {line : Line}
    (h : Arranged symbols strings options start lines rows finish)
    (hLine : lines[i]? = some line) :
    ∃ row, rows[i]? = some row ∧
      match line.instruction? with
      | none => row = []
      | some (mnemonic, operands) => ∃ first rest, row = first :: rest ∧
        expand symbols strings line mnemonic operands =
          .ok (first.primitive :: rest.map Located.primitive) := by
  have hBound : i < rows.length := by
    rw [h.length_eq]
    exact (List.getElem?_eq_some_iff.mp hLine).1
  have hRow := List.getElem?_eq_getElem hBound
  refine ⟨rows[i], hRow, ?_⟩
  obtain ⟨hPrimitives, _⟩ := h.row_of_line hLine hRow
  have hEmpty := Line.primitives_eq_nil_iff hPrimitives
  cases hInstruction : line.instruction? with
  | none => exact List.map_eq_nil_iff.mp (hEmpty.mpr hInstruction)
  | some said =>
      rw [Line.primitives, hInstruction] at hPrimitives
      cases hRow : rows[i] with
      | nil => simp [hRow, hInstruction] at hEmpty
      | cons first rest =>
          rw [hRow] at hPrimitives
          exact ⟨first, rest, rfl, hPrimitives⟩

end Arranged

/-- Placing the primitives of a line finds their row. -/
theorem placeAll_ok {line : Line} {options : Options} {primitives : List Primitive}
    {start finish : Nat} {first : Option Nat}
    (h : placeAll line options start primitives = .ok (first, finish)) :
    ∃ row : List Located, row.map Located.primitive = primitives ∧
      (∀ located ∈ row, located.line = line) ∧ Contiguous options start row finish ∧
      first = row.head?.map Located.address := by
  induction primitives generalizing start first with
  | nil =>
      cases h
      exact ⟨[], rfl, by simp, rfl, rfl⟩
  | cons primitive rest ih =>
      obtain ⟨size, hSize, h⟩ := bind_eq_ok.mp h
      obtain ⟨⟨next, last⟩, hRest, h⟩ := bind_eq_ok.mp h
      cases h
      obtain ⟨row, rfl, hOwn, hPlaces, _⟩ := ih hRest
      refine ⟨⟨line, primitive, Page.place start size, size⟩ :: row, rfl, ?_, ?_, rfl⟩
      · simpa using hOwn
      · exact ⟨hSize, rfl, hPlaces⟩

end Assembly
end ScriptBackend
