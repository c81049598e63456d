import ScriptBackend.Proofs.Assembly.Artifact

/-!
The layout in numbers of 32 bits. Where the length of the code and the addresses
in it are cut to words, code that is too long can look short to the check
between layout and encoding. It does not get past the encoding, which ends
behind the length that was cut, so the cut lets no other unit through.
-/
namespace ScriptBackend

def Table.mapValues {κ ν μ : Type} [Ord κ] [Std.TransOrd κ] [Std.LawfulEqOrd κ] (table : Table κ ν)
    (change : ν → μ) : Table κ μ where
  entries := table.entries.map fun entry => (entry.1, change entry.2)
  positions := table.positions
  position_iff key i := by
    rw [table.position_iff, Array.getElem?_map, Option.map_map]
    rfl

/-- Values that stay the same leave the table as it is. -/
theorem Table.mapValues_eq_self {κ ν : Type} [Ord κ] [Std.TransOrd κ] [Std.LawfulEqOrd κ]
    {table : Table κ ν}
    {change : ν → ν} (h : ∀ key value, table.find? key = some value → change value = value) :
    table.mapValues change = table := by
  have hEntries : table.entries.map (fun entry => (entry.1, change entry.2)) = table.entries := by
    refine Array.ext_getElem? fun i => ?_
    rw [Array.getElem?_map]
    cases hEntry : table.entries[i]? with
    | none => rfl
    | some entry => rw [Option.map_some, h entry.1 entry.2 (find?_eq_some_iff.mpr ⟨i, hEntry⟩)]
  obtain ⟨entries, positions, hPositions⟩ := table
  simp only [mapValues, Table.mk.injEq, and_true]
  exact hEntries

namespace Assembly

open Outcome

def cutAddress (address : Nat) : Nat :=
  address % 2 ^ 32

def Layout.cut (layout : Layout) : Layout :=
  ⟨layout.labels.mapValues cutAddress, layout.addresses.map (Option.map cutAddress),
    cutAddress layout.codeLength⟩

/-- Assembling a unit with a layout in words of 32 bits. -/
def assembleCut (source : NativeSource) (options : Options) (statements : List Statement) :
    Except Fault Script := do
  let lines := scopeLines statements
  let data ← collectData lines
  let (laidOut, strings) := layoutCode data.symbols options lines data.strings
  let layout := (← laidOut).cut
  if codeLimit < layout.codeLength then
    .error ⟨0, .capacity .codeSize layout.codeLength codeLimit⟩
  let image ← resolveReferences layout.labels data.references data.image
  let environment : Environment := ⟨data.symbols, layout.labels, source, options⟩
  let code ← emitCode environment strings layout lines data.natives
  return link options image strings code

variable {environment : Environment} {line : Line} {start finish : Nat}

/-- The place that is expected of a line is checked and has no other use. -/
theorem addPrimitives_unchecked {expected : Option Nat} {primitives : List Primitive}
    {image next : CodeImage}
    (h : CodeImage.addPrimitives environment line expected primitives image = .ok next) :
    CodeImage.addPrimitives environment line none primitives image = .ok next := by
  cases primitives with
  | nil => exact h
  | cons primitive rest =>
      obtain ⟨code, natives⟩ := image
      obtain ⟨size, hSize, h⟩ := bind_eq_ok.mp h
      obtain ⟨_, _, h⟩ := bind_eq_ok.mp h
      exact bind_eq_ok.mpr ⟨size, hSize, bind_eq_ok.mpr ⟨(), rfl, h⟩⟩

/-- A line that is emitted without a check puts its primitives where a
contiguous row has them. -/
theorem foldlM_of_addLine {strings : StringPages} {row : List Located} {expected : Option Nat}
    {image next : CodeImage}
    (hPrimitives : line.primitives environment.symbols strings = .ok (row.map Located.primitive))
    (hOwn : ∀ located ∈ row, located.line = line)
    (hPlaces : Contiguous environment.options image.code.size row finish)
    (h : CodeImage.addLine environment strings line expected image = .ok next) :
    row.foldlM (Located.emit environment) image = .ok next := by
  unfold Line.primitives at hPrimitives
  unfold CodeImage.addLine at h
  cases hInstruction : line.instruction? with
  | none =>
      simp only [hInstruction, Except.ok.injEq] at hPrimitives h
      obtain rfl := List.map_eq_nil_iff.mp hPrimitives.symm
      exact congrArg Except.ok h
  | some said =>
      simp only [hInstruction] at hPrimitives h
      rw [hPrimitives] at h
      have hNone : ∀ address, none = some address →
          row.head?.map Located.address = some address := nofun
      rw [← addPrimitives_eq_foldlM hPlaces hOwn hNone]
      exact addPrimitives_unchecked h

/-- Whatever places are expected of the lines of an arrangement, code that is
emitted has its primitives in place. -/
theorem foldlM_of_addAll {strings : StringPages} {lines : List Line} {rows : List (List Located)}
    {expected : List (Option Nat)} {image final : CodeImage}
    (hRows : Arranged environment.symbols strings environment.options image.code.size
      lines rows finish)
    (hLength : expected.length = lines.length)
    (h : CodeImage.addAll environment strings (lines.zip expected) image = .ok final) :
    rows.flatten.foldlM (Located.emit environment) image = .ok final := by
  generalize hStart : image.code.size = start at hRows
  induction hRows generalizing image expected with
  | nil =>
      cases h
      rfl
  | @cons start middle finish line lines row rows primitives own places rest ih =>
      subst hStart
      obtain ⟨place, others, rfl⟩ := List.exists_cons_of_length_eq_add_one hLength
      rw [List.zip_cons_cons, CodeImage.addAll] at h
      split at h
      · cases h
      · next next hNext =>
          have hRow := foldlM_of_addLine primitives own places hNext
          rw [List.flatten_cons, List.foldlM_append, hRow]
          exact ih (Nat.succ.inj hLength) h (emit_ok places hRow).1

/-- Code that is emitted under a layout that was cut is not longer than that. -/
theorem length_le_of_emitCode {strings : StringPages} {layout : Layout} {lines : List Line}
    {natives : NativeTable} {rows : List (List Located)} {image : CodeImage}
    (hRows : Arranged environment.symbols strings environment.options 0 lines rows
      layout.codeLength)
    (hAddresses : layout.addresses.toList = rows.map fun row => row.head?.map Located.address)
    (h : emitCode environment strings layout.cut lines natives = .ok image) :
    layout.codeLength ≤ cutAddress layout.codeLength := by
  unfold emitCode at h
  split at h
  · cases h
  · next code later hAll =>
      split at h
      · cases h
      · next hLength =>
          have hExpected : layout.cut.addresses.toList.length = lines.length := by
            rw [Layout.cut, Array.toList_map, List.length_map, hAddresses,
              List.length_map, hRows.length_eq]
          have hSize := (emit_ok hRows.contiguous (foldlM_of_addAll hRows hExpected hAll)).1
          dsimp only [Layout.cut] at hLength hSize
          omega

/-- No primitive of a row lies behind its end. -/
theorem Contiguous.address_le {options : Options} {row : List Located} {located : Located}
    (h : Contiguous options start row finish) (hMem : located ∈ row) :
    located.address ≤ finish := by
  induction row generalizing start with
  | nil => cases hMem
  | cons first rest ih =>
      rcases List.mem_cons.mp hMem with rfl | hLater
      · have hEnd := h.2.2.le
        simp only [Located.endAddress] at hEnd
        omega
      · exact ih h.2.2 hLater

theorem cutAddress_of_lt {address : Nat} (h : address < 2 ^ 32) : cutAddress address = address :=
  Nat.mod_eq_of_lt h

/-- A layout of less than 2³² bytes is whole in words of 32 bits. -/
theorem cut_eq_self {symbols : Symbols} {options : Options} {lines : List Line}
    {strings stored : StringPages}
    {layout : Layout} (h : layoutCode symbols options lines strings = (.ok layout, stored))
    (hLength : layout.codeLength < 2 ^ 32) : layout.cut = layout := by
  obtain ⟨rows, hRows, hAddresses, _, hBound⟩ := layoutCode_ok h
  have hLabels : layout.labels.mapValues cutAddress = layout.labels := Table.mapValues_eq_self
    fun label address hLabel =>
      cutAddress_of_lt (Nat.lt_of_le_of_lt (hBound label address hLabel).1 hLength)
  have hPlaces : layout.addresses.map (Option.map cutAddress) = layout.addresses := by
    rw [← Array.toList_inj, Array.toList_map, hAddresses, List.map_map]
    refine List.map_congr_left fun row hRow => ?_
    cases row with
    | nil => rfl
    | cons located rest =>
        have hMem : located ∈ rows.flatten := List.mem_flatten.mpr ⟨located :: rest, hRow, by simp⟩
        have hLess := Nat.lt_of_le_of_lt (hRows.contiguous.address_le hMem) hLength
        exact congrArg some (cutAddress_of_lt hLess)
  rw [Layout.cut, hLabels, hPlaces, cutAddress_of_lt hLength]

/-- Cutting the layout to words lets the same units through. -/
theorem assembleCut_eq_ok_iff {source : NativeSource} {options : Options}
    {statements : List Statement} {script : Script} :
    assembleCut source options statements = .ok script ↔
    assemble source options statements = .ok script := by
  constructor
  · intro h
    obtain ⟨data, hData, h⟩ := bind_eq_ok.mp h
    cases hLayout : layoutCode data.symbols options (scopeLines statements) data.strings with
    | mk outcome strings =>
        rw [hLayout] at h
        obtain ⟨layout, rfl, hRest⟩ := bind_eq_ok.mp h
        dsimp only at hRest
        split at hRest
        · cases hRest
        · next hReach =>
            obtain ⟨image, hImage, hRest⟩ := bind_eq_ok.mp hRest
            obtain ⟨code, hCode, hRest⟩ := bind_eq_ok.mp hRest
            obtain ⟨rows, hRows, hAddresses, _, _⟩ := layoutCode_ok hLayout
            have hShort : layout.codeLength < 2 ^ 32 :=
              Nat.lt_of_le_of_lt (length_le_of_emitCode hRows hAddresses hCode)
                (Nat.mod_lt _ (by decide))
            rw [cut_eq_self hLayout hShort] at hReach hImage hCode
            cases hRest
            exact Assembled.assemble_eq_ok
              ⟨data, layout, strings, image, code, hData, hLayout, Nat.not_lt.mp hReach,
                hImage, hCode, rfl⟩
  · intro h
    obtain ⟨unit⟩ := assemble_ok h
    have hSame : unit.layout.cut = unit.layout :=
      cut_eq_self unit.laidOut (Nat.lt_of_le_of_lt unit.reachable (by decide))
    refine bind_eq_ok.mpr ⟨unit.data, unit.collected, ?_⟩
    simp only [unit.laidOut]
    refine bind_eq_ok.mpr ⟨unit.layout, rfl, ?_⟩
    simp only [hSame, if_neg (Nat.not_lt.mpr unit.reachable)]
    refine bind_eq_ok.mpr ⟨unit.image, unit.resolved, ?_⟩
    refine bind_eq_ok.mpr ⟨unit.code, unit.emitted, ?_⟩
    exact congrArg Except.ok unit.linked.symm

end Assembly
end ScriptBackend
