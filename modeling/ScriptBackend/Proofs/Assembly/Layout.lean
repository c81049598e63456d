import ScriptBackend.Proofs.StringPages

/-!
The layout of a unit is an arrangement of its lines, and its label table binds
every label of the code to the first primitive at or behind the labelled
statement. Labels wait until an instruction comes; that none of them has an
address before is the invariant of the pass.
-/
namespace ScriptBackend.Assembly

open Outcome

/-- The string pages behind a line: the literal that its instruction pushes is
stored. -/
def Line.store (line : Line) (strings : StringPages) : StringPages :=
  match line.pushedText? with
  | some text => (strings.intern text).2
  | none => strings

theorem Line.keeps_store (line : Line) (strings : StringPages) :
    strings.Keeps (line.store strings) := by
  unfold Line.store
  split
  · exact StringPages.keeps_intern strings _
  · exact StringPages.Keeps.refl strings

namespace LayoutState

variable {symbols : Symbols} {options : Options} {strings stored : StringPages}
  {state noted next final : LayoutState} {line : Line} {lines : List Line}

/-- What a line does before its instruction is placed: only a label in the code
segment counts. -/
def note (state : LayoutState) (symbols : Symbols) (line : Line) : Except Fault LayoutState :=
  if line.segment = .code then state.noteLabel symbols line else .ok state

/-- One line of the pass: it is noted, the literal that it pushes is stored, and
it is placed. -/
theorem addAll_line (state : LayoutState) (line : Line) (lines : List Line)
    (strings : StringPages) :
    addAll symbols options (line :: lines) state strings =
      match state.note symbols line with
      | .error fault => (.error fault, strings)
      | .ok noted =>
        match noted.place symbols (line.store strings) options line with
        | .error fault => (.error fault, line.store strings)
        | .ok next => addAll symbols options lines next (line.store strings) :=
  rfl

/-- A line is noted and placed, and the others are laid out from there. -/
theorem addAll_cons_ok
    (h : addAll symbols options (line :: lines) state strings = (.ok final, stored)) :
    ∃ noted next, state.note symbols line = .ok noted ∧
      noted.place symbols (line.store strings) options line = .ok next ∧
      addAll symbols options lines next (line.store strings) = (.ok final, stored) := by
  rw [addAll_line] at h
  cases hNote : state.note symbols line with
  | error fault => simp [hNote] at h
  | ok noted =>
      simp only [hNote] at h
      cases hPlace : noted.place symbols (line.store strings) options line with
      | error fault => simp [hPlace] at h
      | ok next =>
          simp only [hPlace] at h
          exact ⟨noted, next, rfl, hPlace, h⟩

/-- A line that is noted and placed is part of the layout. -/
theorem addAll_cons (hNote : state.note symbols line = .ok noted)
    (hPlace : noted.place symbols (line.store strings) options line = .ok next) :
    addAll symbols options (line :: lines) state strings =
      addAll symbols options lines next (line.store strings) := by
  simp only [addAll_line, hNote, hPlace]

/-- A label that waits has no address yet, and no label is also a constant or a
data label. Every address so far lies in the code so far. -/
structure Sound (symbols : Symbols) (state : LayoutState) : Prop where
  waiting : ∀ label, state.pending.contains label = true →
    state.labels.find? label = none ∧ symbols.contains label = false
  bound : ∀ label address, state.labels.find? label = some address →
    address ≤ state.codeEnd ∧ symbols.contains label = false

theorem sound_start : Sound symbols start := by
  constructor <;> intro label <;> simp [start]

/-- What noting a line changes: the label of a code line waits from now on. -/
theorem note_ok (h : state.note symbols line = .ok noted) :
    noted = state ∧ (line.segment = .code → line.label = none) ∨
      ∃ label, line.label = some label ∧ symbols.contains label = false ∧
        state.labels.contains label = false ∧
        noted = { state with pending := state.pending.insertNew label () } := by
  unfold note at h
  split at h
  · unfold noteLabel at h
    cases hLabel : line.label with
    | none =>
        simp only [hLabel, Except.ok.injEq] at h
        exact .inl ⟨h.symm, fun _ => rfl⟩
    | some label =>
        simp only [hLabel] at h
        split at h
        · cases h
        · next hNew =>
            simp only [Bool.or_eq_true, not_or, Bool.not_eq_true] at hNew
            cases h
            exact .inr ⟨label, rfl, hNew.1.1, hNew.1.2, rfl⟩
  · next hSegment =>
      cases h
      exact .inl ⟨rfl, fun hCode => absurd hCode hSegment⟩

/-- A label that is noted waits for its address, and all that is known stays
sound. -/
theorem Sound.note (h : Sound symbols state) (hNote : state.note symbols line = .ok noted) :
    Sound symbols noted := by
  rcases note_ok hNote with ⟨rfl, _⟩ | ⟨label, _, hUnknown, hNew, rfl⟩
  · exact h
  · refine ⟨fun other hOther => ?_, h.bound⟩
    rw [Table.contains_insertNew, Bool.or_eq_true, decide_eq_true_eq] at hOther
    rcases hOther with hOther | rfl
    · exact h.waiting other hOther
    · rw [Table.contains_eq_isSome_find?] at hNew
      exact ⟨by simpa using hNew, hUnknown⟩

/-- The lookups after the waiting labels have got an address. -/
theorem find?_bind (state : LayoutState) (address : Nat) (label : String) :
    (state.bind address).labels.find? label =
      (state.labels.find? label).or
        (if state.pending.contains label = true then some address else none) := by
  simp only [bind, Table.find?_foldl_insertNew, Table.mem_keys_iff]

/-- Labels that wait are given an address of the code. -/
theorem Sound.bind (h : Sound symbols state) {address : Nat} (hAddress : address ≤ final.codeEnd)
    (hEnd : state.codeEnd ≤ final.codeEnd) (hLabels : final.labels = (state.bind address).labels)
    (hPending : final.pending = Table.empty) : Sound symbols final := by
  constructor
  · intro label hLabel
    simp [hPending] at hLabel
  · intro label found hFound
    rw [hLabels, find?_bind, Option.or_eq_some_iff] at hFound
    rcases hFound with hFound | ⟨_, hFound⟩
    · obtain ⟨hLe, hUnknown⟩ := h.bound label found hFound
      exact ⟨Nat.le_trans hLe hEnd, hUnknown⟩
    · split at hFound
      · next hWaiting =>
          cases hFound
          exact ⟨hAddress, (h.waiting label hWaiting).2⟩
      · cases hFound

/-- What placing a line changes. A line without an instruction adds nothing;
otherwise its row is added, and the waiting labels get the address of its first
primitive. -/
theorem place_ok (h : state.place symbols strings options line = .ok next) :
    ∃ row : List Located, line.primitives symbols strings = .ok (row.map Located.primitive) ∧
      (∀ located ∈ row, located.line = line) ∧
      Contiguous options state.codeEnd row next.codeEnd ∧
      next.addresses = state.addresses.push (row.head?.map Located.address) ∧
      match row.head? with
      | none => next.labels = state.labels ∧ next.pending = state.pending
      | some first =>
        next.labels = (state.bind first.address).labels ∧ next.pending = Table.empty := by
  unfold place at h
  unfold Line.primitives
  cases hInstruction : line.instruction? with
  | none =>
      simp only [hInstruction, Except.ok.injEq] at h
      subst h
      exact ⟨[], by simp, by simp, rfl, rfl, rfl, rfl⟩
  | some said =>
      simp only [hInstruction] at h
      obtain ⟨primitives, hExpand, h⟩ := bind_eq_ok.mp h
      obtain ⟨⟨first, last⟩, hPlaces, h⟩ := bind_eq_ok.mp h
      obtain ⟨row, rfl, hOwn, hRow, rfl⟩ := placeAll_ok hPlaces
      refine ⟨row, hExpand, hOwn, ?_⟩
      cases row with
      | nil =>
          cases h
          exact ⟨hRow, rfl, rfl, rfl⟩
      | cons located rest =>
          cases h
          exact ⟨hRow, rfl, rfl, rfl⟩

/-- An instruction is placed behind the code so far, and all that is known stays
sound. -/
theorem Sound.place (h : Sound symbols state)
    (hPlace : state.place symbols strings options line = .ok next) : Sound symbols next := by
  obtain ⟨row, _, _, hRow, _, hChange⟩ := place_ok hPlace
  have hLe := hRow.le
  cases row with
  | nil =>
      obtain ⟨hLabels, hPending⟩ := hChange
      refine ⟨fun label hLabel => ?_, fun label address hAddress => ?_⟩
      · rw [hPending] at hLabel
        rw [hLabels]
        exact h.waiting label hLabel
      · rw [hLabels] at hAddress
        obtain ⟨hBound, hUnknown⟩ := h.bound label address hAddress
        exact ⟨Nat.le_trans hBound hLe, hUnknown⟩
  | cons located rest =>
      obtain ⟨hLabels, hPending⟩ := hChange
      exact h.bind hRow.firstAddress_le hLe hLabels hPending

/-- What the label table of a finished layout says about the labels seen so far
and those of the lines that follow: they keep their address, or stand for the
next primitive, or for the end. -/
structure Binds (state : LayoutState) (lines : List Line)
    (rows : List (List Located)) (finish : Nat) (labels : LabelTable) : Prop where
  kept : ∀ label address, state.labels.find? label = some address →
    labels.find? label = some address
  waiting : ∀ label, state.pending.contains label = true →
    labels.find? label = some (firstAddress rows.flatten finish)
  labelled : ∀ i line label, lines[i]? = some line → line.segment = .code →
    line.label = some label →
    labels.find? label = some (firstAddress (rows.drop i).flatten finish)

/-- Noting and placing a line, then binding the labels of the lines behind it,
binds all labels. -/
theorem Binds.cons {rows : List (List Located)} {row : List Located} {finish : Nat}
    {labels : LabelTable} (hSound : Sound symbols noted)
    (hNote : state.note symbols line = .ok noted)
    (hChange : match row.head? with
      | none => next.labels = noted.labels ∧ next.pending = noted.pending
      | some first =>
        next.labels = (noted.bind first.address).labels ∧ next.pending = Table.empty)
    (h : Binds next lines rows finish labels) :
    Binds state (line :: lines) (row :: rows) finish labels := by
  have hKept : ∀ label address, noted.labels.find? label = some address →
      labels.find? label = some address := by
    intro label address hFound
    apply h.kept
    cases row with
    | nil => rw [hChange.1, hFound]
    | cons first rest => rw [hChange.1, find?_bind, hFound, Option.some_or]
  have hWaiting : ∀ label, noted.pending.contains label = true →
      labels.find? label = some (firstAddress (row :: rows).flatten finish) := by
    intro label hLabel
    cases row with
    | nil =>
        apply h.waiting
        rw [hChange.2, hLabel]
    | cons first rest =>
        apply h.kept
        rw [hChange.1, find?_bind, (hSound.waiting label hLabel).1, Option.none_or, if_pos hLabel]
        rfl
  rcases note_ok hNote with ⟨rfl, hNone⟩ | ⟨own, hOwn, _, _, rfl⟩
  · refine ⟨hKept, hWaiting, fun i other label hLine hCode hLabel => ?_⟩
    cases i with
    | zero =>
        simp only [List.getElem?_cons_zero, Option.some.injEq] at hLine
        subst hLine
        rw [hNone hCode] at hLabel
        cases hLabel
    | succ i => exact h.labelled i other label hLine hCode hLabel
  · refine ⟨hKept, fun label hLabel => hWaiting label ?_,
      fun i other label hLine hCode hLabel => ?_⟩
    · rw [Table.contains_insertNew, hLabel, Bool.true_or]
    · cases i with
      | zero =>
          simp only [List.getElem?_cons_zero, Option.some.injEq] at hLine
          subst hLine
          rw [hOwn, Option.some.injEq] at hLabel
          subst hLabel
          apply hWaiting
          simp [Table.contains_insertNew]
      | succ i => exact h.labelled i other label hLine hCode hLabel

/-- A run of the pass over lines arranges them, and binds their labels. -/
theorem addAll_ok (hSound : Sound symbols state)
    (h : addAll symbols options lines state strings = (.ok final, stored)) :
    strings.Keeps stored ∧ Sound symbols final ∧ ∃ rows : List (List Located),
      Arranged symbols stored options state.codeEnd lines rows final.codeEnd ∧
      final.addresses.toList =
        state.addresses.toList ++ rows.map (fun row => row.head?.map Located.address) ∧
      Binds state lines rows final.codeEnd (final.bind final.codeEnd).labels := by
  induction lines generalizing state strings with
  | nil =>
      cases h
      refine ⟨StringPages.Keeps.refl _, hSound, [], .nil _, by simp, ?_, ?_, by simp⟩
      · intro label address hFound
        rw [find?_bind, hFound, Option.some_or]
      · intro label hLabel
        rw [find?_bind, (hSound.waiting label hLabel).1, Option.none_or, if_pos hLabel]
        rfl
  | cons line lines ih =>
      obtain ⟨noted, next, hNote, hPlace, hRest⟩ := addAll_cons_ok h
      have hNoted := hSound.note hNote
      obtain ⟨hKeeps, hFinal, rows, hRows, hAddresses, hBinds⟩ := ih (hNoted.place hPlace) hRest
      obtain ⟨row, hPrimitives, hOwn, hRow, hAddress, hChange⟩ := place_ok hPlace
      have hSame : noted.codeEnd = state.codeEnd ∧ noted.addresses = state.addresses := by
        rcases note_ok hNote with ⟨rfl, _⟩ | ⟨_, _, _, _, rfl⟩ <;> exact ⟨rfl, rfl⟩
      refine ⟨(line.keeps_store strings).trans hKeeps, hFinal, row :: rows, ?_, ?_,
        hBinds.cons hNoted hNote hChange⟩
      · rw [← hSame.1]
        exact .cons (Line.primitives_of_keeps hKeeps hPrimitives) hOwn hRow hRows
      · rw [hAddresses, hAddress, hSame.2]
        simp

/-- A pass over lines stores the literals that they push, whatever else it does. -/
theorem addAll_stores (h : addAll symbols options lines state strings = (.ok final, stored)) :
    stored = strings.internAll (lines.filterMap Line.pushedText?) := by
  induction lines generalizing state strings with
  | nil =>
      cases h
      rfl
  | cons line rest ih =>
      obtain ⟨_, _, _, _, hRest⟩ := addAll_cons_ok h
      rw [ih hRest]
      unfold Line.store
      cases hText : line.pushedText? with
      | none => rw [List.filterMap_cons_none hText]
      | some text =>
          rw [List.filterMap_cons_some hText]
          rfl

end LayoutState

/-- The layout stores the literals that the code pushes, in the order of the
lines. -/
theorem layoutCode_stores {symbols : Symbols} {options : Options} {lines : List Line}
    {strings stored : StringPages}
    {layout : Layout} (h : layoutCode symbols options lines strings = (.ok layout, stored)) :
    stored = strings.internAll (lines.filterMap Line.pushedText?) := by
  unfold layoutCode at h
  split at h
  · cases h
  · next state pages hRun =>
      cases h
      exact LayoutState.addAll_stores hRun

/-- A successful layout arranges the lines of the unit from address zero on.
Each line with an instruction has the address of its first primitive, and each
label of the code that of the next primitive, or the length of the code behind
the last one. -/
theorem layoutCode_ok {symbols : Symbols} {options : Options} {lines : List Line}
    {strings stored : StringPages} {layout : Layout}
    (h : layoutCode symbols options lines strings = (.ok layout, stored)) :
    ∃ rows : List (List Located),
      Arranged symbols stored options 0 lines rows layout.codeLength ∧
      layout.addresses.toList = rows.map (fun row => row.head?.map Located.address) ∧
      (∀ i line label, lines[i]? = some line → line.segment = .code → line.label = some label →
        layout.labels.find? label =
          some (firstAddress (rows.drop i).flatten layout.codeLength)) ∧
      ∀ label address, layout.labels.find? label = some address →
        address ≤ layout.codeLength ∧ symbols.contains label = false := by
  unfold layoutCode at h
  cases hRun : LayoutState.addAll symbols options lines .start strings with
  | mk outcome pages =>
      cases outcome with
      | error fault => simp [hRun] at h
      | ok state =>
          simp only [hRun, Prod.mk.injEq, Except.ok.injEq] at h
          obtain ⟨rfl, rfl⟩ := h
          obtain ⟨_, hSound, rows, hRows, hAddresses, hBinds⟩ :=
            LayoutState.addAll_ok LayoutState.sound_start hRun
          have hEnd : LayoutState.Sound symbols (state.bind state.codeEnd) :=
            hSound.bind (Nat.le_refl _) (Nat.le_refl _) rfl rfl
          exact ⟨rows, hRows, hAddresses, hBinds.labelled, hEnd.bound⟩

end ScriptBackend.Assembly
