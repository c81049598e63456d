import ScriptBackend.Proofs.Lowering.OperandStack

/-!
Code with the shape that the stack has in front of every statement. If each
shape follows from the one before, and the shapes at jumps are those at their
labels, the stack has these shapes whenever the machine comes by. Pieces of code
are put together with their shapes.
-/
namespace ScriptBackend.Lowering

open ScriptBackend.Assembly

/-- A statement with the shape in front of it, and the interface of the function
that it calls. -/
structure ShapedLine where
  statement : Statement
  shape : Shape
  called : Interface

abbrev LabelShapes := List (String × Shape)

/-- Whether a shape may come behind a line, if labels have given shapes. -/
def ShapedLine.Follows (known : LabelShapes) (line : ShapedLine) (next : Shape) : Prop :=
  ∃ effect left, effect? line.called line.statement = some effect ∧ effect.Turns line.shape left ∧
    match transfer line.statement with
    | .pass => left = next
    | .jump label => (label, left) ∈ known
    | .test _ label => left = next ∧ (label, left) ∈ known
    | .select cases =>
        left = next ∧ ∀ value label, .case value label ∈ cases → (label, left) ∈ known
    | .leave => True

/-- More labels may be known without an effect on what follows. -/
theorem ShapedLine.Follows.mono {known wider : LabelShapes} {line : ShapedLine} {next : Shape}
    (h : line.Follows known next) (hWider : known ⊆ wider) : line.Follows wider next := by
  obtain ⟨effect, left, hEffect, hTurns, hNext⟩ := h
  refine ⟨effect, left, hEffect, hTurns, ?_⟩
  cases hTransfer : transfer line.statement with
  | pass =>
      rw [hTransfer] at hNext
      exact hNext
  | jump label =>
      rw [hTransfer] at hNext
      exact hWider hNext
  | test event label =>
      rw [hTransfer] at hNext
      exact ⟨hNext.1, hWider hNext.2⟩
  | select cases =>
      rw [hTransfer] at hNext
      exact ⟨hNext.1, fun value label hCase => hWider (hNext.2 value label hCase)⟩
  | leave => trivial

theorem ShapedLine.Follows.commented {known : LabelShapes} {statement : Statement}
    {shape next : Shape}
    {called : Interface} (h : ShapedLine.Follows known ⟨statement, shape, called⟩ next)
    (comment : String) :
    ShapedLine.Follows known ⟨Lowering.commented comment statement, shape, called⟩ next := by
  obtain ⟨effect, left, hEffect, hTurns, hNext⟩ := h
  refine ⟨effect, left, ?_, hTurns, ?_⟩
  · rw [effect_commented]
    exact hEffect
  · rw [transfer_commented]
    exact hNext

abbrev Listing := List ShapedLine

namespace Listing

def code (listing : Listing) : Code :=
  listing.map ShapedLine.statement

def labels (listing : Listing) : LabelShapes :=
  listing.flatMap fun line => line.statement.label.toList.map fun label => (label, line.shape)

def called (listing : Listing) (position : Nat) : Interface :=
  (listing[position]?.map ShapedLine.called).getD default

def shapes (listing : Listing) (after : Shape) : List Shape :=
  listing.map ShapedLine.shape ++ [after]

/-- Each shape of a listing follows from the one before it. -/
inductive Checks (known : LabelShapes) : Listing → Shape → Shape → Prop where
  | nil (shape : Shape) : Checks known [] shape shape
  | cons {line : ShapedLine} {rest : Listing} {next after : Shape}
      (follows : line.Follows known next)
      (others : Checks known rest next after) : Checks known (line :: rest) line.shape after

section Listings

variable {known : LabelShapes} {listing : Listing} {before after : Shape}

@[simp] theorem code_nil : code [] = [] :=
  rfl

@[simp] theorem code_cons (line : ShapedLine) (rest : Listing) :
    code (line :: rest) = line.statement :: code rest :=
  rfl

@[simp] theorem code_append (first second : Listing) :
    (first ++ second).code = first.code ++ second.code :=
  List.map_append

@[simp] theorem labels_append (first second : Listing) :
    (first ++ second).labels = first.labels ++ second.labels :=
  List.flatMap_append

theorem definedLabels_code (listing : Listing) :
    definedLabels listing.code = listing.labels.map Prod.fst := by
  induction listing with
  | nil => rfl
  | cons line rest ih =>
      rw [code_cons, definedLabels_cons, ih]
      cases hLabel : line.statement.label <;> simp [labels, hLabel]

/-- A listing is checked piece by piece, each from the shape that the one before
has left. -/
theorem Checks.append {second : Listing} {middle : Shape} (h : Checks known listing before middle)
    (hSecond : Checks known second middle after) :
    Checks known (listing ++ second) before after := by
  induction h with
  | nil shape => exact hSecond
  | cons follows others ih => exact .cons follows (ih hSecond)

theorem Checks.head (h : Checks known listing before after) :
    (shapes listing after)[0]? = some before := by
  cases h <;> rfl

/-- The shape behind a statement is what the statement makes of the shape in
front of it. -/
theorem Checks.follows (h : Checks known listing before after) {position : Nat} {line : ShapedLine}
    (hLine : listing[position]? = some line) :
    ∃ next, (shapes listing after)[position + 1]? = some next ∧ line.Follows known next := by
  induction h generalizing position with
  | nil shape => simp at hLine
  | cons follows others ih =>
      cases position with
      | zero =>
          cases hLine
          exact ⟨_, others.head, follows⟩
      | succ position => exact ih hLine

theorem shape_of_line {position : Nat} {line : ShapedLine}
    (hLine : listing[position]? = some line) :
    (shapes listing after)[position]? = some line.shape := by
  rw [shapes, List.getElem?_append_left (by
    rw [List.length_map]
    exact (List.getElem?_eq_some_iff.mp hLine).1), List.getElem?_map, hLine]
  rfl

/-- Each label of a listing has a shape, which is the one at its position. -/
theorem exists_label {position : Nat} {label : String} (h : IsLabelAt listing.code label position) :
    ∃ shape, (label, shape) ∈ listing.labels ∧ (shapes listing after)[position]? = some shape := by
  obtain ⟨statement, hStatement, hLabel⟩ := h
  rw [code, List.getElem?_map, Option.map_eq_some_iff] at hStatement
  obtain ⟨line, hLine, rfl⟩ := hStatement
  refine ⟨line.shape, List.mem_flatMap.mpr ⟨line, List.mem_of_getElem? hLine, ?_⟩,
    shape_of_line hLine⟩
  simp [hLabel]

/-- Each label has one shape. -/
def OneShape (known : LabelShapes) (listing : Listing) : Prop :=
  ∀ label shape other, (label, shape) ∈ known → (label, other) ∈ listing.labels → shape = other

/-- One step of the machine leads from the shape in front of a statement to the
one at the next, whatever is below. -/
theorem Checks.step (h : Checks known listing before after) (hOne : OneShape known listing)
    {position next : Nat} {stack left : List Word} {shape below : Shape}
    (hShape : (shapes listing after)[position]? = some shape)
    (hStack : Matches (shape ++ below) stack)
    (hStep : StackStep listing.called listing.code (position, stack) (next, left)) :
    ∃ shape, (shapes listing after)[next]? = some shape ∧ Matches (shape ++ below) left := by
  cases hStep with
  | step here effect_eq moves leads =>
      rw [code, List.getElem?_map, Option.map_eq_some_iff] at here
      obtain ⟨line, hLine, rfl⟩ := here
      obtain ⟨behind, hBehind, effect, result, hEffect, hTurns, hFollows⟩ := h.follows hLine
      have hCalled : listing.called position = line.called := by rw [called, hLine]; rfl
      rw [hCalled, hEffect] at effect_eq
      cases effect_eq
      rw [shape_of_line hLine] at hShape
      cases hShape
      have hResult := (hTurns.frame below).sound moves hStack
      have hLabel : ∀ label, (label, result) ∈ known → IsLabelAt listing.code label next →
          ∃ shape, (shapes listing after)[next]? = some shape ∧ Matches (shape ++ below) left := by
        intro label hKnown hAt
        obtain ⟨shape, hMem, hNext⟩ := exists_label hAt
        exact ⟨shape, hNext, hOne label result shape hKnown hMem ▸ hResult⟩
      unfold Leads at leads
      cases hTransfer : transfer line.statement with
      | pass =>
          rw [hTransfer] at hFollows leads
          obtain rfl := hFollows
          exact ⟨result, leads ▸ hBehind, hResult⟩
      | jump label =>
          rw [hTransfer] at hFollows leads
          exact hLabel label hFollows leads
      | test event label =>
          rw [hTransfer] at hFollows leads
          obtain ⟨rfl, hKnown⟩ := hFollows
          rcases leads with rfl | hAt
          · exact ⟨result, hBehind, hResult⟩
          · exact hLabel label hKnown hAt
      | select cases =>
          rw [hTransfer] at hFollows leads
          obtain ⟨rfl, hKnown⟩ := hFollows
          rcases leads with rfl | ⟨value, label, hCase, hAt⟩
          · exact ⟨result, hBehind, hResult⟩
          · exact hLabel label (hKnown value label hCase) hAt
      | leave =>
          rw [hTransfer] at leads
          exact leads.elim

/-- The machine meets the shapes of a listing on its way through the code. -/
theorem Checks.sound (h : Checks known listing before after) (hOne : OneShape known listing)
    {stack left : List Word} {position : Nat} {below : Shape}
    (hStack : Matches (before ++ below) stack)
    (hRuns : StackRuns listing.called listing.code (0, stack) (position, left)) :
    ∃ shape, (shapes listing after)[position]? = some shape ∧ Matches (shape ++ below) left := by
  generalize hEnd : (position, left) = finish at hRuns
  induction hRuns generalizing position left with
  | refl =>
      cases hEnd
      exact ⟨before, h.head, hStack⟩
  | @tail middle finish runs last ih =>
      obtain ⟨place, reached⟩ := middle
      obtain ⟨shape, hShape, hReached⟩ := ih rfl
      subst hEnd
      exact h.step hOne hShape hReached last

end Listings
end Listing

/-! Pieces of code -/

/-- Code that turns a shape of the stack into another, with lines that fit. The
surroundings promise some labels with their shapes, and the code defines some
itself. -/
def Balanced (fits : ShapedLine → Prop) (promised own : LabelShapes) (code : Code)
    (before after : Shape) : Prop :=
  ∃ listing : Listing, listing.code = code ∧ (∀ line ∈ listing, fits line) ∧ own ⊆ listing.labels ∧
    ∀ known, listing.labels ⊆ known → promised ⊆ known → listing.Checks known before after

namespace Balanced

variable {fits : ShapedLine → Prop} {promised own others : LabelShapes} {first second : Code}
  {before middle after : Shape}

theorem nil (shape : Shape) : Balanced fits promised [] [] shape shape :=
  ⟨[], rfl, by simp, List.Subset.refl _, fun _ _ _ => .nil shape⟩

/-- Balanced code may be followed by balanced code. -/
theorem append (h : Balanced fits promised own first before middle)
    (hSecond : Balanced fits promised others second middle after) :
    Balanced fits promised (own ++ others) (first ++ second) before after := by
  obtain ⟨listing, rfl, hFits, hOwn, hChecks⟩ := h
  obtain ⟨later, rfl, hLater, hOthers, hSecond⟩ := hSecond
  refine ⟨listing ++ later, Listing.code_append _ _, List.forall_mem_append.mpr ⟨hFits, hLater⟩, ?_,
    fun known hKnown hPromised => ?_⟩
  · rw [Listing.labels_append]
    exact List.append_subset.mpr ⟨List.subset_append_of_subset_left _ hOwn,
      List.subset_append_of_subset_right _ hOthers⟩
  · rw [Listing.labels_append, List.append_subset] at hKnown
    exact (hChecks known hKnown.1 hPromised).append (hSecond known hKnown.2 hPromised)

/-- Surroundings that promise more. -/
theorem mono {wider : LabelShapes} (h : Balanced fits promised own first before after)
    (hWider : promised ⊆ wider) : Balanced fits wider own first before after := by
  obtain ⟨listing, hCode, hFits, hOwn, hChecks⟩ := h
  exact ⟨listing, hCode, hFits, hOwn, fun known hKnown hPromised =>
    hChecks known hKnown (List.Subset.trans hWider hPromised)⟩

/-- The labels that code defines need not all be told. -/
theorem weaken (h : Balanced fits promised own first before after) (hOthers : others ⊆ own) :
    Balanced fits promised others first before after := by
  obtain ⟨listing, hCode, hFits, hOwn, hChecks⟩ := h
  exact ⟨listing, hCode, hFits, List.Subset.trans hOthers hOwn, hChecks⟩

/-- What code defines need not be promised to it. -/
theorem close (h : Balanced fits (own ++ promised) own first before after) :
    Balanced fits promised [] first before after := by
  obtain ⟨listing, hCode, hFits, hOwn, hChecks⟩ := h
  refine ⟨listing, hCode, hFits, List.nil_subset _, fun known hKnown hPromised => ?_⟩
  exact hChecks known hKnown (List.append_subset.mpr ⟨List.Subset.trans hOwn hKnown, hPromised⟩)

/-- A single statement. -/
theorem single (statement : Statement) (called : Interface)
    (hFits : fits ⟨statement, before, called⟩)
    (hFollows : ShapedLine.Follows promised ⟨statement, before, called⟩ after) :
    Balanced fits promised [] [statement] before after :=
  ⟨[⟨statement, before, called⟩], rfl, by simpa using hFits, List.nil_subset _, fun _ _ hPromised =>
    .cons (hFollows.mono hPromised) (.nil after)⟩

/-- A label. -/
theorem label {label : String} {shape : Shape} (hFits : fits ⟨.ofLabel label, shape, default⟩) :
    Balanced fits promised [(label, shape)] [.ofLabel label] shape shape := by
  refine ⟨[⟨.ofLabel label, shape, default⟩], rfl, by simpa using hFits, ?_, fun known _ _ => ?_⟩
  · simp [Listing.labels, Statement.ofLabel]
  · have hTurns : Effect.Turns (.exchange 0 0) ([] ++ shape) (unknown 0 ++ shape) :=
      .exchange shape rfl
    exact .cons ⟨.exchange 0 0, shape, rfl, hTurns, rfl⟩ (.nil shape)

end Balanced
end ScriptBackend.Lowering
