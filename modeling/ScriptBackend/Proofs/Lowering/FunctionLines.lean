import ScriptBackend.Proofs.Assembly.Linking
import ScriptBackend.Proofs.Lowering.LabelUse
import ScriptBackend.Proofs.Lowering.Natives
import ScriptBackend.Proofs.Lowering.UnitLines

/-!
The lines of functions. Each function opens a scope, in which its local labels
get its name in front; since the name has no point, the function can be read
back from the label.
-/
namespace ScriptBackend.Lowering

open ScriptBackend.Assembly

/-- The code of one function. -/
structure FunctionPiece (setting : Setting) where
  function : Function
  frame : Frame
  fits : frame.size < UInt32.size
  body : Code
  low : Nat
  high : Nat
  generated : Generates { setting with frame := frame } ⟨none, none⟩
    (.block function.body) low body high

namespace FunctionPiece

variable {setting : Setting}

def name (piece : FunctionPiece setting) : String :=
  piece.function.name

/-- What stands behind the first instruction: the body, and a way out if the
body has none at its end. -/
def inner (piece : FunctionPiece setting) : Code :=
  piece.body ++ if endsInReturn piece.function.body then [] else [leave piece.frame]

def code (piece : FunctionPiece setting) : Code :=
  enter piece.frame piece.name :: piece.inner

def lines (piece : FunctionPiece setting) : List Line :=
  piece.code.map (lineOf .code (some piece.name))

/-- A function without points in its name, whose labels make sense. -/
structure Clear (piece : FunctionPiece setting) : Prop where
  plain : '.' ∉ piece.name.toList
  labelled : piece.function.WellLabelled

end FunctionPiece

section Pieces

variable {setting : Setting} {piece : FunctionPiece setting} {names : Names}

/-- The code of functions is made of one piece for each, in its frame. -/
theorem FunctionsGenerate.exists_framedPieces {ids : List Nat} {n m : Nat} {code : Code}
    (h : FunctionsGenerate setting ids n code m) :
    ∃ pieces : List (FunctionPiece setting), code = (pieces.map FunctionPiece.code).flatten ∧
      List.Forall₂ (fun id piece => setting.program.functions[id]? = some piece.function ∧
        setting.slots.frame id = .ok piece.frame ∧ GeneratesFunction setting id piece.code)
        ids pieces := by
  induction h with
  | nil n => exact ⟨[], rfl, .nil⟩
  | @cons id rest function frame n middle m body others declared framed fits
      body_code made rest_code ih =>
      obtain ⟨pieces, rfl, hPieces⟩ := ih
      refine ⟨⟨function, frame, fits, body, n, middle, body_code⟩ :: pieces, ?_,
        .cons ⟨declared, framed, made⟩ hPieces⟩
      simp [FunctionPiece.code, FunctionPiece.inner, FunctionPiece.name]

/-- The code of functions is cut into pieces, one for each function, with the
numbers that its labels carry. -/
theorem FunctionsGenerate.exists_pieces {ids : List Nat} {n m : Nat} {code : Code}
    (h : FunctionsGenerate setting ids n code m) :
    ∃ pieces : List (FunctionPiece setting), code = (pieces.map FunctionPiece.code).flatten ∧
      List.Forall₂ (fun id piece => setting.program.functions[id]? =
        some piece.function) ids pieces := by
  obtain ⟨pieces, hCode, hPieces⟩ := h.exists_framedPieces
  exact ⟨pieces, hCode, hPieces.imp fun _ _ hPiece => hPiece.1⟩

theorem isLocal_eq_false {name : String} (h : '.' ∉ name.toList) : isLocal name = false := by
  rw [isLocal, beq_eq_false_iff_ne]
  intro hFirst
  exact h (List.mem_of_head? hFirst)

/-- A name without a point means the same in each scope. -/
theorem qualify_of_not_mem {name : String} (h : '.' ∉ name.toList) (scope : Option String) :
    qualify scope name = name :=
  qualify_of_not_isLocal (isLocal_eq_false h) scope

/-- No code of a function is a directive. -/
theorem FunctionPiece.suits_inner (hProvides : Provides setting names piece.body)
    (hGotos : ∀ name ∈ gotoNames (Stmt.blockParts piece.function.body),
      names.isLabel (userLabel name)) : SuitsCode names piece.inner := by
  have hBody : SuitsCode names piece.body :=
    piece.generated.suits hProvides (by simp [Part.exits]) hGotos
  have hLeave : SuitsStatement names (leave piece.frame) :=
    Suited.primitive (Opcode.named?_mnemonic .leave) trivial
  unfold inner
  split <;> simp [hBody, hLeave]

theorem suits_enter (frame : Frame) (name : String) : SuitsStatement names (enter frame name) :=
  Suited.primitive (Opcode.named?_mnemonic .enter) trivial

/-- What suits the code is no directive. -/
theorem SuitsStatement.ne_directive {statement : Statement} (h : SuitsStatement names statement)
    (directive : Directive) : statement.content ≠ .directive directive := by
  intro hContent
  unfold SuitsStatement at h
  rw [hContent] at h
  exact h

/-- Whatever names stand for, code of functions has no directives. -/
theorem FunctionPiece.ne_directive {statement : Statement} (h : statement ∈ piece.code)
    (directive : Directive) : statement.content ≠ .directive directive := by
  have hAll : Provides setting ⟨fun _ => True, fun _ => True⟩ piece.body :=
    ⟨fun _ _ _ => trivial, fun _ _ => trivial, fun _ _ _ _ _ => trivial⟩
  rcases List.mem_cons.mp h with rfl | hInner
  · exact nofun
  · exact (piece.suits_inner hAll (fun _ _ => trivial) statement hInner).ne_directive directive

/-- The labels of a function are those of its program text, once each, and those
of its own numbers. -/
theorem FunctionPiece.Clear.spread (h : piece.Clear) :
    Spread (labelNames (Stmt.blockParts piece.function.body)) [] piece.low piece.high
      (definedLabels piece.body) :=
  piece.generated.spread trivial h.labelled.defaults

theorem FunctionPiece.definedLabels_inner :
    definedLabels piece.inner = definedLabels piece.body := by
  unfold inner
  split <;> simp [leave]

theorem FunctionPiece.Clear.continues (h : piece.Clear) :
    ∀ statement ∈ piece.inner, statement.Continues .code := by
  intro statement hStatement
  refine ⟨fun other => piece.ne_directive (List.mem_cons_of_mem _ hStatement) _,
    fun label hLabel => ?_⟩
  refine .inl (h.spread.locals label ?_)
  rw [← FunctionPiece.definedLabels_inner]
  exact List.mem_filterMap.mpr ⟨statement, hStatement, hLabel⟩

/-- The lines of functions are those of each, in its scope. -/
theorem linesIn_pieces {pieces : List (FunctionPiece setting)} (h : ∀ piece ∈ pieces, piece.Clear)
    (scope : Option String) :
    linesIn .code scope (pieces.map FunctionPiece.code).flatten =
      (pieces.map FunctionPiece.lines).flatten := by
  induction pieces generalizing scope with
  | nil => rfl
  | cons piece rest ih =>
      rw [List.forall_mem_cons] at h
      have hEnter : enter piece.frame piece.name :: piece.inner ++
          (rest.map FunctionPiece.code).flatten = enter piece.frame piece.name ::
            (piece.inner ++ (rest.map FunctionPiece.code).flatten) := rfl
      rw [List.map_cons, List.flatten_cons, FunctionPiece.code, hEnter,
        linesIn_function rfl (isLocal_eq_false h.1.plain)
          (fun _ => piece.ne_directive (List.mem_cons_self ..) _),
        linesIn_append h.1.continues, ih h.2]
      rfl

/-- The labels of a function are its name and its local labels behind it. -/
theorem FunctionPiece.Clear.codeLabels (h : piece.Clear) :
    codeLabels piece.lines = piece.name :: (definedLabels piece.body).map (piece.name ++ ·) := by
  have hLines : ∀ code : Code, Assembly.codeLabels (code.map (lineOf .code (some piece.name))) =
      (definedLabels code).map (qualify (some piece.name)) := by
    intro code
    simp only [Assembly.codeLabels, definedLabels, List.filterMap_map, List.map_filterMap]
    rfl
  have hQualify : ∀ label ∈ definedLabels piece.body,
      qualify (some piece.name) label = piece.name ++ label := by
    intro label hLabel
    rw [qualify, h.spread.locals label hLabel]
    rfl
  have hEnter : definedLabels piece.code = piece.name :: definedLabels piece.body := by
    rw [FunctionPiece.code, definedLabels_cons, FunctionPiece.definedLabels_inner]
    rfl
  rw [FunctionPiece.lines, hLines, hEnter, List.map_cons, qualify_of_not_mem h.plain,
    List.map_congr_left hQualify]

def labelOwner (label : String) : List Char :=
  label.toList.takeWhile (· ≠ '.')

/-- The full name of each label of a function begins with the name of the
function. -/
theorem FunctionPiece.Clear.labelOwner (h : piece.Clear) :
    ∀ label ∈ Assembly.codeLabels piece.lines, labelOwner label = piece.name.toList := by
  have hPlain : ∀ c ∈ piece.name.toList, decide (c ≠ '.') = true := by
    intro c hc
    rw [decide_eq_true_eq]
    rintro rfl
    exact h.plain hc
  rw [h.codeLabels]
  intro label hLabel
  rcases List.mem_cons.mp hLabel with rfl | hLocal
  · simpa [Lowering.labelOwner] using @List.takeWhile_append_of_pos _ _ _ [] hPlain
  · obtain ⟨tail, hTail, rfl⟩ := List.mem_map.mp hLocal
    have hFirst := h.spread.locals tail hTail
    rw [isLocal, beq_iff_eq] at hFirst
    obtain ⟨rest, hRest⟩ := List.head?_eq_some_iff.mp hFirst
    rw [Lowering.labelOwner, String.toList_append, hRest, List.takeWhile_append_of_pos hPlain]
    simp

/-- No label of a function is defined twice. -/
theorem FunctionPiece.Clear.nodup_codeLabels (h : piece.Clear) :
    (Assembly.codeLabels piece.lines).Nodup := by
  rw [h.codeLabels]
  refine List.nodup_cons.mpr ⟨fun hLabel => ?_, ?_⟩
  · obtain ⟨tail, hTail, hSame⟩ := List.mem_map.mp hLabel
    have hFirst := h.spread.locals tail hTail
    have hEmpty : tail.toList = [] := by
      have hChars := congrArg String.toList hSame
      simpa using hChars
    rw [isLocal, hEmpty] at hFirst
    cases hFirst
  · exact (h.spread.nodup h.labelled.distinct).map fun _ _ => String.append_right_inj _ |>.mp

/-- No label of code comes twice, if no function has the name of another. -/
theorem nodup_codeLabels_pieces {pieces : List (FunctionPiece setting)}
    (h : ∀ piece ∈ pieces, piece.Clear) (hNames : (pieces.map FunctionPiece.name).Nodup) :
    (codeLabels (pieces.map FunctionPiece.lines).flatten).Nodup := by
  have hLabels : codeLabels (pieces.map FunctionPiece.lines).flatten =
      (pieces.map fun piece => codeLabels piece.lines).flatten := by
    simp [codeLabels, List.filterMap_flatten, List.map_map, Function.comp_def]
  rw [hLabels, List.nodup_flatten]
  constructor
  · intro labels hMem
    obtain ⟨piece, hPiece, rfl⟩ := List.mem_map.mp hMem
    exact (h piece hPiece).nodup_codeLabels
  · rw [List.pairwise_map]
    rw [List.Nodup, List.pairwise_map] at hNames
    refine hNames.imp_of_mem fun {first second} hFirst hSecond hNe label hLabel hOther => hNe ?_
    apply String.toList_inj.mp
    rw [← (h first hFirst).labelOwner label hLabel, (h second hSecond).labelOwner label hOther]

end Pieces

/-- The code of a unit holds no directives. -/
theorem CompiledUnit.ne_directive {setting : Setting} (unit : CompiledUnit setting) :
    ∀ statement ∈ unit.code, ∀ directive, statement.content ≠ .directive directive := by
  obtain ⟨pieces, hCode, _⟩ := unit.generated.exists_pieces
  intro statement hStatement directive
  rw [hCode] at hStatement
  obtain ⟨code, hMem, hStatement⟩ := List.mem_flatten.mp hStatement
  obtain ⟨piece, _, rfl⟩ := List.mem_map.mp hMem
  exact piece.ne_directive hStatement directive

end ScriptBackend.Lowering
