import ScriptBackend.Proofs.Lowering.BalancedStatements
import ScriptBackend.Proofs.Lowering.CompiledLinks

/-!
The discipline of the operand stack. In the code of expressions, statements and
functions whose values are as large as their types, every position has its
depth: the machine finds as many words there, whichever way it comes, and never
reaches for the words below. So an expression leaves exactly the words of its
type, a statement none, and a function returns with its results and nothing
else.
-/
namespace ScriptBackend.Lowering

open ScriptBackend.Assembly Outcome

/-- What code does to the operand stack. At every position there is a given
number of words above those that were there at the start. Calls do what the
signatures in the program say. -/
structure StackDiscipline (setting : Setting) (code : Code) (called : Nat → Interface)
    (depth : Nat → Nat) : Prop where
  /-- Functions that are called have the interface of their signature. -/
  call : ∀ position statement name, code[position]? = some statement →
    statement.content = .instruction "CALL" [.name name] →
    ∃ function parameters, function ∈ setting.program.functions ∧ function.name = name ∧
      parameterTypes setting function = .ok parameters ∧
      called position = setting.interface parameters function.result
  /-- Functions that are called through pointers have the interface of a
  prototype. -/
  callThrough : ∀ position statement, code[position]? = some statement →
    statement.content = .instruction "CALLINDIRECT" [] →
    ∃ prototype ∈ setting.program.prototypes,
      called position = setting.interface prototype.parameters prototype.result
  /-- A function that leaves takes all words with it as its results. -/
  leave : ∀ position statement, code[position]? = some statement → transfer statement = .leave →
    effect? (called position) statement = some (.exchange (depth position) 0)
  /-- The words that were there at the start stay where they are. -/
  depth : ∀ below position stack, StackRuns called code (0, below) (position, stack) →
    ∃ above, above.length = depth position ∧ stack = above ++ below ∧
      ∀ statement, code[position]? = some statement →
        ∃ effect left, effect? (called position) statement = some effect ∧ effect.Moves above left

/-- The words on the stack at a position of a listing. -/
def Listing.depth (listing : Listing) (after : Shape) (position : Nat) : Nat :=
  ((listing.shapes after)[position]?.getD []).length

section Listings

variable {setting : Setting} {listing : Listing} {before after : Shape} {promised : LabelShapes}

theorem Listing.line_of_statement (after : Shape) {position : Nat} {statement : Statement}
    (h : listing.code[position]? = some statement) :
    ∃ line, listing[position]? = some line ∧ line.statement = statement ∧
      listing.called position = line.called ∧ listing.depth after position = line.shape.length := by
  rw [code, List.getElem?_map, Option.map_eq_some_iff] at h
  obtain ⟨line, hLine, hStatement⟩ := h
  refine ⟨line, hLine, hStatement, ?_, ?_⟩
  · rw [called, hLine]
    rfl
  · rw [depth, shape_of_line hLine, Option.getD_some]

/-- Each label of code has one shape: those that lowering made up come once, and
the others have the shape of the start. -/
theorem Listing.oneShape_of_spread {users : List String} {low high : Nat}
    (hSpread : Spread users [] low high (definedLabels listing.code))
    (hFits : ∀ line ∈ listing, ShapedLine.Fits setting before line)
    (hPromised : ∀ entry ∈ promised, entry.2 = before ∧
      (isUserLabel entry.1 = true ∨ entry.1 ∉ definedLabels listing.code)) :
    OneShape (listing.labels ++ promised) listing := by
  intro label shape other hKnown hOther
  have hUsers : ∀ shape, (label, shape) ∈ listing.labels → isUserLabel label = true →
      shape = before := by
    intro shape hMem hUser
    obtain ⟨line, hLine, hEntry⟩ := List.mem_flatMap.mp hMem
    obtain ⟨found, hFound, hSame⟩ := List.mem_map.mp hEntry
    cases hSame
    exact (hFits line hLine).label label (Option.mem_toList.mp hFound) hUser
  cases hUser : isUserLabel label with
  | true =>
      rw [hUsers other hOther hUser]
      rcases List.mem_append.mp hKnown with hOwn | hOuter
      · exact hUsers shape hOwn hUser
      · exact (hPromised _ hOuter).1
  | false =>
      have hOwn : (label, shape) ∈ listing.labels := by
        rcases List.mem_append.mp hKnown with hOwn | hOuter
        · exact hOwn
        · rcases (hPromised _ hOuter).2 with hPromisedUser | hOutside
          · rw [hPromisedUser] at hUser
            cases hUser
          · rw [definedLabels_code] at hOutside
            exact absurd (List.mem_map_of_mem hOther) hOutside
      have hNodup := hSpread.nodup_made (labelNumber label)
      rw [definedLabels_code, List.filter_map] at hNodup
      have hMade : isMadeFor (labelNumber label) label = true := by simp [isMadeFor, hUser]
      have hSame := List.inj_on_of_nodup_map hNodup (List.mem_filter.mpr ⟨hOwn, hMade⟩)
        (List.mem_filter.mpr ⟨hOther, hMade⟩) rfl
      exact congrArg Prod.snd hSame

/-- Code whose shapes check keeps the discipline. -/
theorem Listing.Checks.discipline {known : LabelShapes} (h : listing.Checks known [] after)
    (hOne : OneShape known listing) (hFits : ∀ line ∈ listing, ShapedLine.Fits setting [] line) :
    StackDiscipline setting listing.code listing.called (listing.depth after) where
  call := fun position statement name hStatement hContent => by
    obtain ⟨line, hLine, rfl, hCalled, _⟩ := Listing.line_of_statement after hStatement
    rw [hCalled]
    exact (hFits line (List.mem_of_getElem? hLine)).call name hContent
  callThrough := fun position statement hStatement hContent => by
    obtain ⟨line, hLine, rfl, hCalled, _⟩ := Listing.line_of_statement after hStatement
    rw [hCalled]
    exact (hFits line (List.mem_of_getElem? hLine)).callThrough hContent
  leave := fun position statement hStatement hLeave => by
    obtain ⟨line, hLine, rfl, hCalled, hDepth⟩ := Listing.line_of_statement after hStatement
    obtain ⟨results, hEffect, hLength⟩ := (hFits line (List.mem_of_getElem? hLine)).leave hLeave
    rw [hCalled, hDepth, hEffect, hLength]
    rfl
  depth := fun below position stack hRuns => by
    have hStart : Matches ([] ++ below.map some) below := Matches.exact_iff.mpr rfl
    obtain ⟨shape, hShape, hStack⟩ := h.sound hOne hStart hRuns
    obtain ⟨above, rest, rfl, hAbove, hRest⟩ := hStack.exists_append
    refine ⟨above, ?_, by rw [Matches.exact_iff.mp hRest], fun statement hStatement => ?_⟩
    · rw [hAbove.length_eq, Listing.depth, hShape, Option.getD_some]
    · obtain ⟨line, hLine, rfl, hCalled, _⟩ := Listing.line_of_statement after hStatement
      obtain ⟨_, _, effect, _, hEffect, hTurns, _⟩ := h.follows hLine
      rw [Listing.shape_of_line hLine] at hShape
      cases hShape
      obtain ⟨left, hLeft⟩ := hTurns.moves hAbove
      exact ⟨effect, left, hCalled ▸ hEffect, hLeft⟩

/-- The machine leaves so many words on the stack when it runs through code, and
keeps the discipline on its way. -/
def LeavesWords (setting : Setting) (code : Code) (words : Nat) : Prop :=
  ∃ called depth, StackDiscipline setting code called depth ∧ depth 0 = 0 ∧
    depth code.length = words

/-- Balanced code leaves as many words on the stack as its last shape has, on
every way through it. -/
theorem Balanced.leavesWords {own : LabelShapes} {code : Code}
    {users : List String} {low high : Nat}
    (h : Balanced (ShapedLine.Fits setting []) promised own code [] after)
    (hSpread : Spread users [] low high (definedLabels code))
    (hPromised : ∀ entry ∈ promised, entry.2 = [] ∧
      (isUserLabel entry.1 = true ∨ entry.1 ∉ definedLabels code)) :
    LeavesWords setting code after.length := by
  obtain ⟨listing, rfl, hFits, _, hChecks⟩ := h
  have hListing := hChecks (listing.labels ++ promised) (List.subset_append_left _ _)
    (List.subset_append_right _ _)
  have hOne := Listing.oneShape_of_spread hSpread hFits hPromised
  refine ⟨listing.called, listing.depth after, hListing.discipline hOne hFits, ?_, ?_⟩
  · rw [Listing.depth, hListing.head]
    rfl
  · have hEnd : (listing.shapes after)[listing.code.length]? = some after := by
      simp [Listing.shapes, Listing.code]
    rw [Listing.depth, hEnd]
    rfl

end Listings

section Programs

variable {setting : Setting} {environment : Environment} {n m : Nat} {code : Code}

/-- The code of an expression leaves the words of its type. -/
theorem value_leavesWords {e : Expr} (h : (environment.value e).run n = .ok (code, m))
    (hSized : Sized environment.toSetting e) :
    LeavesWords environment.toSetting code (environment.sizes.of e.ty) := by
  have hEmits := environment.value_emits h
  have hKeeps : Keeps environment.toSetting [] [] code []
      (unknown (environment.sizes.of e.ty) ++ []) :=
    hEmits.keeps_value hSized []
  have hLeaves := hKeeps.leavesWords hEmits.spread (by simp)
  rwa [List.append_nil, unknown, List.length_replicate] at hLeaves

/-- The code of a part of a body leaves the stack as it was. The labels to which
it breaks or continues are outside of it. -/
theorem Generates.leavesWords {targets : Targets} {statements : List Stmt}
    (h : Generates environment targets (.block statements) n code m)
    (hSized : ∀ s ∈ statements, SizedStatement environment s)
    (hDefaults : ∀ s ∈ Stmt.blockParts statements, s.hasOneDefault = true)
    (hTargets : ∀ label ∈ targets.break?.toList ++ targets.continue?.toList, label ∉
      definedLabels code) :
    LeavesWords environment.toSetting code 0 := by
  have hKeeps : Keeps environment.toSetting []
      ((Part.jumps targets (.block statements)).map (·, []))
      code [] [] := h.keeps hSized fun label hLabel => List.mem_map_of_mem hLabel
  refine hKeeps.leavesWords (h.spread trivial hDefaults) fun entry hEntry => ?_
  obtain ⟨label, hLabel, rfl⟩ := List.mem_map.mp hEntry
  refine ⟨rfl, ?_⟩
  rcases List.mem_append.mp hLabel with hExit | hGoto
  · exact .inr (hTargets label (by simpa [Part.exits] using hExit))
  · obtain ⟨name, _, rfl⟩ := List.mem_map.mp hGoto
    left
    simp [isUserLabel, userLabel]

/-- Functions whose statements are sized, and whose selections have one default
at most. -/
structure SizedFunction (setting : Setting) (id : Nat) : Prop where
  body : ∀ function frame, setting.program.functions[id]? = some function →
    setting.slots.frame id = .ok frame →
    ∀ s ∈ function.body, SizedStatement { setting with frame := frame } s
  defaults : ∀ function, setting.program.functions[id]? = some function →
    ∀ s ∈ Stmt.blockParts function.body, s.hasOneDefault = true

/-- The bodies of functions leave the stack as it was. -/
theorem FunctionsGenerate.leavesWords {ids : List Nat} (h : FunctionsGenerate setting ids n code m)
    (hSized : ∀ id ∈ ids, SizedFunction setting id) :
    ∀ id ∈ ids, ∃ piece : FunctionPiece setting,
      setting.program.functions[id]? = some piece.function ∧
      piece.code <:+: code ∧ LeavesWords setting piece.body 0 := by
  induction h with
  | nil n => simp
  | @cons id rest function frame n middle m body others declared framed fits
        body_code _ rest_code ih =>
      rw [List.forall_mem_cons] at hSized ⊢
      refine ⟨⟨⟨function, frame, fits, body, n, middle, body_code⟩, declared, ?_, ?_⟩,
        fun other hOther => ?_⟩
      · exact ⟨[], others, rfl⟩
      · exact body_code.leavesWords (hSized.1.body function frame declared framed)
          (hSized.1.defaults function declared) (by simp)
      · obtain ⟨piece, hPiece, hInfix, hLeaves⟩ := ih hSized.2 other hOther
        exact ⟨piece, hPiece, hInfix.trans (List.suffix_append _ _).isInfix, hLeaves⟩

/-- Whenever a program is lowered, the code of each of its functions is in the
assembly, and its body leaves the stack as it was. -/
theorem leavesWords_of_compileToAssembly {natives : NativeSource} {program : Program}
    {statements : Code} (h : compileToAssembly natives program = .ok statements)
    (hSetting : Setting.ofProgram natives program = .ok setting)
    (hSized : ∀ id < program.functions.size, SizedFunction setting id) :
    ∀ id < program.functions.size, ∃ piece : FunctionPiece setting,
      program.functions[id]? = some piece.function ∧ piece.code <:+: statements ∧
        LeavesWords setting piece.body 0 := by
  obtain ⟨found, hFound, hUnit⟩ := bind_eq_ok.mp h
  obtain rfl : found = setting := by
    rw [hSetting] at hFound
    cases hFound
    rfl
  have hProgram : found.program = program := by
    obtain ⟨slots, _, hRest⟩ := bind_eq_ok.mp hSetting
    cases hRest
    rfl
  subst hProgram
  obtain ⟨unit, rfl⟩ := CompiledUnit.exists_of_unitOf hUnit
  have hInfix : unit.code <:+: unit.statements := by
    refine List.IsSuffix.isInfix
      ⟨unit.header ++ (unit.globals ++ (unit.statics ++ (unit.arguments ++
      (unit.natives ++ [.ofDirective (.segment .code)])))), ?_⟩
    simp [CompiledUnit.statements]
  -- positions behind the last function are of no function, so nothing is asked of them
  have hAll : ∀ id ∈ codeOrder found.program unit.entry, SizedFunction found id := by
    intro id _
    by_cases hId : id < found.program.functions.size
    · exact hSized id hId
    · have hNone : found.program.functions[id]? = none := by simpa using hId
      exact ⟨fun function _ hFunction => by simp [hNone] at hFunction,
        fun function hFunction => by simp [hNone] at hFunction⟩
  intro id hId
  obtain ⟨piece, hPiece, hCode, hLeaves⟩ := unit.generated.leavesWords hAll id (mem_codeOrder hId)
  exact ⟨piece, hPiece, hCode.trans hInfix, hLeaves⟩

/-- The code of a statement leaves the stack as it was. -/
theorem statement_leavesWords {targets : Targets} {s : Stmt}
    (h : (statement environment targets s).run n = .ok (code, m))
    (hSized : SizedStatement environment s)
    (hDefaults : ∀ part ∈ s.parts, part.hasOneDefault = true)
    (hTargets : ∀ label ∈ targets.break?.toList ++ targets.continue?.toList, label ∉
      definedLabels code) :
    LeavesWords environment.toSetting code 0 := by
  have hAlone : Generates environment targets (.block [s]) n code m := by
    have hBlock := Generates.cons (statement_generates targets s _ _ _ h) (.nil targets m)
    rwa [List.append_nil] at hBlock
  refine hAlone.leavesWords (List.forall_mem_singleton.mpr hSized)
    (fun part hPart => hDefaults part ?_) hTargets
  simpa [Stmt.blockParts] using hPart

/-- The discipline of compiled code. In a program whose functions are sized,
which leaves out operands that their operator does not support, the body of
every function leaves the stack as it was, and so does every sized statement,
while a sized expression leaves exactly the words of its type, on every path. -/
theorem compiled_leavesWords {natives : NativeSource} {program : Program} {statements : Code}
    (h : compileToAssembly natives program = .ok statements)
    (hSetting : Setting.ofProgram natives program = .ok setting)
    (hSized : ∀ id < program.functions.size, SizedFunction setting id) :
    (∀ id < program.functions.size, ∃ piece : FunctionPiece setting,
      program.functions[id]? = some piece.function ∧ piece.code <:+: statements ∧
        LeavesWords setting piece.body 0) ∧
    ∀ frame, let environment : Environment := { setting with frame := frame }
      (∀ s targets n code m, (statement environment targets s).run n = .ok (code, m) →
        SizedStatement environment s → (∀ part ∈ s.parts, part.hasOneDefault = true) →
        (∀ label ∈ targets.break?.toList ++ targets.continue?.toList, label ∉ definedLabels code) →
        LeavesWords setting code 0) ∧
      ∀ e n code m, (environment.value e).run n = .ok (code, m) → Sized setting e →
        LeavesWords setting code (setting.sizes.of e.ty) :=
  ⟨leavesWords_of_compileToAssembly h hSetting hSized, fun _ =>
    ⟨fun _ _ _ _ _ hCode hStatement hDefaults hTargets =>
      statement_leavesWords hCode hStatement hDefaults hTargets, fun _ _ _ _ hCode hExpression =>
        value_leavesWords hCode hExpression⟩⟩

end Programs

/-! A sum of vectors -/

def summand : Expr :=
  .var ⟨.vector, false, true⟩ 0

def vectorSum : Program :=
  ⟨"sum", none, none, #[], #[], #[⟨"v", .vector, .placed .locals, none⟩],
    #[⟨"MAIN", [], .void,
      [.declare 0, .assign summand none (.binary ⟨.vector, false, false⟩ .add summand summand)]⟩],
        #[]⟩

theorem compile_vectorSum : ∃ statements setting,
    compileToAssembly NativeDatabase.empty vectorSum = .ok statements ∧
      Setting.ofProgram NativeDatabase.empty vectorSum = .ok setting := by
  have hSome : (compileToAssembly NativeDatabase.empty vectorSum).toOption.isSome =
      true := by decide +kernel
  cases h : compileToAssembly NativeDatabase.empty vectorSum with
  | error fault =>
      rw [h] at hSome
      cases hSome
  | ok statements =>
      obtain ⟨setting, hSetting, _⟩ := bind_eq_ok.mp h
      exact ⟨statements, setting, rfl, hSetting⟩

theorem compiled_leavesWords_vectorSum :
    ∃ statements setting, compileToAssembly NativeDatabase.empty vectorSum = .ok statements ∧
      Setting.ofProgram NativeDatabase.empty vectorSum = .ok setting ∧
      (∀ id < vectorSum.functions.size, SizedFunction setting id) ∧
      ∃ piece : FunctionPiece setting, piece.code <:+: statements ∧
        LeavesWords setting piece.body 0 := by
  obtain ⟨statements, setting, h, hSetting⟩ := compile_vectorSum
  obtain ⟨slots, hSlots, hSame⟩ := bind_eq_ok.mp hSetting
  cases hSame
  let setting : Setting :=
    ⟨vectorSum, .ofStructs vectorSum.structs, slots, NativeDatabase.empty.source⟩
  have hSmall : 3 < wordLimit := by decide
  have hSummand : Sized setting summand := .variable rfl nofun rfl hSmall
  have hSum : Sized setting (.binary ⟨.vector, false, false⟩ .add summand summand) :=
    .binary rfl rfl hSummand (.inl rfl) hSummand (.inl rfl)
  have hDeclaration : SizedDeclaration setting 0 := by
    refine ⟨fun declared target hDeclared hRef => ?_, fun declared e hDeclared _ hInitial => ?_⟩
    · cases hDeclared
      cases hRef
    · cases hDeclared
      cases hInitial
  have hSized : ∀ id < vectorSum.functions.size, SizedFunction setting id := by
    intro id hId
    obtain rfl : id = 0 := by simpa [vectorSum] using hId
    refine ⟨fun function frame hFunction _ => ?_, fun function hFunction => ?_⟩
    · cases hFunction
      refine List.forall_mem_cons.mpr ⟨.declare hDeclaration, List.forall_mem_singleton.mpr ?_⟩
      exact .assign (.value rfl hSummand hSmall hSum rfl)
    · cases hFunction
      exact List.forall_mem_cons.mpr ⟨rfl, List.forall_mem_singleton.mpr rfl⟩
  obtain ⟨piece, _, hCode, hLeaves⟩ := (compiled_leavesWords h hSetting hSized).1 0 (by decide)
  exact ⟨statements, setting, h, hSetting, hSized, piece, hCode, hLeaves⟩

end ScriptBackend.Lowering
