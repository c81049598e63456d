import ScriptBackend.Proofs.Assembly.Expansion
import ScriptBackend.Proofs.Instruction.Decoding
import ScriptBackend.Assembly.CodeImage

/-!
Instructions that suit the machine. Nothing but the limits of encodings and
sections stands in the way of an instruction whose name is known, whose operands
are of the kinds that its format asks for, and whose labels and natives are
there.
-/
namespace ScriptBackend

def Opcode.takesInteger (opcode : Opcode) : Bool :=
  match opcode.format with
  | .byte | .signed16 | .unsigned16 | .unsigned24 => true
  | _ => false

namespace Assembly

open Outcome

/-- Whether a cause is that something is too large, too far away or too many. -/
def Cause.isLimit : Cause → Bool
  | .capacity .. | .jumpOutOfRange .. | .tooManyNatives => true
  | _ => false

/-- No fault has another cause than a limit. -/
abbrev OnlyLimits {α : Type} (outcome : Except Fault α) : Prop :=
  Never (fun cause => cause.isLimit = false) outcome

/-- What names in operands can stand for. -/
structure Names where
  isLabel : String → Prop
  isNative : String → Prop

/-- Names that stand for as much as others, or more. -/
structure Names.Within (names later : Names) : Prop where
  labels : ∀ name, names.isLabel name → later.isLabel name
  natives : ∀ name, names.isNative name → later.isNative name

/-- The operands of a primitive are of the kinds that its format asks for. -/
def Primitive.Suits (names : Names) (primitive : Primitive) : Prop :=
  match primitive.opcode.format, primitive.operands with
  | .none, [] | .byte, [.int _] | .twoBytes, [.int _, .int _] | .word, [.int _]
  | .float, [.float _] | .enter, [.int _, .int _] | .signed16, [.int _] | .unsigned16, [.int _]
  | .unsigned24, [.int _] => True
  | .native, [.int _, .int _, .name native] => names.isNative native
  | .relative, [.name label] | .call, [.name label] | .unsigned24, [.name label] =>
      names.isLabel label
  | .switch, operands =>
    ∀ operand ∈ operands, ∃ value label, operand = .case value label ∧ names.isLabel label
  | _, _ => False

/-- What calls a native names it in its third operand. -/
theorem Primitive.Suits.native {names : Names} {primitive : Primitive} (h : primitive.Suits names)
    (hFormat : primitive.opcode.format = .native) :
    ∃ name, primitive.operands[2]? = some (.name name) ∧ names.isNative name := by
  unfold Primitive.Suits at h
  rw [hFormat] at h
  split at h
  all_goals simp_all

/-- An operand that can be pushed. -/
def Operand.IsPushable (names : Names) : Operand → Prop
  | .int _ | .float _ => True
  | .name label => names.isLabel label
  | _ => False

/-- Whether a shorthand takes one integer, and chooses among instructions that
take it too. -/
def Rule.takesInteger : Rule → Bool
  | .pushConstants | .pushText => false
  | .index narrow wide | .globalId narrow wide => narrow.takesInteger && wide.takesInteger
  | .immediate narrow wide general =>
    narrow.takesInteger && wide.takesInteger && general.all fun opcode => opcode.format = .none

/-- An instruction that the assembler knows, with operands that suit it. -/
inductive Suited (names : Names) (mnemonic : String) (operands : List Operand) : Prop where
  | primitive {opcode : Opcode} (named : Opcode.named? mnemonic = some opcode)
      (suits : Primitive.Suits names ⟨opcode, operands⟩)
  | pushes {shorthand : Shorthand} (unnamed : Opcode.named? mnemonic = none)
      (named : Shorthand.named? mnemonic = some shorthand) (rule : shorthand.rule = .pushConstants)
      (nonempty : operands ≠ []) (pushable : ∀ operand ∈ operands, operand.IsPushable names)
  | text {shorthand : Shorthand} {text : String} (unnamed : Opcode.named? mnemonic = none)
      (named : Shorthand.named? mnemonic = some shorthand) (rule : shorthand.rule = .pushText)
      (single : operands = [.text text])
  | integer {shorthand : Shorthand} {value : Int64} (unnamed : Opcode.named? mnemonic = none)
      (named : Shorthand.named? mnemonic = some shorthand)
        (takes : shorthand.rule.takesInteger = true)
      (single : operands = [.int value])

section

variable {names later : Names}

/-- What suits some names suits more of them. -/
theorem Primitive.Suits.mono {primitive : Primitive} (h : primitive.Suits names)
    (hWithin : names.Within later) : primitive.Suits later := by
  unfold Suits at h ⊢
  split at h
  all_goals first
    | exact trivial
    | exact hWithin.natives _ h
    | exact hWithin.labels _ h
    | exact h.elim
    | skip
  intro operand hOperand
  obtain ⟨value, label, hCase, hLabel⟩ := h operand hOperand
  exact ⟨value, label, hCase, hWithin.labels label hLabel⟩

theorem Operand.IsPushable.mono {operand : Operand} (h : operand.IsPushable names)
    (hWithin : names.Within later) : operand.IsPushable later := by
  cases operand with
  | name label => exact hWithin.labels label h
  | int value => trivial
  | float value => trivial
  | _ => exact h.elim

theorem Suited.mono {mnemonic : String} {operands : List Operand}
    (h : Suited names mnemonic operands)
    (hWithin : names.Within later) : Suited later mnemonic operands := by
  cases h with
  | primitive named suits => exact .primitive named (suits.mono hWithin)
  | pushes unnamed named rule nonempty pushable =>
      exact .pushes unnamed named rule nonempty fun operand h => (pushable operand h).mono hWithin
  | text unnamed named rule single => exact .text unnamed named rule single
  | integer unnamed named takes single => exact .integer unnamed named takes single

end

/-! Expansion -/

namespace Expansion

variable {names : Names} {expansion : Expansion}

theorem onlyLimits_fault {α : Type} {cause : Cause} (h : cause.isLimit = true) :
    OnlyLimits (expansion.fault cause : Except Fault α) := by
  simp [fault, Line.fault, h]

theorem onlyLimits_pushInt (value : Int) : OnlyLimits (expansion.pushInt value) := by
  unfold pushInt
  repeat' split
  all_goals first
    | exact Never.ok _
    | exact onlyLimits_fault rfl

theorem suits_ofInt {opcode : Opcode} (h : opcode.takesInteger = true) (value : Int) :
    (Primitive.ofInt opcode value).Suits names := by
  unfold Opcode.takesInteger at h
  unfold Primitive.Suits Primitive.ofInt
  cases hFormat : opcode.format <;> simp [hFormat] at h ⊢

theorem suits_bare {opcode : Opcode} (h : opcode.format = .none) :
    Primitive.Suits names ⟨opcode, []⟩ := by
  unfold Primitive.Suits
  simp [h]

theorem format_compactInt? {value : Int} {opcode : Opcode}
    (h : Opcode.compactInt? value = some opcode) :
    opcode.format = .none := by
  unfold Opcode.compactInt? at h
  split at h
  all_goals
    cases h
    try rfl

theorem format_compactFloat? {value : Binary32} {opcode : Opcode}
    (h : Opcode.compactFloat? value = some opcode) : opcode.format = .none := by
  have hAll : ∀ entry ∈ Opcode.compactFloats, entry.2.format = .none := by decide
  obtain ⟨entry, hEntry, rfl⟩ := Option.map_eq_some_iff.mp h
  exact hAll entry (List.mem_of_find?_eq_some hEntry)

/-- The push that is chosen for an integer suits, since the integer is a literal
in it. -/
theorem suits_of_pushInt {value : Int} {primitive : Primitive}
    (h : expansion.pushInt value = .ok primitive) : primitive.Suits names := by
  unfold pushInt at h
  split at h
  · next opcode hCompact =>
      cases h
      exact suits_bare (format_compactInt? hCompact)
  · repeat' split at h
    all_goals first
      | cases h; exact suits_ofInt rfl value
      | cases h; exact trivial
      | simp [fault] at h

theorem suits_pushFloat (value : Binary32) : (pushFloat value).Suits names := by
  unfold pushFloat
  split
  · next opcode hCompact => exact suits_bare (format_compactFloat? hCompact)
  · exact trivial

/-- A push whose operand suits cannot fail but for a value out of range. -/
theorem onlyLimits_pushOperand {operand : Operand} (h : operand.IsPushable names) :
    OnlyLimits (expansion.pushOperand operand) := by
  cases operand with
  | int value => exact onlyLimits_pushInt _
  | float value => exact Never.ok _
  | name label =>
      unfold pushOperand
      dsimp only
      split
      · exact onlyLimits_pushInt _
      · exact Never.ok _
      · exact Never.ok _
  | _ => exact h.elim

/-- Whatever push is chosen for an operand that suits, the chosen primitive
suits too. -/
theorem suits_of_pushOperand {operand : Operand} {primitive : Primitive}
    (hPushable : operand.IsPushable names) (h : expansion.pushOperand operand = .ok primitive) :
    primitive.Suits names := by
  cases operand with
  | int value => exact suits_of_pushInt h
  | float value =>
      cases h
      exact suits_pushFloat value
  | name label =>
      unfold pushOperand at h
      dsimp only at h
      split at h
      · exact suits_of_pushInt h
      · cases h
        exact suits_pushFloat _
      · cases h
        exact hPushable
  | _ => exact hPushable.elim

theorem onlyLimits_pushOperands {operands : List Operand}
    (h : ∀ operand ∈ operands, operand.IsPushable names) :
    OnlyLimits (expansion.pushOperands operands) := by
  induction operands with
  | nil => exact Never.ok _
  | cons operand rest ih =>
      refine (onlyLimits_pushOperand (h operand (by simp))).bind fun first => ?_
      exact (ih fun other hOther => h other (by simp [hOther])).bind fun others => Never.ok _

/-- The pushes that are chosen for operands in order all suit. -/
theorem suits_of_pushOperands {operands : List Operand} {primitives : List Primitive}
    (hPushable : ∀ operand ∈ operands, operand.IsPushable names)
    (h : expansion.pushOperands operands = .ok primitives) :
    ∀ primitive ∈ primitives, primitive.Suits names := by
  induction operands generalizing primitives with
  | nil =>
      cases h
      simp
  | cons operand rest ih =>
      obtain ⟨first, hFirst, h⟩ := bind_eq_ok.mp h
      obtain ⟨others, hOthers, h⟩ := bind_eq_ok.mp h
      cases h
      intro primitive hPrimitive
      rcases List.mem_cons.mp hPrimitive with rfl | hLater
      · exact suits_of_pushOperand (hPushable operand (by simp)) hFirst
      · exact ih (fun other hOther => hPushable other (by simp [hOther])) hOthers primitive hLater

/-- A text that is pushed can only be too long for a page. -/
theorem onlyLimits_pushText (text : String) : OnlyLimits (expansion.pushText [.text text]) := by
  refine (Never.ok _ : OnlyLimits (expansion.single [.text text])).bind_ok fun operand hSingle => ?_
  cases hSingle
  dsimp only
  split
  · exact (onlyLimits_pushInt _).bind fun push => Never.ok _
  · exact onlyLimits_fault rfl

theorem suits_of_pushText {operands : List Operand} {primitives : List Primitive}
    (h : expansion.pushText operands = .ok primitives) :
    ∀ primitive ∈ primitives, primitive.Suits names := by
  obtain ⟨operand, _, h⟩ := bind_eq_ok.mp h
  split at h
  · split at h
    · obtain ⟨push, hPush, h⟩ := bind_eq_ok.mp h
      cases h
      intro primitive hPrimitive
      simp only [List.mem_cons, List.not_mem_nil, or_false] at hPrimitive
      rcases hPrimitive with rfl | rfl
      · exact suits_of_pushInt hPush
      · exact trivial
    · simp [fault] at h
  · simp [fault] at h

/-- A rule that takes one integer fails only when the integer is out of range. -/
theorem onlyLimits_apply_integer {rule : Rule} (h : rule.takesInteger = true) (value : Int64) :
    OnlyLimits (expansion.apply rule [.int value]) := by
  have hUnsigned : ∀ narrow wide narrowLimit wideLimit what,
      OnlyLimits (expansion.unsigned [.int value] narrow wide narrowLimit wideLimit what) := by
    intro narrow wide narrowLimit wideLimit what
    show OnlyLimits (if _ then _ else _)
    repeat' split
    all_goals first
      | exact Never.ok _
      | exact onlyLimits_fault rfl
  cases rule with
  | pushConstants => cases h
  | pushText => cases h
  | index narrow wide => exact hUnsigned _ _ _ _ _
  | globalId narrow wide => exact hUnsigned _ _ _ _ _
  | immediate narrow wide general =>
      show OnlyLimits (if _ then _ else _)
      repeat' split
      · exact Never.ok _
      · exact Never.ok _
      · exact (onlyLimits_pushInt _).bind fun push => Never.ok _

/-- Whichever primitives a rule chooses for an integer, they carry it as a
literal. -/
theorem suits_of_apply_integer {rule : Rule} {value : Int64} {primitives : List Primitive}
    (hTakes : rule.takesInteger = true) (h : expansion.apply rule [.int value] = .ok primitives) :
    ∀ primitive ∈ primitives, primitive.Suits names := by
  have hUnsigned : ∀ narrow wide narrowLimit wideLimit what,
      (narrow.takesInteger && wide.takesInteger) = true →
      expansion.unsigned [.int value] narrow wide narrowLimit wideLimit what = .ok primitives →
      ∀ primitive ∈ primitives, primitive.Suits names := by
    intro narrow wide narrowLimit wideLimit what hBoth h
    rw [Bool.and_eq_true] at hBoth
    change (if _ then _ else _) = _ at h
    split at h
    · cases h
      simpa using suits_ofInt hBoth.1 _
    · split at h
      · cases h
        simpa using suits_ofInt hBoth.2 _
      · simp [fault] at h
  cases rule with
  | pushConstants => cases hTakes
  | pushText => cases hTakes
  | index narrow wide => exact hUnsigned _ _ _ _ _ hTakes h
  | globalId narrow wide => exact hUnsigned _ _ _ _ _ hTakes h
  | immediate narrow wide general =>
      simp only [Rule.takesInteger, Bool.and_eq_true, List.all_eq_true, decide_eq_true_eq] at hTakes
      obtain ⟨⟨hNarrow, hWide⟩, hGeneral⟩ := hTakes
      change (if _ then _ else _) = _ at h
      split at h
      · cases h
        simpa using suits_ofInt hNarrow _
      · split at h
        · cases h
          simpa using suits_ofInt hWide _
        · obtain ⟨push, hPush, h⟩ := bind_eq_ok.mp h
          cases h
          intro primitive hPrimitive
          rcases List.mem_cons.mp hPrimitive with rfl | hLater
          · exact suits_of_pushInt hPush
          · obtain ⟨opcode, hOpcode, rfl⟩ := List.mem_map.mp hLater
            exact suits_bare (hGeneral opcode hOpcode)

end Expansion

section

variable {names : Names} {symbols : Symbols} {strings : StringPages} {line : Line}
  {mnemonic : String} {operands : List Operand}

/-- Only a limit keeps an instruction that suits from being expanded. -/
theorem Suited.onlyLimits_expand (h : Suited names mnemonic operands) :
    OnlyLimits (expand symbols strings line mnemonic operands) := by
  unfold expand
  cases h with
  | primitive named suits =>
      simp only [named]
      exact Never.ok _
  | pushes unnamed named rule nonempty pushable =>
      simp only [unnamed, named, rule, Expansion.apply, List.isEmpty_iff, if_neg nonempty]
      exact Expansion.onlyLimits_pushOperands pushable
  | text unnamed named rule single =>
      simp only [unnamed, named, rule, single]
      exact Expansion.onlyLimits_pushText _
  | integer unnamed named takes single =>
      simp only [unnamed, named, single]
      exact Expansion.onlyLimits_apply_integer takes _

/-- An instruction that suits stands for primitives that do. -/
theorem Suited.suits_of_expand (h : Suited names mnemonic operands) {primitives : List Primitive}
    (hExpand : expand symbols strings line mnemonic operands = .ok primitives) :
    ∀ primitive ∈ primitives, primitive.Suits names := by
  unfold expand at hExpand
  cases h with
  | primitive named suits =>
      simp only [named] at hExpand
      cases hExpand
      simpa using suits
  | pushes unnamed named rule nonempty pushable =>
      simp only [unnamed, named, rule, Expansion.apply, List.isEmpty_iff,
        if_neg nonempty] at hExpand
      exact Expansion.suits_of_pushOperands pushable hExpand
  | text unnamed named rule single =>
      simp only [unnamed, named, rule] at hExpand
      exact Expansion.suits_of_pushText hExpand
  | integer unnamed named takes single =>
      simp only [unnamed, named, single] at hExpand
      exact Expansion.suits_of_apply_integer takes hExpand

/-! Encoding -/

/-- The only way in which a name is no frame name is that it is too long. -/
theorem Primitive.Suits.onlyLimits_frameName {primitive : Primitive} (h : primitive.Suits names)
    (hFormat : primitive.opcode.format = .enter) (options : Options) :
    OnlyLimits (primitive.frameName line options) := by
  have hWanted : ∃ name, primitive.wantedName line options = .ok name := by
    unfold Suits at h
    rw [hFormat] at h
    unfold wantedName
    split at h
    all_goals simp_all
  obtain ⟨name, hName⟩ := hWanted
  unfold frameName
  rw [hName]
  cases name with
  | none => exact Never.ok _
  | some name =>
      dsimp only
      split
      · simp [Line.fault, Cause.isLimit]
      · exact Never.ok _

/-- A primitive that suits has as many operands as its format asks for. -/
theorem Primitive.Suits.checkCount {primitive : Primitive} (h : primitive.Suits names) :
    primitive.checkCount line = .ok () := by
  unfold Suits at h
  unfold Primitive.checkCount
  split at h
  all_goals simp_all [OperandFormat.count?]

/-- The size of a primitive that suits is known, unless the name of its frame is
too long. -/
theorem Primitive.Suits.onlyLimits_size {primitive : Primitive} (h : primitive.Suits names)
    (options : Options) : OnlyLimits (primitive.size line options) := by
  unfold Primitive.size
  rw [h.checkCount]
  dsimp only [Bind.bind, Except.bind]
  split
  · exact Never.ok _
  · split
    · next hOpcode =>
        refine (h.onlyLimits_frameName ?_ options).bind fun name => Never.ok _
        exact Opcode.format_eq_enter_iff.mpr hOpcode
    · split
      · simp [Line.fault, Cause.isLimit]
      · exact Never.ok _

/-- The names stand for code labels and included natives of the unit. -/
structure Resolves (environment : Environment) (line : Line) (names : Names) : Prop where
  labels : ∀ name, names.isLabel name →
    environment.symbols.contains (line.qualify name) = false ∧
      (environment.labels.find? (line.qualify name)).isSome
  natives : ∀ name, names.isNative name → ∃ symbol,
    environment.symbols.data[line.qualify name]? = some symbol ∧ symbol.segment = .natives

namespace Environment

variable {environment : Environment}

theorem onlyLimits_ranged_int (value : Int64) (least : Int) (greatest : Nat) (codeLabels : Bool)
    (what : Quantity) :
    OnlyLimits (environment.ranged line (.int value) least greatest codeLabels what) := by
  show OnlyLimits (if _ then _ else _)
  split
  · simp [Line.fault, Cause.isLimit]
  · exact Never.ok _

/-- A name that resolves to a label of the code has an address. -/
theorem exists_codeLabel {name : String} (hResolves : Resolves environment line names)
    (hLabel : names.isLabel name) : ∃ address, environment.codeLabel line name = .ok address := by
  obtain ⟨address, hAddress⟩ := Option.isSome_iff_exists.mp (hResolves.labels name hLabel).2
  exact ⟨address, by rw [codeLabel, hAddress]⟩

/-- A label of the code has an address, which can only be out of range. -/
theorem onlyLimits_ranged_label {name : String} (hResolves : Resolves environment line names)
    (hLabel : names.isLabel name) (least : Int) (greatest : Nat) (what : Quantity) :
    OnlyLimits (environment.ranged line (.name name) least greatest true what) := by
  have hInteger : ∃ value, environment.integer line (.name name) true = .ok value := by
    obtain ⟨address, hAddress⟩ := exists_codeLabel hResolves hLabel
    have hUnknown := Symbols.value?_of_contains (hResolves.labels name hLabel).1
    refine ⟨(address : Int), ?_⟩
    simp only [integer, Symbols.intOperand, hUnknown]
    exact bind_eq_ok.mpr ⟨none, rfl, bind_eq_ok.mpr ⟨address, hAddress, rfl⟩⟩
  obtain ⟨value, hValue⟩ := hInteger
  rw [ranged, hValue]
  show OnlyLimits (if _ then _ else _)
  split
  · simp [Line.fault, Cause.isLimit]
  · exact Never.ok _

/-- A jump to a label that exists fails only when the label is too far away. -/
theorem onlyLimits_distance (label : String) (target start : Nat) :
    OnlyLimits (distance line label target start) := by
  unfold distance
  dsimp only
  split
  · simp [Line.fault, Cause.isLimit]
  · exact Never.ok _

/-- The cases of a branch fail only when one of their labels is too far away. -/
theorem onlyLimits_cases (hResolves : Resolves environment line names) (opcode : Opcode)
    {operands : List Operand}
    (h : ∀ operand ∈ operands, ∃ value label, operand = .case value label ∧ names.isLabel label)
    (entry : Nat) : OnlyLimits (environment.cases line opcode entry operands) := by
  induction operands generalizing entry with
  | nil => exact Never.ok _
  | cons operand rest ih =>
      obtain ⟨value, label, rfl, hLabel⟩ := h operand (by simp)
      obtain ⟨address, hAddress⟩ := exists_codeLabel hResolves hLabel
      have hRest := ih fun other hOther => h other (by simp [hOther])
      rw [cases, hAddress]
      split
      · simp [Line.fault, Cause.isLimit, bind, Except.bind]
      · exact (onlyLimits_distance label address _).bind fun jump =>
          (hRest _).bind fun others => Never.ok _

/-- A name that resolves to a native has an index, since the natives of the unit
fit in the table. -/
theorem exists_nativeIndex {name : String} (hResolves : Resolves environment line names)
    (hNative : names.isNative name) (opcode : Opcode) (natives : NativeTable) :
    ∃ index, environment.nativeIndex line opcode (.name name) natives = .ok index := by
  obtain ⟨symbol, hSymbol, hSegment⟩ := hResolves.natives name hNative
  refine ⟨(symbol.value, natives), ?_⟩
  simp [nativeIndex, native, hSymbol, hSegment, bind, Except.bind, pure, Except.pure]

theorem onlyLimits_bytes {operands : List Operand}
    (h : ∀ operand ∈ operands, ∃ value, operand = .int value) :
    OnlyLimits (environment.bytes line operands) := by
  induction operands with
  | nil => exact Never.ok _
  | cons operand rest ih =>
      obtain ⟨value, rfl⟩ := h operand (by simp)
      refine (onlyLimits_ranged_int value _ _ _ _).bind fun byte => ?_
      exact (ih fun other hOther => h other (by simp [hOther])).bind fun others => Never.ok _

/-- Only a limit keeps a primitive that suits from being encoded. -/
theorem onlyLimits_operandBytes {primitive : Primitive} (h : primitive.Suits names)
    (hResolves : Resolves environment line names) (address : Nat) (natives : NativeTable) :
    OnlyLimits (environment.operandBytes line primitive address natives) := by
  have hSuits := h
  obtain ⟨opcode, operands⟩ := primitive
  unfold Primitive.Suits at h
  unfold operandBytes
  dsimp only at h ⊢
  split at h
  all_goals (try simp only [*])
  case h_1 => exact Never.ok _
  case h_2 | h_3 => exact (onlyLimits_bytes (by simp)).map _
  case h_4 | h_7 | h_8 | h_9 =>
    exact ((onlyLimits_ranged_int _ _ _ _ _).bind fun _ => Never.ok _).map _
  case h_5 => exact (Never.ok _).map _
  case h_6 =>
    refine ((onlyLimits_ranged_int _ _ _ _ _).bind fun _ => ?_).map _
    refine (onlyLimits_ranged_int _ _ _ _ _).bind fun _ => ?_
    have hFrame : opcode.format = .enter := by assumption
    exact (hSuits.onlyLimits_frameName hFrame _).bind fun _ => Never.ok _
  case h_10 =>
    obtain ⟨index, hIndex⟩ := exists_nativeIndex hResolves h opcode natives
    refine (onlyLimits_ranged_int _ _ _ _ _).bind fun _ => ?_
    refine (onlyLimits_ranged_int _ _ _ _ _).bind fun _ => ?_
    rw [hIndex]
    exact Never.ok _
  case h_11 =>
    obtain ⟨target, hTarget⟩ := exists_codeLabel hResolves h
    rw [hTarget]
    exact (onlyLimits_distance _ target _).map _
  case h_12 | h_13 =>
    exact ((onlyLimits_ranged_label hResolves h _ _ _).bind fun _ => Never.ok _).map _
  case h_14 => exact ((onlyLimits_cases hResolves opcode h _).bind fun _ => Never.ok _).map _
  case h_15 => exact h.elim

end Environment
end
end Assembly
end ScriptBackend
