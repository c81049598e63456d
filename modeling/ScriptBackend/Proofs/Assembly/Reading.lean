import Mathlib.Data.List.Forall2
import ScriptBackend.Assembly.Reader
import ScriptBackend.Proofs.Assembly.Lexing

/-!
Reading back what is written. Operands, directives and instructions come back
from their text as they were, mnemonics in upper case.
-/
namespace ScriptBackend.Assembly

open ScriptBackend.Text

/-! Pieces of lines -/

section Pieces

variable {text other : List Char} {tokens others : List Token} {c : Char}

/-- A text that begins with a mark stands behind any other. -/
theorem Lexes.before (h : Lexes text tokens) (hOther : Lexes (c :: other) others)
    (hMark : c ∈ endMarks := by decide) : Lexes (text ++ c :: other) (tokens ++ others) :=
  h.append hOther fun _ _ => ends_cons _ hMark

theorem Lexes.space (h : Lexes text tokens) : Lexes (' ' :: text) tokens where
  reads rest hRest := by rw [List.cons_append, tokenize_space, h.reads rest hRest]
  flat := List.forall_mem_cons.mpr ⟨rfl, h.flat⟩

/-- A mark that is a token by itself may stand in front of any text that is read. -/
theorem Lexes.mark {mark : Char} {token : Token}
    (hMark : ∀ rest, tokenize (mark :: rest) = (tokenize rest).map (prepend [token]))
    (hFlat : endsLine mark = false) (h : Lexes text tokens) :
    Lexes (mark :: text) (token :: tokens) where
  reads rest hRest := by
    rw [List.cons_append, hMark, h.reads rest hRest, map_prepend_prepend]
    rfl
  flat := List.forall_mem_cons.mpr ⟨hFlat, h.flat⟩

theorem Lexes.colon (h : Lexes text tokens) : Lexes (':' :: text) (.colon :: tokens) :=
  h.mark (fun _ => tokenize_colon) rfl

theorem Lexes.comma (h : Lexes text tokens) : Lexes (',' :: text) (.comma :: tokens) :=
  h.mark (fun _ => tokenize_comma) rfl

theorem Lexes.leftParen (h : Lexes text tokens) : Lexes ('(' :: text) (.leftParen :: tokens) :=
  h.mark (fun _ => tokenize_leftParen) rfl

theorem Lexes.rightParen (h : Lexes text tokens) : Lexes (')' :: text) (.rightParen :: tokens) :=
  h.mark (fun _ => tokenize_rightParen) rfl

end Pieces

/-! Operands -/

/-- A text that reads as exactly one name. -/
def ReadsAsName (name : String) : Prop :=
  tokenize name.toList = .ok ([.name name], none)

/-- The text of a finite number reads as the same number. -/
def ReadsBack (value : Binary32) : Prop :=
  value.isFinite = true → Binary32.ofText? value.text.toList = some value

/-- Operands that can be written: names that read as names, and finite numbers. -/
def Operand.IsWellFormed : Operand → Prop
  | .int _ | .text _ => True
  | .float value => value.isFinite = true
  | .name identifier | .sizeOf identifier | .case _ identifier => ReadsAsName identifier

def Operand.floats : Operand → List Binary32
  | .float value => [value]
  | _ => []

def Operand.tokens : Operand → List Token
  | .int value => [.int value]
  | .float value => [.float value]
  | .text value => [.text value]
  | .name identifier => [.name identifier]
  | .sizeOf label => [.name "SIZEOF", .leftParen, .name label, .rightParen]
  | .case value label => [.int value, .colon, .name label]

def operandTokens : List Operand → List Token
  | [] => []
  | [operand] => operand.tokens
  | operand :: rest => operand.tokens ++ .comma :: operandTokens rest

section Operands

variable {operand : Operand} {operands : List Operand}

def isLetter (c : Char) : Bool :=
  (0x41 ≤ c.toNat && c.toNat < 0x5B) || (0x61 ≤ c.toNat && c.toNat < 0x7B)

/-- Whether a text is a word of letters, with digits and underscores inside it
and perhaps a point in front. -/
def isPlainName : List Char → Bool
  | [] => false
  | c :: rest => (c == '.' || isLetter c) && rest.all fun d => isLetter d || isDigit d || d == '_'

theorem isAlphabetic_of_isLetter {c : Char} (h : isLetter c = true) : isAlphabetic c = true := by
  simp only [isLetter, Bool.or_eq_true, Bool.and_eq_true, decide_eq_true_eq] at h
  rcases h with ⟨hLow, hHigh⟩ | ⟨hLow, hHigh⟩
  · exact isAlphabetic_upper hLow hHigh
  · exact isAlphabetic_lower hLow hHigh

/-- A name of letters, digits and underscores is read as one token. -/
theorem isName_of_plain {name : String} (h : isPlainName name.toList = true) : IsName name := by
  unfold isPlainName at h
  split at h
  · cases h
  · next c rest hText =>
      simp only [Bool.and_eq_true, Bool.or_eq_true, beq_iff_eq, List.all_eq_true] at h
      refine ⟨c, rest, hText, ?_, fun d hd => ?_⟩
      · rcases h.1 with rfl | hLetter
        · simp [startsName]
        · simp [startsName, isAlphabetic_of_isLetter hLetter]
      · rcases h.2 d hd with (hLetter | hDigit) | rfl
        · simp [continuesName, isAlphanumeric, isAlphabetic_of_isLetter hLetter]
        · obtain ⟨hLow, hHigh⟩ := digit_range hDigit
          simp [continuesName, isAlphanumeric, numeric_digit hLow (Nat.lt_succ_of_le hHigh)]
        · simp [continuesName]

/-- Such a word reads as a name. -/
theorem readsAsName_of_plain {name : String} (h : isPlainName name.toList = true) :
    ReadsAsName name :=
  (isName_of_plain h).lexes.tokenize_eq

theorem isName_sizeOf : IsName "SIZEOF" :=
  isName_of_plain (by decide)

/-- A well-formed operand is read as the tokens that stand for it. -/
theorem Operand.lexes (h : operand.IsWellFormed)
    (hFloats : ∀ value ∈ operand.floats, ReadsBack value) :
    Lexes operand.render.toList operand.tokens := by
  cases operand with
  | int value => exact lexes_int value
  | float value => exact lexes_float (hFloats value (by simp [Operand.floats]) h)
  | text value => exact lexes_text value
  | name name => exact (isName_of_tokenize h).lexes
  | sizeOf label =>
      have hText : (Operand.sizeOf label).render.toList = "SIZEOF".toList ++ '(' ::
          (label.toList ++ [')']) := by
        simp [Operand.render]
      have hLabel := (isName_of_tokenize h).lexes
      rw [hText]
      exact isName_sizeOf.lexes.before (hLabel.before lexes_nil.rightParen).leftParen
  | case value label =>
      have hText : (Operand.case value label).render.toList =
          (signedDecimal value.toInt).toList ++ ':' :: label.toList := by
        simp [Operand.render]
      rw [hText]
      exact (lexes_int value).before (isName_of_tokenize h).lexes.colon

/-- Texts of operands with commas between them. -/
theorem lexes_separated {texts : List String}
    (h : List.Forall₂ (fun text operand => Lexes text.toList operand.tokens) texts operands) :
    Lexes (String.intercalate ", " texts).toList (operandTokens operands) := by
  rw [String.toList_intercalate]
  induction h with
  | nil => exact lexes_nil
  | @cons text operand texts operands hFirst hOthers ih =>
      cases hOthers with
      | nil => simpa [operandTokens] using hFirst
      | cons hNext hRest =>
          simpa [List.intercalate, operandTokens] using hFirst.before ih.space.comma

/-- Operands with commas between them are read as their tokens with commas
between them. -/
theorem lexes_operands (h : ∀ operand ∈ operands, operand.IsWellFormed)
    (hFloats : ∀ value ∈ operands.flatMap Operand.floats, ReadsBack value) :
    Lexes (renderOperands operands).toList (operandTokens operands) := by
  refine lexes_separated (List.forall₂_map_left_iff.mpr
    (List.forall₂_same.mpr fun operand hMem => ?_))
  exact Operand.lexes (h operand hMem) fun value hValue =>
    hFloats value (List.mem_flatMap.mpr ⟨operand, hMem, hValue⟩)

/-- An operand ends at the end of the line or at a comma. -/
theorem readOperand_tokens (operand : Operand) {rest : List Token}
    (hRest : ∀ token ∈ rest.head?, token = .comma) :
    readOperand (operand.tokens ++ rest) = .ok (operand, rest) := by
  cases rest with
  | nil => cases operand <;> simp [Operand.tokens, readOperand, sameName]
  | cons token rest =>
      obtain rfl := hRest token rfl
      cases operand <;> simp [Operand.tokens, readOperand, sameName]

/-- An operand is read first, then its comma, and then the operands behind it. -/
theorem readOperands_step {tokens after rest : List Token}
    (hRead : readOperand tokens = .ok (operand, after)) (hNext : skipComma after = .ok rest) :
    readOperands tokens = (readOperands rest).map (operand :: ·) := by
  rw [readOperands]
  split
  · next hEmpty =>
      rw [List.isEmpty_iff.mp hEmpty] at hRead
      cases hRead
  · split
    · next hFault => cases hFault.symm.trans hRead
    · next found left hFound =>
        cases hFound.symm.trans hRead
        split
        · next hFault => cases hFault.symm.trans hNext
        · next others hOthers =>
            cases hOthers.symm.trans hNext
            rfl

theorem operandTokens_ne_nil (operand : Operand) (rest : List Operand) :
    operandTokens (operand :: rest) ≠ [] := by
  cases rest <;> cases operand <;> simp [operandTokens, Operand.tokens]

/-- The tokens of operands are read as these operands again, whatever they are. -/
theorem readOperands_tokens (operands : List Operand) :
    readOperands (operandTokens operands) = .ok operands := by
  induction operands with
  | nil =>
      rw [operandTokens, readOperands]
      rfl
  | cons operand rest ih =>
      cases rest with
      | nil =>
          have hRead : readOperand (operand.tokens ++ []) = .ok (operand, []) :=
            readOperand_tokens operand (by simp)
          rw [List.append_nil] at hRead
          rw [operandTokens, readOperands_step hRead rfl, readOperands]
          rfl
      | cons next others =>
          have hRead : readOperand (operand.tokens ++ .comma :: operandTokens (next :: others)) =
              .ok (operand, .comma :: operandTokens (next :: others)) :=
                readOperand_tokens operand (by simp)
          have hNext : skipComma (.comma :: operandTokens (next :: others)) =
              .ok (operandTokens (next :: others)) := by
            obtain ⟨token, tokens, hTokens⟩ :=
              List.exists_cons_of_ne_nil (operandTokens_ne_nil next others)
            rw [hTokens]
            rfl
          rw [operandTokens, readOperands_step hRead hNext, ih]
          · rfl
          · simp

theorem readSingle_tokens (directive : String) (operand : Operand) :
    readSingle directive operand.tokens = .ok operand := by
  have hRead : readOperands operand.tokens = .ok [operand] := readOperands_tokens [operand]
  rw [readSingle, hRead]
  rfl

theorem readInteger_int (directive : String) (value : Int64) :
    readInteger directive [.int value] = .ok value := by
  have hRead : readSingle directive [.int value] = .ok (.int value) :=
    readSingle_tokens directive (.int value)
  rw [readInteger, hRead]
  rfl

end Operands

/-! Directives -/

def Directive.name : Directive → String
  | .scriptName _ => ".script_name"
  | .scriptHash _ => ".script_hash"
  | .segment .code => ".code"
  | .segment .statics => ".static"
  | .segment .arguments => ".arg"
  | .segment (.globals _) => ".global"
  | .segment .strings => ".string"
  | .segment .natives => ".include"
  | .ints _ => ".int"
  | .floats _ => ".float"
  | .text _ => ".str"
  | .zero _ => ".zero"
  | .const _ _ => ".const"
  | .native _ => ".native"

def Directive.tokens : Directive → List Token
  | .scriptName name => [.name name]
  | .scriptHash hash => [.int (Int64.ofNat hash.toNat)]
  | .segment (.globals block) => [.int (Int64.ofNat block.toNat)]
  | .segment _ => []
  | .ints operands | .floats operands => operandTokens operands
  | .text value => [.text value]
  | .zero count => [.int (Int64.ofNat count.toNat)]
  | .const name value => .name name :: value.tokens
  | .native hash => [.int (Int64.ofNat hash.toNat)]

/-- Directives that can be written. -/
def Directive.IsWellFormed : Directive → Prop
  | .scriptName name => ReadsAsName name
  | .ints operands | .floats operands => ∀ operand ∈ operands, operand.IsWellFormed
  | .const name value => ReadsAsName name ∧ value.IsWellFormed
  | _ => True

def Directive.floatOperands : Directive → List Binary32
  | .ints operands | .floats operands => operands.flatMap Operand.floats
  | .const _ value => value.floats
  | _ => []

section Directives

variable {directive : Directive}

def directiveNames : List String :=
  [".script_name", ".script_hash", ".code", ".static", ".arg", ".global", ".string",
    ".include", ".int", ".float", ".str", ".zero", ".const", ".native"]

theorem Directive.name_mem (directive : Directive) : directive.name ∈ directiveNames := by
  cases directive with
  | segment segment => cases segment <;> simp [Directive.name, directiveNames]
  | _ => simp [Directive.name, directiveNames]

theorem Directive.isName_name (directive : Directive) : IsName directive.name := by
  have hPlain : ∀ name ∈ directiveNames, isPlainName name.toList = true := by decide
  exact isName_of_plain (hPlain _ directive.name_mem)

/-- A well-formed directive is read as its name and the tokens of what follows. -/
theorem Directive.lexes (h : directive.IsWellFormed)
    (hFloats : ∀ value ∈ directive.floatOperands, ReadsBack value) :
    Lexes directive.render.toList (.name directive.name :: directive.tokens) := by
  -- most directives are their name, a blank and what follows
  have hBehind : ∀ {text : List Char} {tokens : List Token}, Lexes text tokens →
      Lexes (directive.name.toList ++ ' ' :: text) (.name directive.name :: tokens) :=
    fun hText => directive.isName_name.lexes.before hText.space
  have hAlone : Lexes directive.name.toList [.name directive.name] := directive.isName_name.lexes
  cases directive with
  | segment segment =>
      cases segment with
      | globals block =>
          have hBlock := block.toNat_lt
          simpa [Directive.render, Segment.render, Directive.name, Directive.tokens] using
            hBehind (lexes_decimal (Nat.lt_trans hBlock (by decide)))
      | _ => exact hAlone
  | scriptName name =>
      simpa [Directive.render, Directive.name, Directive.tokens]
        using hBehind (isName_of_tokenize h).lexes
  | scriptHash hash =>
      have hHash : hash.toNat < 0x10000000000000000 := Nat.lt_trans hash.toNat_lt (by decide)
      simpa [Directive.render, Directive.name, Directive.tokens] using hBehind (lexes_hex hHash)
  | ints operands =>
      simpa [Directive.render, Directive.name, Directive.tokens]
        using hBehind (lexes_operands h hFloats)
  | floats operands =>
      simpa [Directive.render, Directive.name, Directive.tokens]
        using hBehind (lexes_operands h hFloats)
  | text value =>
      simpa [Directive.render, Directive.name, Directive.tokens] using hBehind (lexes_text value)
  | zero count =>
      have hCount := lexes_decimal (Nat.lt_trans count.toNat_lt (by decide))
      simpa [Directive.render, Directive.name, Directive.tokens] using hBehind hCount
  | const name value =>
      have hValue := (isName_of_tokenize h.1).lexes.before (Operand.lexes h.2 hFloats).space
      simpa [Directive.render, Directive.name, Directive.tokens] using hBehind hValue
  | native hash =>
      simpa [Directive.render, Directive.name, Directive.tokens]
        using hBehind (lexes_hex hash.toNat_lt)

/-- Numbers up to a bound are between zero and that bound also with 64 bits. -/
theorem between_ofNat {n bound : Nat} (h : n ≤ bound) (hBound : bound < 0x8000000000000000) :
    (0 ≤ Int64.ofNat n && Int64.ofNat n ≤ Int64.ofNat bound) = true := by
  have hInt : (Int64.ofNat n).toInt = n := Int64.toInt_ofNat_of_lt (by omega)
  have hBoundInt : (Int64.ofNat bound).toInt = bound := Int64.toInt_ofNat_of_lt hBound
  simp [Int64.le_iff_toInt_le, hInt, hBoundInt, h]

theorem Directive.lowerCased_name (directive : Directive) :
    lowerCased directive.name = directive.name := by
  have hLower : ∀ name ∈ directiveNames, name.toList.map asciiLower = name.toList := by decide
  rw [← String.toList_inj, lowerCased, String.toList_map, hLower _ directive.name_mem]

/-- A directive is read from its name and the tokens behind it. -/
theorem readDirective?_tokens (directive : Directive) :
    readDirective? (lowerCased directive.name) directive.name directive.tokens =
      some (.ok directive) := by
  rw [directive.lowerCased_name]
  cases directive with
  | segment segment =>
      cases segment with
      | globals block =>
          have hBlock := block.toNat_lt
          have hRange := between_ofNat (Nat.le_of_lt_succ hBlock) (by decide)
          have hClamp : (Int64.ofNat block.toNat).toNatClampNeg = block.toNat :=
            Int64.toNatClampNeg_ofNat_of_lt (by omega)
          rw [Directive.name, readDirective?, Directive.tokens, readInteger_int]
          refine congrArg some ((if_pos hRange).trans ?_)
          rw [hClamp, UInt8.ofNat_toNat]
          rfl
      | _ => rfl
  | scriptName name =>
      have hRead : readSingle ".script_name" [.name name] = .ok (.name name) :=
        readSingle_tokens _ (.name name)
      rw [Directive.name, readDirective?, Directive.tokens, hRead]
      rfl
  | scriptHash hash =>
      have hHash : (Int64.ofNat hash.toNat).toInt32.toUInt32 = hash := by
        simp
      rw [Directive.name, readDirective?, Directive.tokens, readInteger_int]
      exact congrArg (fun hash => some (Except.ok (Directive.scriptHash hash))) hHash
  | ints operands =>
      rw [Directive.name, readDirective?, Directive.tokens, readOperands_tokens]
      rfl
  | floats operands =>
      rw [Directive.name, readDirective?, Directive.tokens, readOperands_tokens]
      rfl
  | text value =>
      have hRead : readSingle ".str" [.text value] = .ok (.text value) :=
        readSingle_tokens _ (.text value)
      rw [Directive.name, readDirective?, Directive.tokens, hRead]
      rfl
  | zero count =>
      have hCount := count.toNat_lt
      have hRange := between_ofNat (Nat.le_of_lt_succ hCount) (by decide)
      have hClamp : (Int64.ofNat count.toNat).toNatClampNeg = count.toNat :=
        Int64.toNatClampNeg_ofNat_of_lt (by omega)
      rw [Directive.name, readDirective?, Directive.tokens, readInteger_int]
      refine congrArg some ((if_pos hRange).trans ?_)
      rw [hClamp, UInt32.ofNat_toNat]
      rfl
  | const name value =>
      have hRead : readSingle ".const" value.tokens = .ok value := readSingle_tokens _ value
      show some (readSingle ".const" value.tokens >>= fun value =>
        Except.ok (Directive.const name value)) = _
      rw [hRead]
      rfl
  | native hash =>
      have hHash : (Int64.ofNat hash.toNat).toUInt64 = hash := by
        simp
      rw [Directive.name, readDirective?, Directive.tokens, readInteger_int]
      exact congrArg (fun hash => some (Except.ok (Directive.native hash))) hHash

end Directives
end ScriptBackend.Assembly
