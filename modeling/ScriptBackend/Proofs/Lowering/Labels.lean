import ScriptBackend.Lowering.Block

/-!
The labels that lowering makes up. The number that a label was given can be read
back from its name, so labels of different numbers are different; labels of the
program are told apart by their beginning.
-/
namespace ScriptBackend.Lowering

open ScriptBackend.Assembly

/-- The number that the first digits of a label denote. -/
def labelNumber (label : String) : Nat :=
  Nat.ofDigitChars 10 ((label.toList.dropWhile fun c => !c.isDigit).takeWhile Char.isDigit) 0

/-- Whether a label begins like those of the program. -/
def isUserLabel (label : String) : Bool :=
  label.toList.take 2 == ['.', 'l']

/-- A label that lowering made up for a number. -/
structure Marked (number : Nat) (label : String) : Prop where
  number : labelNumber label = number
  made : isUserLabel label = false

/-- A label made of a stem without digits, a number, and a tail that no digit
begins. -/
theorem labelNumber_numbered {stem tail : String} {number : Nat}
    (hStem : ∀ c ∈ stem.toList, c.isDigit = false)
    (hTail : ∀ c ∈ tail.toList.head?, c.isDigit = false) :
    labelNumber (numbered stem number ++ tail) = number := by
  have hDigits : ∀ c ∈ Nat.toDigits 10 number, c.isDigit = true := fun c hc =>
    Nat.isDigit_of_mem_toDigits (by decide) (by decide) hc
  have hName : (numbered stem number ++ tail).toList =
      stem.toList ++ (Nat.toDigits 10 number ++ tail.toList) := by
    simp [numbered, Text.decimal]
  have hRest : (Nat.toDigits 10 number ++ tail.toList).dropWhile (fun c => !c.isDigit) =
      Nat.toDigits 10 number ++ tail.toList := by
    cases hFirst : Nat.toDigits 10 number with
    | nil => exact absurd hFirst Nat.toDigits_ne_nil
    | cons c others =>
        have hc := hDigits c (by simp [hFirst])
        simp [hc]
  have hEnd : tail.toList.takeWhile Char.isDigit = [] := by
    cases hFirst : tail.toList with
    | nil => rfl
    | cons c others =>
        have hc := hTail c (by simp [hFirst])
        simp [hc]
  rw [labelNumber, hName, List.dropWhile_append_of_pos (fun c hc => by simp [hStem c hc]), hRest,
    List.takeWhile_append_of_pos hDigits, hEnd, List.append_nil, Nat.ofDigitChars_ten_toDigits]

theorem decimal_injective {m n : Nat} (h : Text.decimal m = Text.decimal n) : m = n := by
  have hDigits : Nat.toDigits 10 m = Nat.toDigits 10 n := by
    simpa [Text.decimal] using congrArg String.toList h
  rw [← @Nat.ofDigitChars_ten_toDigits m, hDigits, Nat.ofDigitChars_ten_toDigits]

/-- Whether labels of constructs may begin so: without a digit, and not like
labels of the program. -/
def isStem (stem : String) : Bool :=
  stem.toList.all (fun c => !c.isDigit) && Nat.ble 2 stem.toList.length &&
    stem.toList.take 2 != ['.', 'l']

/-- A label that is a stem, a number and a tail without a leading digit carries
that number. -/
theorem marked_of_parts {stem tail : String} (number : Nat) (hStem : isStem stem = true)
    (hTail : ∀ c ∈ tail.toList.head?, c.isDigit = false) :
    Marked number (numbered stem number ++ tail) := by
  simp only [isStem, Bool.and_eq_true, List.all_eq_true, Nat.ble_eq] at hStem
  obtain ⟨⟨hPlain, hLength⟩, hMade⟩ := hStem
  refine ⟨labelNumber_numbered (fun c hc => by simpa using hPlain c hc) hTail, ?_⟩
  have hTake : (numbered stem number ++ tail).toList.take 2 = stem.toList.take 2 := by
    rw [numbered, String.toList_append, String.toList_append, List.append_assoc,
      List.take_append_of_le_length hLength]
  rw [isUserLabel, hTake]
  simpa using hMade

theorem marked_numbered {stem : String} (number : Nat) (hStem : isStem stem = true) :
    Marked number (numbered stem number) := by
  have h := @marked_of_parts stem "" number hStem (by simp)
  rwa [String.append_empty] at h

theorem marked_chainEnd (op : BinaryOp) (number : Nat) : Marked number (chainEnd op number) := by
  unfold chainEnd
  split <;> exact marked_numbered number rfl

/-- The label before an arm of a branch other than the first. -/
def armLabel (number position : Nat) : String :=
  numbered (numbered ".elif_" number ++ "_") position

theorem marked_armLabel (number position : Nat) : Marked number (armLabel number position) := by
  have h := @marked_of_parts ".elif_" ("_" ++ Text.decimal position) number rfl (by simp)
  rwa [← String.append_assoc] at h

theorem marked_caseLabel (number position : Nat) (value : Option Int32) :
    Marked number (caseLabel number position value) := by
  cases value with
  | none => exact @marked_of_parts ".switch_" "_default" number rfl (by simp)
  | some found =>
      have h := @marked_of_parts ".switch_" ("_case_" ++ Text.decimal position) number rfl
        (by simp)
      rwa [← String.append_assoc] at h

/-- Labels of one number with different stems. -/
theorem numbered_ne {stem other : String} (number : Nat) (h : stem ≠ other) :
    numbered stem number ≠ numbered other number := by
  intro hSame
  apply h
  apply String.toList_inj.mp
  have hChars := congrArg String.toList hSame
  simpa [numbered] using hChars

/-- Arms of one branch have different labels. -/
theorem armLabel_injective {number first second : Nat}
    (h : armLabel number first = armLabel number second) : first = second := by
  apply decimal_injective
  simpa [armLabel, numbered] using h

/-- Cases of one selection share a label only if both are its default, or they
are the same. -/
theorem caseLabel_ne {number first second : Nat} {value other : Option Int32}
    (hValue : value ≠ none ∨ other ≠ none) (hPosition : first ≠ second) :
    caseLabel number first value ≠ caseLabel number second other := by
  intro h
  cases value with
  | none =>
      cases other with
      | none => simp at hValue
      | some _ =>
          have hChars := congrArg String.toList h
          simp [caseLabel, numbered] at hChars
  | some _ =>
      cases other with
      | none =>
          have hChars := congrArg String.toList h
          simp [caseLabel, numbered] at hChars
      | some _ =>
          apply hPosition
          apply decimal_injective
          simpa [caseLabel, numbered] using h

/-- The label behind a branch is none of its arms. -/
theorem endif_ne_armLabel (number position : Nat) :
    numbered ".endif_" number ≠ armLabel number position := by
  intro h
  have hChars := congrArg String.toList h
  simp [armLabel, numbered] at hChars

theorem else_ne_armLabel (number position : Nat) :
    numbered ".else_" number ≠ armLabel number position := by
  intro h
  have hChars := congrArg String.toList h
  simp [armLabel, numbered] at hChars

/-- The label behind a selection is none of its cases. -/
theorem endswitch_ne_caseLabel (number position : Nat) (value : Option Int32) :
    numbered ".endswitch_" number ≠ caseLabel number position value := by
  intro h
  have hChars := congrArg String.toList h
  cases value <;> simp [caseLabel, numbered] at hChars

/-- A label that lowering may define while it takes the numbers from one up to
another: one made up for such a number, or a label of the program. -/
def Owned (low high : Nat) (label : String) : Prop :=
  isUserLabel label = true ∨ low ≤ labelNumber label ∧ labelNumber label < high

/-- What is owned within a range of numbers is owned within a wider one. -/
theorem Owned.mono {low high lower higher : Nat} {label : String} (h : Owned low high label)
    (hLow : lower ≤ low) (hHigh : high ≤ higher) : Owned lower higher label := by
  rcases h with hUser | ⟨hLower, hUpper⟩
  · exact .inl hUser
  · exact .inr ⟨Nat.le_trans hLow hLower, Nat.lt_of_lt_of_le hUpper hHigh⟩

theorem Marked.owned {number low high : Nat} {label : String} (h : Marked number label)
    (hLow : low ≤ number) (hHigh : number < high) : Owned low high label :=
  .inr ⟨h.number ▸ hLow, h.number ▸ hHigh⟩

/-- A label of a number outside a range is none of those that the range owns. -/
theorem Marked.ne_of_owned {number low high : Nat} {label other : String} (h : Marked number label)
    (hOwned : Owned low high other) (hOutside : number < low ∨ high ≤ number) : label ≠ other := by
  rintro rfl
  rcases hOwned with hUser | hNumber
  · rw [h.made] at hUser
    cases hUser
  · rw [h.number] at hNumber
    omega

/-- A label of the program carries no number, so that no range is too small for
it. -/
theorem owned_userLabel (low high : Nat) (name : String) : Owned low high (userLabel name) := by
  left
  simp [isUserLabel, userLabel]

/-! The labels of code -/

/-- The labels that code defines. -/
def definedLabels (code : Code) : List String :=
  code.filterMap Statement.label

@[simp] theorem definedLabels_nil : definedLabels [] = [] :=
  rfl

@[simp] theorem definedLabels_append (first second : Code) :
    definedLabels (first ++ second) = definedLabels first ++ definedLabels second :=
  List.filterMap_append

theorem definedLabels_cons (statement : Statement) (rest : Code) :
    definedLabels (statement :: rest) = statement.label.toList ++ definedLabels rest := by
  cases h : statement.label <;> simp [definedLabels, h]

@[simp] theorem definedLabels_instruction (mnemonic : String)
    (operands : List Operand) (rest : Code) :
    definedLabels (.ofInstruction mnemonic operands :: rest) = definedLabels rest :=
  definedLabels_cons _ rest

@[simp] theorem definedLabels_commented (remark : String) (statement : Statement) (rest : Code) :
    definedLabels (commented remark statement :: rest) = definedLabels (statement :: rest) := by
  rw [definedLabels_cons, definedLabels_cons]
  rfl

@[simp] theorem definedLabels_ofLabel (label : String) (rest : Code) :
    definedLabels (.ofLabel label :: rest) = label :: definedLabels rest :=
  definedLabels_cons _ rest

/-- Code of unlabelled statements defines no labels. -/
theorem definedLabels_eq_nil {code : Code} (h : ∀ statement ∈ code, statement.label = none) :
    definedLabels code = [] :=
  List.filterMap_eq_nil_iff.mpr h

end ScriptBackend.Lowering
