import ScriptBackend.Proofs.Machine.Statements

/-!
The machine whose operand stack lies in memory. Variables and the stack are
words of one array, and a push overwrites the first free word behind the stack,
whether or not an address points to it. Code that accesses no words from some
base on acts on the array as on a stack that begins at the base and a memory
apart from it.
-/
namespace ScriptBackend

open Assembly

/-- Words with addresses, the first of which are in use: the last word in use is
on top of the operand stack, and those behind it are free. -/
structure WordArray where
  words : Memory
  top : Nat

namespace WordArray

def push (array : WordArray) (word : Word) : WordArray :=
  ⟨written array.words array.top [word], array.top + 1⟩

/-- The word on top, and the array in which it is free. It stays where it is
until it is overwritten. -/
def pop? : WordArray → Option (Word × WordArray)
  | ⟨_, 0⟩ => none
  | ⟨words, top + 1⟩ => some (words top, ⟨words, top⟩)

/-- The word on top and the one below it, and the array in which both are free. -/
def popTwo? (array : WordArray) : Option (Word × Word × WordArray) := do
  let (first, below) ← array.pop?
  let (second, rest) ← below.pop?
  return (first, second, rest)

def store (array : WordArray) (position : Nat) (word : Word) : WordArray :=
  { array with words := written array.words position [word] }

/-- Pushes as many words as counted from a position on. Each is loaded after
those in front of it are pushed. -/
def pushFrom (position : Nat) : Nat → WordArray → WordArray
  | 0, array => array
  | count + 1, array => pushFrom (position + 1) count (array.push (array.words position))

/-- Pops as many words as counted to a position, the last one first. -/
def popTo? (position : Nat) : Nat → WordArray → Option WordArray
  | 0, array => some array
  | count + 1, array => do
    let (word, rest) ← array.pop?
    popTo? position count (rest.store (position + count) word)

/-- An array holds cells: the words of the stack lie next to each other from a
base on, and the memory is what lies below the base. Nothing is said of free
words. -/
structure Holds (base : Nat) (cells : Cells) (array : WordArray) : Prop where
  top_eq : array.top = base + cells.stack.length
  below : ∀ i < base, array.words i = cells.memory i
  stacked : wordsAt array.words base cells.stack.length = cells.stack.reverse

/-- Every array holds an empty stack behind all words in use. -/
theorem holds_self (array : WordArray) : Holds array.top ⟨[], array.words⟩ array :=
  ⟨rfl, fun _ _ => rfl, rfl⟩

namespace Holds

variable {base position : Nat} {stack : List Word} {memory : Memory}
  {array : WordArray} {word : Word}

theorem push (h : Holds base ⟨stack, memory⟩ array) (word : Word) :
    Holds base ⟨word :: stack, memory⟩ (array.push word) where
  top_eq := congrArg (· + 1) h.top_eq
  below := fun i hBelow => by
    have hTop : i < array.top := by
      rw [h.top_eq]
      exact Nat.lt_add_right _ hBelow
    exact (written_of_lt hTop _).trans (h.below i hBelow)
  stacked := by
    have hTop : array.top = base + stack.length := h.top_eq
    have hStacked : wordsAt array.words base stack.length = stack.reverse := h.stacked
    have hSame : wordsAt (array.push word).words base stack.length = stack.reverse :=
      (wordsAt_congr fun i _ hInside => written_of_lt (hTop ▸ hInside) _).trans hStacked
    have hLast : (array.push word).words (base + stack.length) = word := by
      rw [← hTop]
      exact written_self word []
    rw [List.length_cons, wordsAt_concat, hSame, hLast, List.reverse_cons]

theorem pushAll (h : Holds base ⟨stack, memory⟩ array) (words : List Word) :
    Holds base ⟨words.reverse ++ stack, memory⟩ (words.foldl WordArray.push array) := by
  induction words generalizing stack array with
  | nil => exact h
  | cons word rest ih => simpa using ih (h.push word)

theorem pop (h : Holds base ⟨word :: stack, memory⟩ array) :
    ∃ rest, array.pop? = some (word, rest) ∧ Holds base ⟨stack, memory⟩ rest := by
  obtain ⟨words, top⟩ := array
  obtain ⟨hTop, hBelow, hStacked⟩ := h
  obtain rfl : top = base + stack.length + 1 := hTop
  rw [List.length_cons, wordsAt_concat, List.reverse_cons] at hStacked
  obtain ⟨hRest, hLast⟩ := List.append_inj hStacked (by simp)
  have hWord : words (base + stack.length) = word := List.singleton_inj.mp hLast
  exact ⟨⟨words, base + stack.length⟩, by rw [pop?, hWord], rfl, hBelow, hRest⟩

theorem popTwo {second : Word} (h : Holds base ⟨word :: second :: stack, memory⟩ array) :
    ∃ rest, array.popTwo? = some (word, second, rest) ∧ Holds base ⟨stack, memory⟩ rest := by
  obtain ⟨below, hPop, hBelow⟩ := h.pop
  obtain ⟨rest, hPopped, hRest⟩ := hBelow.pop
  refine ⟨rest, ?_, hRest⟩
  simp only [popTwo?, hPop, Option.bind_eq_bind, Option.bind_some, hPopped, Option.pure_def]

theorem store (h : Holds base ⟨stack, memory⟩ array) (hPosition : position < base) (word : Word) :
    Holds base ⟨stack, written memory position [word]⟩ (array.store position word) where
  top_eq := h.top_eq
  below := fun i hBelow => by
    have hSame := h.below i hBelow
    simp only [WordArray.store, written, hSame]
  stacked := by
    refine (wordsAt_congr fun i hInside _ => ?_).trans h.stacked
    exact written_of_ge (Nat.lt_of_lt_of_le hPosition hInside)

/-- Words below the base are pushed as they are. -/
theorem pushFrom (h : Holds base ⟨stack, memory⟩ array) {count : Nat}
    (hBelow : ∀ i, position ≤ i → i < position + count → i < base) :
    Holds base ⟨(wordsAt memory position count).reverse ++ stack, memory⟩
      (array.pushFrom position count) := by
  induction count generalizing position stack array with
  | zero => exact h
  | succ count ih =>
      have hFirst := h.below position (hBelow position (Nat.le_refl _) (by omega))
      have hPushed := h.push (array.words position)
      rw [hFirst] at hPushed
      rw [wordsAt_cons, List.reverse_cons, List.append_assoc, WordArray.pushFrom, hFirst]
      exact ih hPushed fun i hFrom hTo => hBelow i (by omega) (by omega)

/-- Words go to places below the base in their order, though the last one is
popped first. -/
theorem popTo {words : List Word} (h : Holds base ⟨words.reverse ++ stack, memory⟩ array)
    (hBelow : ∀ i, position ≤ i → i < position + words.length → i < base) :
    ∃ last, array.popTo? position words.length = some last ∧
      Holds base ⟨stack, written memory position words⟩ last := by
  induction words using List.reverseRecOn generalizing memory array with
  | nil =>
      rw [written_nil]
      exact ⟨array, rfl, h⟩
  | append_singleton words word ih =>
      rw [List.length_append, List.length_singleton] at hBelow ⊢
      rw [List.reverse_append, List.reverse_singleton, List.singleton_append, List.cons_append] at h
      obtain ⟨rest, hPop, hRest⟩ := h.pop
      have hStored := hRest.store (hBelow (position + words.length) (by omega) (by omega)) word
      obtain ⟨last, hLast, hHolds⟩ := ih hStored fun i hFrom hTo => hBelow i hFrom (by omega)
      rw [written_concat] at hHolds
      refine ⟨last, ?_, hHolds⟩
      rw [popTo?, hPop]
      exact hLast

end Holds

end WordArray

/-! Motions -/

/-- The address that a location names, and the array without the words that name
it. -/
def Location.inArray? (bases : Bases) (array : WordArray) : Location → Option (Word × WordArray)
  | .frame index => some (addressOf (bases.frame + index), array)
  | .statics index => some (addressOf (bases.statics + index), array)
  | .globals id => some (addressOf (bases.globals id), array)
  | .held => array.pop?
  | .behind words => do
    let (address, rest) ← array.pop?
    return (address.moved words, rest)
  | .counted => do
    let (words, address, rest) ← array.popTwo?
    return (address.moved words.toInt, rest)
  | .item size => do
    let (start, index, rest) ← array.popTwo?
    return (start.item index size, rest)

def Access.inArray? (address : Word) (array : WordArray) : Access → Option WordArray
  | .locate => some (array.push address)
  | .load => some (array.push (array.words address.position))
  | .store => do
    let (word, rest) ← array.pop?
    return rest.store address.position word

/-- What a motion leaves. Words that are loaded or stored together are so one
after the other. -/
def Motion.inArray? (bases : Bases) (array : WordArray) : Motion → Option WordArray
  | .push words => some (words.foldl WordArray.push array)
  | .copy => do
    let (word, rest) ← array.pop?
    return (rest.push word).push word
  | .drop => do
    let (_, rest) ← array.pop?
    return rest
  | .access location kind => do
    let (address, rest) ← location.inArray? bases array
    kind.inArray? address rest
  | .storeKept => do
    let (word, address, rest) ← array.popTwo?
    return (rest.store address.position word).push address
  | .loadMany => do
    let (address, count, rest) ← array.popTwo?
    return rest.pushFrom address.position count.bits.toNat
  | .storeMany => do
    let (address, count, rest) ← array.popTwo?
    rest.popTo? address.position count.bits.toNat
  | .change operation => do
    let (word, rest) ← array.pop?
    return rest.push (.ofInt (operation word.toInt).toInt)
  | .combine operation => do
    let (right, left, rest) ← array.popTwo?
    return rest.push (.ofInt (operation left.toInt right.toInt).toInt)

section Motions

variable {bases : Bases} {base : Nat} {cells next : Cells}
  {stack rest : List Word} {memory : Memory} {array : WordArray} {word : Word}

/-- A location is named by the same words of the stack. -/
theorem Location.exists_inArray {location : Location}
    (h : location.address? bases stack = some (word, rest))
    (hHolds : array.Holds base ⟨stack, memory⟩) :
    ∃ last, location.inArray? bases array = some (word, last) ∧ last.Holds base ⟨rest, memory⟩ := by
  cases location with
  | frame | statics | globals =>
      cases h
      exact ⟨array, rfl, hHolds⟩
  | held =>
      cases stack with
      | nil => cases h
      | cons address below =>
          cases h
          exact hHolds.pop
  | behind words =>
      cases stack with
      | nil => cases h
      | cons address below =>
          cases h
          obtain ⟨last, hPop, hLast⟩ := hHolds.pop
          exact ⟨last, by rw [inArray?, hPop]; rfl, hLast⟩
  | counted | item =>
      match stack, h with
      | first :: second :: below, h =>
          cases h
          obtain ⟨last, hPops, hLast⟩ := hHolds.popTwo
          exact ⟨last, by rw [inArray?, hPops]; rfl, hLast⟩

/-- An access to a word below the base acts on the memory alone. -/
theorem Access.exists_inArray {kind : Access} (h : kind.after? word ⟨stack, memory⟩ = some next)
    (hHolds : array.Holds base ⟨stack, memory⟩) (hBelow : kind ≠ .locate → word.position < base) :
    ∃ last, kind.inArray? word array = some last ∧ last.Holds base next := by
  cases kind with
  | locate =>
      cases h
      exact ⟨_, rfl, hHolds.push word⟩
  | load =>
      cases h
      have hLoaded := hHolds.push (array.words word.position)
      rw [hHolds.below _ (hBelow nofun)] at hLoaded
      exact ⟨_, by rw [inArray?, hHolds.below _ (hBelow nofun)], hLoaded⟩
  | store =>
      cases stack with
      | nil => cases h
      | cons stored below =>
          cases h
          obtain ⟨last, hPop, hLast⟩ := hHolds.pop
          exact ⟨_, by rw [inArray?, hPop]; rfl, hLast.store (hBelow nofun) stored⟩

/-- A motion that accesses no words from the base on acts on the array as on the
stack and the memory. -/
theorem Motion.exists_inArray {motion : Motion} (h : motion.after? bases cells = some next)
    (hHolds : array.Holds base cells) (hBelow : ∀ i, motion.Accesses bases cells i → i < base) :
    ∃ last, motion.inArray? bases array = some last ∧ last.Holds base next := by
  obtain ⟨stack, memory⟩ := cells
  cases motion with
  | push words =>
      cases h
      exact ⟨_, rfl, hHolds.pushAll words⟩
  | access location kind =>
      obtain ⟨⟨address, rest⟩, hAddress, hKind⟩ := Option.bind_eq_some_iff.mp h
      obtain ⟨middle, hNamed, hMiddle⟩ := Location.exists_inArray hAddress hHolds
      obtain ⟨last, hAccessed, hLast⟩ := Access.exists_inArray hKind hMiddle fun hLocate =>
        hBelow _ ⟨hLocate, address, rest, hAddress, rfl⟩
      exact ⟨last, Option.bind_eq_some_iff.mpr ⟨_, hNamed, hAccessed⟩, hLast⟩
  | copy =>
      match stack, h with
      | word :: rest, h =>
          cases h
          obtain ⟨last, hPop, hLast⟩ := hHolds.pop
          refine ⟨_, ?_, (hLast.push word).push word⟩
          rw [inArray?, hPop]
          rfl
  | drop =>
      match stack, h with
      | word :: rest, h =>
          cases h
          obtain ⟨last, hPop, hLast⟩ := hHolds.pop
          refine ⟨last, ?_, hLast⟩
          rw [inArray?, hPop]
          rfl
  | change operation =>
      match stack, h with
      | word :: rest, h =>
          cases h
          obtain ⟨last, hPop, hLast⟩ := hHolds.pop
          refine ⟨_, ?_, hLast.push _⟩
          rw [inArray?, hPop]
          rfl
  | combine operation =>
      match stack, h with
      | right :: left :: rest, h =>
          cases h
          obtain ⟨last, hPops, hLast⟩ := hHolds.popTwo
          refine ⟨_, ?_, hLast.push _⟩
          rw [inArray?, hPops]
          rfl
  | storeKept =>
      match stack, h with
      | word :: address :: rest, h =>
          cases h
          obtain ⟨last, hPops, hLast⟩ := hHolds.popTwo
          refine ⟨_, ?_, (hLast.store (hBelow _ rfl) word).push address⟩
          rw [inArray?, hPops]
          rfl
  | loadMany =>
      match stack, h with
      | address :: count :: rest, h =>
          cases h
          obtain ⟨last, hPops, hLast⟩ := hHolds.popTwo
          refine ⟨_, ?_, hLast.pushFrom fun i hFrom hTo => hBelow i ⟨hFrom, hTo⟩⟩
          rw [inArray?, hPops]
          rfl
  | storeMany =>
      match stack, h with
      | address :: count :: rest, h =>
          obtain ⟨hEnough, h⟩ := Option.ite_none_right_eq_some.mp h
          cases h
          obtain ⟨last, hPops, hLast⟩ := hHolds.popTwo
          have hCount : (rest.take count.bits.toNat).reverse.length = count.bits.toNat := by
            rw [List.length_reverse, List.length_take_of_le hEnough]
          rw [← List.take_append_drop count.bits.toNat rest,
            ← List.reverse_reverse (rest.take count.bits.toNat)] at hLast
          obtain ⟨final, hPopped, hFinal⟩ :=
            hLast.popTo fun i hFrom hTo => hBelow i ⟨hFrom, hCount ▸ hTo⟩
          rw [hCount] at hPopped
          refine ⟨final, ?_, hFinal⟩
          rw [inArray?, hPops]
          exact hPopped

end Motions

namespace Lowering

/-- A machine with one array of words: where variables are, what the addresses
of functions and the offsets of texts are, and what instructions do that are no
motions. -/
structure ArrayMachine where
  bases : Bases
  names : String → Word
  texts : String → Word
  others : Statement → WordArray → Option WordArray

/-- An array on the way through code, and the label up to which statements are
passed over. -/
structure ArrayPassage where
  array : WordArray
  goal : Option String

namespace ArrayMachine

/-- The machine that has the same motions on a stack apart from memory. -/
def motions (machine : ArrayMachine) : Machine :=
  ⟨machine.bases, machine.names, machine.texts, fun _ _ => none⟩

/-- What a statement does where control reaches it. -/
def execute? (machine : ArrayMachine) (array : WordArray) (statement : Statement) :
    Option ArrayPassage :=
  match machine.motions.motion? statement.content with
  | some motion => (motion.inArray? machine.bases array).map (⟨·, none⟩)
  | none =>
    match statement.content with
    | .empty => some ⟨array, none⟩
    | .instruction "J" [.name label] => some ⟨array, some label⟩
    | .instruction "JZ" [.name label] => do
      let (word, rest) ← array.pop?
      return ⟨rest, if word = .zero then some label else none⟩
    | _ => (machine.others statement array).map (⟨·, none⟩)

def pass? (machine : ArrayMachine) (passage : ArrayPassage) (statement : Statement) :
    Option ArrayPassage :=
  if passage.goal = none ∨ passage.goal = statement.label then
    machine.execute? passage.array statement
  else some passage

/-- Goes through code from its beginning to its end. -/
def run? (machine : ArrayMachine) (code : Code) (array : WordArray) : Option WordArray := do
  match ← code.foldlM machine.pass? ⟨array, none⟩ with
  | ⟨last, none⟩ => some last
  | ⟨_, some _⟩ => none

/-- Code leads from an array to another one. -/
def Runs (machine : ArrayMachine) (code : Code) (array last : WordArray) : Prop :=
  machine.run? code array = some last

/-- From every array that holds cells, code leads to one that holds others. -/
def Drives (machine : ArrayMachine) (base : Nat) (code : Code) (cells next : Cells) : Prop :=
  ∀ array : WordArray, array.Holds base cells →
    ∃ last : WordArray, machine.Runs code array last ∧ last.Holds base next

section Runs

variable {machine : ArrayMachine} {first second : Code} {array middle last : WordArray}

theorem runs_iff : machine.Runs first array last ↔
    first.foldlM machine.pass? ⟨array, none⟩ = some ⟨last, none⟩ := by
  refine ⟨fun h => ?_, fun h => by rw [Runs, run?, h]; rfl⟩
  obtain ⟨⟨found, goal⟩, hFold, h⟩ := Option.bind_eq_some_iff.mp h
  cases goal with
  | none =>
      cases h
      exact hFold
  | some label => cases h

theorem Runs.append (h : machine.Runs first array middle)
    (hSecond : machine.Runs second middle last) : machine.Runs (first ++ second) array last := by
  rw [runs_iff] at h hSecond ⊢
  rw [List.foldlM_append, h]
  exact hSecond

theorem Runs.motion {statement : Statement} {motion : Motion}
    (h : machine.motions.motion? statement.content = some motion)
    (hAfter : motion.inArray? machine.bases array = some last) :
    machine.Runs [statement] array last := by
  have hStatement : machine.pass? ⟨array, none⟩ statement = some ⟨last, none⟩ := by
    rw [pass?, if_pos (.inl rfl), execute?, h]
    simp only [hAfter, Option.map_some]
  rw [runs_iff, List.foldlM_cons, hStatement]
  rfl

end Runs

def execution (machine : ArrayMachine) (base : Nat) : machine.motions.Execution where
  allowed := (· < base)
  runs := machine.Drives base
  nil := fun _ array hHolds => ⟨array, rfl, hHolds⟩
  append := fun hFirst hSecond array hHolds => by
    obtain ⟨middle, hRun, hMiddle⟩ := hFirst array hHolds
    obtain ⟨last, hRest, hLast⟩ := hSecond middle hMiddle
    exact ⟨last, hRun.append hRest, hLast⟩
  motion := fun hMotion hAfter hBelow array hHolds => by
    obtain ⟨last, hRun, hLast⟩ := Motion.exists_inArray hAfter hHolds hBelow
    exact ⟨last, .motion hMotion hRun, hLast⟩

end ArrayMachine

end Lowering
end ScriptBackend
