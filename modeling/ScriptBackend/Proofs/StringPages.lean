import Mathlib.Data.List.Induction
import ScriptBackend.Proofs.Assembly.Placement
import ScriptBackend.Proofs.Table

/-!
What string pages hold. A literal that is stored already is found again, one
that is too long changes nothing, and any other is put behind those that are
there, on one page. So every literal that has an offset stands there with its
zero byte and stays there, no two of them overlap, and between them is nothing.

Offsets are natural numbers, and the same as offsets in words of 32 bits as long
as all literals together take at most `2 ^ 32` bytes.
-/
namespace ScriptBackend.StringPages

/-- The bytes of a literal as they are stored. -/
def literal (text : String) : List UInt8 :=
  Text.utf8 text ++ [0]

theorem length_literal (text : String) : (literal text).length = (Text.utf8 text).length + 1 := by
  simp [literal]

theorem length_bytes (pages : StringPages) : pages.bytes.toList.length = pages.size :=
  Array.length_toList

/-- A literal is stored behind those that are there: on the page that is begun,
or on the next one if it would cross the end of the page. -/
structure Adds (pages : StringPages) (text : String) (offset : Nat) (next : StringPages) :
    Prop where
  fresh : pages.offset? text = none
  room : (literal text).length ≤ Page.size
  place : offset = Page.place pages.size (literal text).length
  bytes : next.bytes.toList =
    pages.bytes.toList ++ (List.replicate (offset - pages.size) 0 ++ literal text)
  offsets : ∀ other, next.offset? other = if text = other then some offset else pages.offset? other

section

variable {pages next : StringPages} {text : String} {offset : Nat}

/-- A literal that is stored is found again and nothing changes. -/
theorem intern_known (h : pages.offset? text = some offset) :
    pages.intern text = (some offset, pages) := by
  have hFound : pages.offsets[text]? = some offset := h
  simp only [intern, hFound]

/-- A literal longer than a page has no offset and changes nothing. -/
theorem intern_long (h : pages.offset? text = none) (hLong : maxLength < (Text.utf8 text).length) :
    pages.intern text = (none, pages) := by
  have hFresh : pages.offsets[text]? = none := h
  simp only [intern, hFresh, if_pos hLong]

/-- A literal that is new and fits on a page is stored behind the others. -/
theorem intern_fresh (h : pages.offset? text = none)
    (hShort : (Text.utf8 text).length ≤ maxLength) :
    ∃ offset next, pages.intern text = (some offset, next) ∧ pages.Adds text offset next := by
  have hFresh : pages.offsets[text]? = none := h
  simp only [intern, hFresh, if_neg (Nat.not_lt.mpr hShort)]
  refine ⟨_, _, rfl, h, ?_, by rw [length_literal], ?_, fun other => ?_⟩
  · rw [length_literal]
    have hSize : maxLength + 1 = Page.size := by decide
    omega
  · simp [literal]
  · rw [offset?, Std.TreeMap.getElem?_insert]
    simp [offset?]

/-- What storing a literal can do. -/
theorem intern_cases (pages : StringPages) (text : String) :
    (∃ offset, pages.offset? text = some offset ∧ pages.intern text = (some offset, pages)) ∨
      (pages.offset? text = none ∧ maxLength < (Text.utf8 text).length ∧
        pages.intern text = (none, pages)) ∨
      ∃ offset next, pages.intern text = (some offset, next) ∧ pages.Adds text offset next := by
  cases h : pages.offset? text with
  | some offset => exact .inl ⟨offset, rfl, intern_known h⟩
  | none =>
      rcases Nat.lt_or_ge maxLength (Text.utf8 text).length with hLong | hShort
      · exact .inr (.inl ⟨rfl, hLong, intern_long h hLong⟩)
      · exact .inr (.inr (intern_fresh h hShort))

/-- The pages stay as they are, or the literal is put behind those that are
there. -/
theorem intern_pages (pages : StringPages) (text : String) :
    (pages.intern text).2 = pages ∨ ∃ offset, pages.Adds text offset (pages.intern text).2 := by
  rcases intern_cases pages text with ⟨_, _, hKnown⟩ | ⟨_, _, hLong⟩ | ⟨offset, _, hNew, hAdds⟩
  · exact .inl (by rw [hKnown])
  · exact .inl (by rw [hLong])
  · exact .inr ⟨offset, by rwa [hNew]⟩

namespace Adds

theorem le_offset (h : pages.Adds text offset next) : pages.size ≤ offset :=
  h.place ▸ Page.le_place ..

theorem own (h : pages.Adds text offset next) : next.offset? text = some offset := by
  rw [h.offsets, if_pos rfl]

/-- Every other literal stays where it is. -/
theorem keeps (h : pages.Adds text offset next) : pages.Keeps next := by
  intro other found hFound
  have hOther : text ≠ other := by
    rintro rfl
    cases h.fresh.symm.trans hFound
  rw [h.offsets, if_neg hOther, hFound]

/-- The bytes in front of the literal: those before, and the rest of their page
if that is left. -/
theorem length_front (h : pages.Adds text offset next) :
    (pages.bytes.toList ++ List.replicate (offset - pages.size) 0).length = offset := by
  rw [List.length_append, List.length_replicate, length_bytes]
  exact Nat.add_sub_cancel' h.le_offset

/-- The bytes at the offset are those of the literal, up to the end of what is
stored so far. -/
theorem drop_offset (h : pages.Adds text offset next) :
    next.bytes.toList.drop offset = literal text := by
  rw [h.bytes, ← List.append_assoc]
  exact List.drop_left' h.length_front

theorem size_eq (h : pages.Adds text offset next) : next.size = offset + (literal text).length := by
  rw [← length_bytes, h.bytes, ← List.append_assoc, List.length_append, h.length_front]

end Adds

end

/-- Each literal stands at its offset, on one page. -/
structure Sound (pages : StringPages) : Prop where
  stored : ∀ text offset, pages.offset? text = some offset →
    literal text <+: pages.bytes.toList.drop offset
  fits : ∀ text offset, pages.offset? text = some offset →
    offset % Page.size + (literal text).length ≤ Page.size

theorem sound_empty : Sound empty := by
  constructor <;> simp [offset?, empty]

/-- What is stored at an offset is still there when bytes come behind. -/
theorem stored_append {text : String} {offset : Nat} {bytes : List UInt8} (rest : List UInt8)
    (h : literal text <+: bytes.drop offset) : literal text <+: (bytes ++ rest).drop offset := by
  have hInside : offset < bytes.length := by
    have hLength := h.length_le
    simp only [literal, List.length_append, List.length_singleton, List.length_drop] at hLength
    omega
  rw [List.drop_append_of_le_length (Nat.le_of_lt hInside)]
  exact h.trans (List.prefix_append ..)

/-- A literal that is added stands at its offset, and the bytes of the others do
not move. -/
theorem Sound.add {pages next : StringPages} {text : String} {offset : Nat} (h : pages.Sound)
    (hAdds : pages.Adds text offset next) : next.Sound := by
  refine ⟨fun other found hFound => ?_, fun other found hFound => ?_⟩ <;>
    rw [hAdds.offsets] at hFound <;>
    split at hFound
  · next hSame =>
      subst hSame
      cases hFound
      exact hAdds.drop_offset ▸ List.prefix_rfl
  · rw [hAdds.bytes]
    exact stored_append _ (h.stored other found hFound)
  · next hSame =>
      subst hSame
      cases hFound
      rw [hAdds.place]
      exact Page.place_fits _ hAdds.room
  · exact h.fits other found hFound

/-- What is stored at an offset is inside of the bytes. -/
theorem Sound.inside {pages : StringPages} (h : pages.Sound) {text : String} {offset : Nat}
    (hFound : pages.offset? text = some offset) : offset + (literal text).length ≤ pages.size := by
  have hLength := (h.stored text offset hFound).length_le
  rw [List.length_drop, length_bytes] at hLength
  have hLiteral := length_literal text
  omega

/-- Sound pages without waste: no two literals overlap, and what belongs to none
of them is zero. -/
structure Tidy (pages : StringPages) : Prop extends Sound pages where
  apart : ∀ first second a b, pages.offset? first = some a →
    pages.offset? second = some b → first ≠ second →
    a + (literal first).length ≤ b ∨ b + (literal second).length ≤ a
  blank : ∀ (i : Nat) byte, pages.bytes[i]? = some byte →
    (∀ text offset, pages.offset? text = some offset →
    i < offset ∨ offset + (literal text).length ≤ i) → byte = 0

theorem tidy_empty : Tidy empty where
  toSound := sound_empty
  apart := by simp [offset?, empty]
  blank := by simp [empty]

/-- A literal that is added lies behind all others, and only the rest of a page
is left blank in front of it. -/
theorem Tidy.add {pages next : StringPages} {text : String} {offset : Nat} (h : pages.Tidy)
    (hAdds : pages.Adds text offset next) : next.Tidy := by
  have hPlace := hAdds.le_offset
  refine ⟨h.toSound.add hAdds, fun first second a b hFirst hSecond hOther => ?_,
    fun i byte hByte hOutside => ?_⟩
  · rw [hAdds.offsets] at hFirst hSecond
    split at hFirst <;> split at hSecond
    · next hSame hTwice => exact absurd (hSame.symm.trans hTwice) hOther
    · cases hFirst
      have hInside := h.inside hSecond
      omega
    · cases hSecond
      have hInside := h.inside hFirst
      omega
    · exact h.apart first second a b hFirst hSecond hOther
  · rw [← Array.getElem?_toList, hAdds.bytes] at hByte
    rcases Nat.lt_or_ge i pages.size with hOld | hNew
    · rw [List.getElem?_append_left (by rwa [length_bytes]), Array.getElem?_toList] at hByte
      exact h.blank i byte hByte fun other found hFound =>
        hOutside other found (hAdds.keeps other found hFound)
    · rw [List.getElem?_append_right (by rwa [length_bytes]), length_bytes] at hByte
      -- behind the old bytes only the gap is not part of the new literal
      have hGap : i - pages.size < (List.replicate (offset - pages.size) (0 : UInt8)).length := by
        have hEnd := (List.getElem?_eq_some_iff.mp hByte).1
        rw [List.length_append, List.length_replicate] at hEnd
        rw [List.length_replicate]
        rcases hOutside text offset hAdds.own with hBefore | hBehind <;> omega
      rw [List.getElem?_append_left hGap,
        List.getElem?_replicate_of_lt (by simpa using hGap)] at hByte
      exact (Option.some.inj hByte).symm

/-! One literal after the other -/

/-- Stores texts in order. -/
def internAll (pages : StringPages) (texts : List String) : StringPages :=
  texts.foldl (fun pages text => (pages.intern text).2) pages

/-- What the texts of a run were given when it came to them, beginning with no
literals. -/
def Gives (texts : List String) (text : String) (offset : Nat) : Prop :=
  ∃ before later, texts = before ++ text :: later ∧
    ((empty.internAll before).intern text).1 = some offset

section

variable {pages : StringPages} {text : String} {offset : Nat} {texts : List String}

theorem Tidy.intern (h : pages.Tidy) (text : String) : (pages.intern text).2.Tidy := by
  rcases intern_pages pages text with hSame | ⟨_, hAdds⟩
  · rwa [hSame]
  · exact h.add hAdds

theorem prefix_intern (pages : StringPages) (text : String) :
    pages.bytes.toList <+: (pages.intern text).2.bytes.toList := by
  rcases intern_pages pages text with hSame | ⟨_, hAdds⟩
  · simp only [hSame, List.prefix_rfl]
  · rw [hAdds.bytes]
    exact List.prefix_append ..

/-- The offset that a literal is given is where it is found from then on. -/
theorem offset?_intern (h : (pages.intern text).1 = some offset) :
    (pages.intern text).2.offset? text = some offset := by
  rcases intern_cases pages text with ⟨_, hFound, hKnown⟩ | ⟨_, _, hLong⟩ | ⟨_, _, hNew, hAdds⟩
  · rw [hKnown] at h ⊢
    exact hFound.trans h
  · rw [hLong] at h
    cases h
  · rw [hNew] at h ⊢
    exact hAdds.own.trans h

theorem internAll_append (pages : StringPages) (first second : List String) :
    pages.internAll (first ++ second) = (pages.internAll first).internAll second :=
  List.foldl_append

/-- Pages stay tidy whatever is stored, since each literal is there already, too
long, or added. -/
theorem Tidy.internAll (h : pages.Tidy) (texts : List String) : (pages.internAll texts).Tidy := by
  induction texts generalizing pages with
  | nil => exact h
  | cons text rest ih => exact ih (h.intern text)

theorem keeps_internAll (pages : StringPages) (texts : List String) :
    pages.Keeps (pages.internAll texts) := by
  induction texts generalizing pages with
  | nil => exact Keeps.refl pages
  | cons text rest ih => exact (keeps_intern pages text).trans (ih _)

theorem prefix_internAll (pages : StringPages) (texts : List String) :
    pages.bytes.toList <+: (pages.internAll texts).bytes.toList := by
  induction texts generalizing pages with
  | nil => exact List.prefix_rfl
  | cons text rest ih => exact (prefix_intern pages text).trans (ih _)

/-- Only a literal that is too long for a page is given no offset, and nothing
is stored then. -/
theorem Sound.intern_eq_none_iff (h : pages.Sound) (text : String) :
    ((pages.intern text).1 = none ↔ maxLength < (Text.utf8 text).length) ∧
      (maxLength < (Text.utf8 text).length → (pages.intern text).2 = pages) := by
  have hShort : (literal text).length ≤ Page.size → ¬maxLength < (Text.utf8 text).length := by
    intro hRoom hLong
    rw [length_literal] at hRoom
    have hSize : maxLength + 1 = Page.size := by decide
    omega
  rcases intern_cases pages text with ⟨offset, hFound, hKnown⟩ | ⟨_, hLong, hSame⟩
    | ⟨_, _, hNew, hAdds⟩
  · have hRoom := h.fits text offset hFound
    rw [hKnown]
    exact ⟨⟨nofun, fun hLong => absurd hLong (hShort (by omega))⟩, fun _ => rfl⟩
  · rw [hSame]
    exact ⟨⟨fun _ => hLong, fun _ => rfl⟩, fun _ => rfl⟩
  · rw [hNew]
    exact ⟨⟨nofun, fun hLong => absurd hLong (hShort hAdds.room)⟩,
      fun hLong => absurd hLong (hShort hAdds.room)⟩

/-- What a run gives is what is found after it. -/
theorem gives_iff : Gives texts text offset ↔
    (empty.internAll texts).offset? text = some offset := by
  constructor
  · rintro ⟨before, later, rfl, hGiven⟩
    rw [internAll_append]
    exact keeps_internAll _ later text offset (offset?_intern hGiven)
  · induction texts using List.reverseRecOn with
    | nil => simp [internAll, offset?, empty]
    | append_singleton init last ih =>
        intro hFound
        rw [internAll_append] at hFound
        have hLast : (empty.internAll init).internAll [last] =
            ((empty.internAll init).intern last).2 := rfl
        rw [hLast] at hFound
        have hEarlier : (empty.internAll init).offset? text = some offset →
            Gives (init ++ [last]) text offset := by
          intro hOld
          obtain ⟨before, later, rfl, hGiven⟩ := ih hOld
          exact ⟨before, later ++ [last], by simp, hGiven⟩
        rcases intern_cases (empty.internAll init) last with ⟨_, _, hKnown⟩ | ⟨_, _, hLong⟩
          | ⟨given, _, hNew, hAdds⟩
        · rw [hKnown] at hFound
          exact hEarlier hFound
        · rw [hLong] at hFound
          exact hEarlier hFound
        · rw [hNew, hAdds.offsets] at hFound
          split at hFound
          · next hSame =>
              subst hSame
              cases hFound
              exact ⟨init, [], rfl, by rw [hNew]⟩
          · exact hEarlier hFound

end

/-- What storing texts in order comes to, when there are no literals before. -/
structure Interns (texts : List String) : Prop where
  refused : ∀ before text later, texts = before ++ text :: later →
    (((empty.internAll before).intern text).1 = none ↔ maxLength < (Text.utf8 text).length) ∧
      (maxLength < (Text.utf8 text).length →
        ((empty.internAll before).intern text).2 = empty.internAll before)
  repeated : ∀ before text between later offset,
    texts = before ++ text :: between ++ text :: later →
    ((empty.internAll before).intern text).1 = some offset →
      ((empty.internAll (before ++ text :: between)).intern text).1 = some offset
  stored : ∀ text offset, Gives texts text offset →
    literal text <+: (empty.internAll texts).bytes.toList.drop offset
  onePage : ∀ text offset, Gives texts text offset →
    offset % Page.size + (literal text).length ≤ Page.size
  apart : ∀ first second a b, Gives texts first a → Gives texts second b → first ≠ second →
    a + (literal first).length ≤ b ∨ b + (literal second).length ≤ a
  kept : ∀ before later, texts = before ++ later →
    (empty.internAll before).bytes.toList <+: (empty.internAll texts).bytes.toList
  blank : ∀ (i : Nat) byte, (empty.internAll texts).bytes[i]? = some byte →
    (∀ text offset, Gives texts text offset → i < offset ∨ offset + (literal text).length ≤ i) →
    byte = 0

/-- Any texts may be stored in any order. Offsets are looked up once, at the
end, where all of them are found again. -/
theorem interns (texts : List String) : Interns texts := by
  have hTidy := tidy_empty.internAll texts
  have hSound : ∀ texts, (empty.internAll texts).Sound :=
    fun texts => (tidy_empty.internAll texts).toSound
  refine ⟨fun before text _ _ => (hSound before).intern_eq_none_iff text, ?_, ?_, ?_, ?_, ?_, ?_⟩
  · rintro before text between later offset - hGiven
    have hFound := gives_iff.mp ⟨before, between, rfl, hGiven⟩
    rw [intern_known hFound]
  · exact fun text offset h => hTidy.stored text offset (gives_iff.mp h)
  · exact fun text offset h => hTidy.fits text offset (gives_iff.mp h)
  · intro first second a b hFirst hSecond
    exact hTidy.apart first second a b (gives_iff.mp hFirst) (gives_iff.mp hSecond)
  · rintro before later rfl
    rw [internAll_append]
    exact prefix_internAll _ later
  · intro i byte hByte hOutside
    exact hTidy.blank i byte hByte fun text offset h => hOutside text offset (gives_iff.mpr h)

/-! Offsets in words of 32 bits -/

/-- Stores a literal as `intern` does, with its offset cut to a word of 32 bits. -/
def internCut (pages : StringPages) (text : String) : Option Nat × StringPages :=
  match pages.offsets[text]? with
  | some offset => (some offset, pages)
  | none =>
    let stored := Text.utf8 text
    if maxLength < stored.length then
      (none, pages)
    else
      let start := Page.place pages.size (stored.length + 1)
      let gap : Array UInt8 := Array.replicate (start - pages.size) 0
      let offset := start % UInt32.size
      (some offset,
        { bytes := ((pages.bytes ++ gap) ++ stored).push 0
          offsets := pages.offsets.insert text offset })

def internAllCut (pages : StringPages) (texts : List String) : StringPages :=
  texts.foldl (fun pages text => (pages.internCut text).2) pages

section

variable {pages : StringPages} {text : String} {texts : List String}

/-- A literal that ends within `2 ^ 32` bytes is given the same offset, since it
begins before its end. -/
theorem internCut_eq (h : (pages.intern text).2.size ≤ UInt32.size) :
    pages.internCut text = pages.intern text := by
  rcases intern_cases pages text with ⟨offset, hFound, _⟩ | ⟨hFresh, hLong, _⟩
      | ⟨offset, next, hNew, hAdds⟩
  · have hKnown : pages.offsets[text]? = some offset := hFound
    simp only [internCut, intern, hKnown]
  · have hUnknown : pages.offsets[text]? = none := hFresh
    simp only [internCut, intern, hUnknown, if_pos hLong]
  · have hUnknown : pages.offsets[text]? = none := hAdds.fresh
    have hShort : ¬maxLength < (Text.utf8 text).length := by
      have hRoom := hAdds.room
      rw [length_literal] at hRoom
      have hSize : maxLength + 1 = Page.size := by decide
      omega
    have hCut : Page.place pages.size ((Text.utf8 text).length + 1) % UInt32.size =
        Page.place pages.size ((Text.utf8 text).length + 1) := by
      rw [hNew, hAdds.size_eq, hAdds.place, length_literal] at h
      exact Nat.mod_eq_of_lt (by omega)
    simp only [internCut, intern, hUnknown, if_neg hShort, hCut]

theorem size_le_internAll (pages : StringPages) (texts : List String) :
    pages.size ≤ (pages.internAll texts).size := by
  rw [← length_bytes, ← length_bytes]
  exact (prefix_internAll pages texts).length_le

/-- As long as the bytes of all literals are counted in 32 bits, no offset is
changed by the cut. -/
theorem internAllCut_eq (h : (pages.internAll texts).size ≤ UInt32.size) :
    pages.internAllCut texts = pages.internAll texts := by
  induction texts generalizing pages with
  | nil => rfl
  | cons text rest ih =>
      have hFirst := internCut_eq (Nat.le_trans (size_le_internAll (pages.intern text).2 rest) h)
      calc pages.internAllCut (text :: rest)
          = (pages.intern text).2.internAllCut rest :=
            congrArg (fun next => next.2.internAllCut rest) hFirst
        _ = pages.internAll (text :: rest) := ih h

end

end ScriptBackend.StringPages
