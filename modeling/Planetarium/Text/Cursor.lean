/-!
# Places in a text

A cursor is a place between two characters of a text: how many characters stand before it and
which ones stand after it.  Offsets count Unicode code points from 0.  Every rule of the grammar
goes from one cursor to another, and every recursion over a text ends because the number of
characters that are `left` shrinks.

`Within text s` says that a cursor is a place of `text`; moving by one character, over a run of
characters or over a fixed word keeps it, so an offset always determines the characters after it.
-/
namespace Planetarium.Text

/-- A place in a text: the number of characters before it and the characters after it. -/
structure Cursor where
  offset : Nat
  rest : List Char
deriving DecidableEq, Repr

namespace Cursor

/-- The start of a text. -/
def start (text : List Char) : Cursor := ⟨0, text⟩

/-- The place `n` characters into a text; past its end nothing is left. -/
def ofOffset (text : List Char) (n : Nat) : Cursor := ⟨n, text.drop n⟩

/-- How many characters are left. -/
def left (s : Cursor) : Nat := s.rest.length

/-- The character at the cursor. -/
def peek? (s : Cursor) : Option Char := s.rest.head?

/-- The characters from the cursor on that satisfy `p`, up to the first that does not. -/
def run (p : Char → Bool) (s : Cursor) : List Char := s.rest.takeWhile p

/-- The place after the run of characters that satisfy `p`. -/
def skip (p : Char → Bool) (s : Cursor) : Cursor :=
  ⟨s.offset + (s.rest.takeWhile p).length, s.rest.dropWhile p⟩

/-- The place after `word`, if it stands at the cursor. -/
def after? (word : List Char) (s : Cursor) : Option Cursor :=
  match word, s with
  | [], s => some s
  | _ :: _, ⟨_, []⟩ => none
  | w :: ws, ⟨k, c :: cs⟩ => if w = c then after? ws ⟨k + 1, cs⟩ else none

/-- The cursor is a place of `text`. -/
def Within (text : List Char) (s : Cursor) : Prop :=
  s.offset ≤ text.length ∧ s.rest = text.drop s.offset

variable {p : Char → Bool} {s t : Cursor} {text word : List Char}

@[simp] theorem left_mk (k : Nat) (cs : List Char) : left ⟨k, cs⟩ = cs.length := rfl

/-- A character that is skipped is skipped first. -/
theorem skip_cons_of_pos {k : Nat} {c : Char} {cs : List Char} (h : p c) :
    skip p ⟨k, c :: cs⟩ = skip p ⟨k + 1, cs⟩ := by
  simp [skip, h, Nat.add_assoc, Nat.add_comm 1]

/-- Skipping stops at the first character that is not skipped. -/
theorem skip_cons_of_neg {k : Nat} {c : Char} {cs : List Char} (h : ¬ p c) :
    skip p ⟨k, c :: cs⟩ = ⟨k, c :: cs⟩ := by
  simp [skip, h]

/-- What is skipped and what is left then make up what was left before. -/
theorem run_append_skip (p : Char → Bool) (s : Cursor) : s.run p ++ (s.skip p).rest = s.rest :=
  List.takeWhile_append_dropWhile

/-- Skipping never moves a place backwards. -/
theorem left_skip_le : (s.skip p).left ≤ s.left := by
  have := congrArg List.length (run_append_skip p s)
  simp only [List.length_append] at this
  unfold left; omega

/-- Skipping keeps the length of the whole text. -/
theorem offset_skip_add_left : (s.skip p).offset + (s.skip p).left = s.offset + s.left := by
  have := congrArg List.length (run_append_skip p s)
  simp only [List.length_append, run] at this
  simp only [left, skip]
  simp only [skip] at this
  omega

/-- Behind a word the place is as much further on as the word is long. -/
theorem after?_offset (h : s.after? word = some t) :
    t.offset = s.offset + word.length ∧ s.rest = word ++ t.rest := by
  induction word generalizing s with
  | nil => simp [after?] at h; simp [h]
  | cons w ws ih =>
    obtain ⟨k, _ | ⟨c, cs⟩⟩ := s
    · simp [after?] at h
    · simp only [after?] at h
      split at h
      · obtain ⟨h₁, h₂⟩ := ih h
        subst w
        simp only [] at h₁ h₂
        exact ⟨by simp only [h₁, List.length_cons]; omega, by simp [h₂]⟩
      · simp at h

/-- Behind a word there is as much less left as the word is long. -/
theorem left_after? (h : s.after? word = some t) : t.left + word.length = s.left := by
  have := congrArg List.length (after?_offset h).2
  simp only [List.length_append] at this
  unfold left; omega

/-- The start of a text is a place in it. -/
theorem within_start : (start text).Within text := ⟨Nat.zero_le _, rfl⟩

/-- What is before a place and what is left there have the length of the text. -/
theorem Within.offset_add_left (h : s.Within text) : s.offset + s.left = text.length := by
  have := congrArg List.length h.2
  simp only [List.length_drop] at this
  have := h.1
  unfold left; omega

/-- Skipping stays inside the text. -/
theorem Within.skip (h : s.Within text) : (s.skip p).Within text := by
  have hl := h.offset_add_left
  have ho := offset_skip_add_left (p := p) (s := s)
  refine ⟨by omega, ?_⟩
  have hd : (s.skip p).rest = s.rest.drop (s.run p).length := by
    conv => rhs; rw [← run_append_skip p s]
    simp
  rw [hd, h.2, List.drop_drop]
  simp [Cursor.skip, Cursor.run, h.2]

end Cursor
end Planetarium.Text
