import Planetarium.Decimal.Numeral
import Planetarium.Parsing.Level

/-!
# Tokens

The words of the language: identifiers, numbers, quoted strings and single signs, with spaces,
tabs and line breaks between them.  Each reader is an attempt at a cursor.  Identifiers and digits
are ASCII only.
-/
namespace Planetarium.Parsing
open Text Decimal

/-- The character separates words on a line. -/
def isSpace (c : Char) : Bool := c = ' ' || c = '\t'

/-- The character ends a line. -/
def isBreak (c : Char) : Bool := c = '\n' || c = '\r'

/-- The character is a space, a tab or a line break. -/
def isLayout (c : Char) : Bool := isSpace c || isBreak c

/-- The character may begin an identifier. -/
def isWordStart (c : Char) : Bool := c.isAlpha || c = '_'

/-- The character may stand in an identifier. -/
def isWordChar (c : Char) : Bool := c.isAlphanum || c = '_'

/-- The place after what counts as blank at a level. -/
def Level.skip (l : Level) (s : Cursor) : Cursor :=
  s.skip (if l.multiline then isLayout else isSpace)

/-- Skipping layout never moves a place backwards. -/
theorem Level.left_skip_le (l : Level) (s : Cursor) : (l.skip s).left ≤ s.left :=
  Cursor.left_skip_le

/-- The place after at least one line break and the blanks around it. -/
def lineBreaks? (s : Cursor) : Option Cursor :=
  let t := s.skip isSpace
  if t.peek?.any isBreak then some (t.skip isLayout) else none

/-- One character that means something. -/
def sign {α : Type} (meaning : Char → Option α) (s : Cursor) : Attempt α s.left :=
  match s with
  | ⟨_, []⟩ => .mismatch
  | ⟨k, c :: cs⟩ =>
    match meaning c with
    | some a => .accept a ⟨k + 1, cs⟩ (Nat.lt_succ_self _)
    | none => .mismatch

/-- A certain character. -/
def char (c : Char) (s : Cursor) : Attempt Unit s.left :=
  sign (fun d => if d = c then some () else none) s

/-- An identifier: a letter or an underscore, then letters, digits and underscores. -/
def identifier (s : Cursor) : Attempt String s.left :=
  match s with
  | ⟨_, []⟩ => .mismatch
  | ⟨k, c :: cs⟩ =>
    if isWordStart c then
      .accept (String.ofList (c :: cs.takeWhile isWordChar)) (Cursor.skip isWordChar ⟨k + 1, cs⟩)
        (Nat.lt_succ_of_le Cursor.left_skip_le)
    else .mismatch

/-- A number.  A numeral without a value, or beyond the greatest finite number, is a fault. -/
def number (s : Cursor) : Attempt Float s.left :=
  match h : Numeral.split? s.rest with
  | none => .mismatch
  | some (numeral, rest) =>
    match numeral.float? with
    | none => .fault (.malformedNumber (String.ofList numeral.text)) s.offset
    | some x =>
      if isInfinite x then .fault (.numberOutOfRange (String.ofList numeral.text)) s.offset
      else .accept x ⟨s.offset + numeral.text.length, rest⟩ (Numeral.length_rest_lt_of_split? h)

/-- A string between double quotes, taken as it stands.  Without the second quote it is a
fault. -/
def quotedString (s : Cursor) : Attempt String s.left :=
  match s with
  | ⟨k, '"' :: cs⟩ =>
    match h : Cursor.skip (· != '"') ⟨k + 1, cs⟩ with
    | ⟨_, []⟩ => .fault .unterminatedString k
    | ⟨j, _ :: rest⟩ =>
      .accept (String.ofList (cs.takeWhile (· != '"'))) ⟨j + 1, rest⟩ (by
        have := Cursor.left_skip_le (p := (· != '"')) (s := ⟨k + 1, cs⟩)
        rw [h] at this
        simp only [Cursor.left_mk, List.length_cons] at this ⊢
        omega)
  | _ => .mismatch

/-- Line breaks are skipped together with the blanks around them. -/
theorem lineBreaks?_getD (s : Cursor) :
    (lineBreaks? s).getD (s.skip isSpace) = s.skip isLayout := by
  obtain ⟨k, cs⟩ := s
  induction cs generalizing k with
  | nil => rfl
  | cons c cs ih =>
    by_cases hs : isSpace c
    · have hl : isLayout c := by simp [isLayout, hs]
      rw [lineBreaks?, Cursor.skip_cons_of_pos hs, Cursor.skip_cons_of_pos hl]
      exact ih (k + 1)
    · rw [lineBreaks?, Cursor.skip_cons_of_neg hs]
      by_cases hb : isBreak c
      · simp [Cursor.peek?, hb]
      · have hl : ¬ isLayout c := by simp [isLayout, hs, hb]
        simp [Cursor.peek?, hb, Cursor.skip_cons_of_neg hl]

end Planetarium.Parsing
