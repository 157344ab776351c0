import Planetarium.Decimal.Digits
import Planetarium.Decimal.Scaled

/-!
# Numerals

A numeral is an optional sign, a run of digits and dots, and an optional power of ten.  It stands
for a number if its run holds at most one dot; the parts are kept as they are written, so a
message can show the numeral that has no value.
-/
namespace Planetarium.Decimal

/-- The power of ten at the end of a numeral, as it is written. -/
structure PowerOfTen where
  mark : Char
  sign : Option Char
  digits : List Char
deriving DecidableEq, Repr

/-- A numeral as it is written. -/
structure Numeral where
  sign : Option Char
  run : List Char
  power : Option PowerOfTen
deriving DecidableEq, Repr

/-- The character is `e` or `E`. -/
def isPowerMark (c : Char) : Bool := c = 'e' || c = 'E'

/-- The character is a sign. -/
def isSign (c : Char) : Bool := c = '+' || c = '-'

/-- The character may stand in the run of a numeral. -/
def isRunChar (c : Char) : Bool := isDigit c || c = '.'

/-- The power of ten as it is written. -/
def PowerOfTen.text (p : PowerOfTen) : List Char := p.mark :: p.sign.toList ++ p.digits

/-- The exponent that a power of ten means. -/
def PowerOfTen.exponent (p : PowerOfTen) : Int :=
  if p.sign = some '-' then -(Decimal.value p.digits) else Decimal.value p.digits

namespace Numeral

/-- The numeral as it is written. -/
def text (n : Numeral) : List Char :=
  n.sign.toList ++ n.run ++ (n.power.map PowerOfTen.text).getD []

/-- The number of dots of the run. -/
def dots (n : Numeral) : Nat := n.run.count '.'

/-- The digits after the dot. -/
def places (n : Numeral) : Nat := ((n.run.dropWhile (· != '.')).filter isDigit).length

/-- The number without its sign, the run read with its dot where it stands. -/
def magnitude (n : Numeral) : Scaled :=
  ⟨Decimal.value (n.run.filter isDigit),
    (n.power.map PowerOfTen.exponent).getD 0 - n.places⟩

/-- The double that the numeral stands for, infinity if it is out of range; none if the run has
more than one dot. -/
def float? (n : Numeral) : Option Float :=
  if 1 < n.dots then none else some (n.magnitude.float (n.sign = some '-'))

/-- Splits an optional sign off. -/
def splitSign : List Char → Option Char × List Char
  | c :: cs => if isSign c then (some c, cs) else (none, c :: cs)
  | [] => (none, [])

/-- Splits an optional power of ten off: a mark, an optional sign and at least one digit. -/
def splitPower : List Char → Option PowerOfTen × List Char
  | [] => (none, [])
  | c :: cs =>
    let (sign, rest) := splitSign cs
    match isPowerMark c, rest.takeWhile isDigit with
    | true, d :: ds => (some ⟨c, sign, d :: ds⟩, rest.dropWhile isDigit)
    | _, _ => (none, c :: cs)

/-- The numeral at the head of a text and what follows it.  The run is the longest run of digits
and dots after the sign; without a digit in it there is no numeral. -/
def split? (text : List Char) : Option (Numeral × List Char) :=
  let (sign, rest) := splitSign text
  let run := rest.takeWhile isRunChar
  if run.any isDigit then
    let (power, rest) := splitPower (rest.dropWhile isRunChar)
    some (⟨sign, run, power⟩, rest)
  else none

variable {text rest : List Char} {n : Numeral}

/-- A sign is split off a text without a loss. -/
theorem splitSign_append (text : List Char) :
    (splitSign text).1.toList ++ (splitSign text).2 = text := by
  cases text with
  | nil => rfl
  | cons c cs => cases h : isSign c <;> simp [splitSign, h]

/-- So is a power of ten. -/
theorem splitPower_append (text : List Char) :
    ((splitPower text).1.map PowerOfTen.text).getD [] ++ (splitPower text).2 = text := by
  cases text with
  | nil => rfl
  | cons c cs =>
    have hs := splitSign_append cs
    simp only [splitPower]
    split
    · rename_i d ds _ hd
      have ht := List.takeWhile_append_dropWhile (p := isDigit) (l := (splitSign cs).2)
      rw [hd] at ht
      simp only [Option.map_some, Option.getD_some, PowerOfTen.text, List.cons_append,
        List.append_assoc]
      rw [List.cons_append] at ht
      rw [ht, hs]
    · simp

/-- A numeral and what follows it make up the text. -/
theorem text_append_of_split? (h : split? text = some (n, rest)) : n.text ++ rest = text := by
  have hs := splitSign_append text
  have hp := splitPower_append ((splitSign text).2.dropWhile isRunChar)
  simp only [split?] at h
  split at h
  · simp only [Option.some.injEq, Prod.mk.injEq] at h
    obtain ⟨rfl, rfl⟩ := h
    simp only [Numeral.text, List.append_assoc]
    rw [hp, List.takeWhile_append_dropWhile, hs]
  · simp at h

/-- A numeral has digits. -/
theorem run_ne_nil_of_split? (h : split? text = some (n, rest)) : n.run ≠ [] := by
  simp only [split?] at h
  split at h
  · rename_i hd
    simp only [Option.some.injEq, Prod.mk.injEq] at h
    obtain ⟨rfl, rfl⟩ := h
    intro (hn : List.takeWhile isRunChar (splitSign text).2 = [])
    simp [hn] at hd
  · simp at h

/-- A numeral takes at least one character. -/
theorem length_rest_lt_of_split? (h : split? text = some (n, rest)) :
    rest.length < text.length := by
  have hr := List.length_pos_iff.mpr (run_ne_nil_of_split? h)
  have ht := congrArg List.length (text_append_of_split? h)
  simp only [Numeral.text, List.length_append] at ht
  omega

end Numeral
end Planetarium.Decimal
