import Planetarium.Decimal.Numeral
import Planetarium.Text.Blank

/-!
# Numbers given as words

Numbers on the command line are words of their own.  Such a word may have white space around it
and single underscores between its digits, and its digits may be those of any script.  A whole
number is an optional sign and digits; any other number is a numeral, or a word for infinity or for
not a number in either case.
-/
namespace Planetarium.Decimal
open Text

/-- The zeros of the decimal digits of all scripts (Unicode 14); the nine other digits follow
each. -/
def digitZeros : List Nat :=
  [0x30, 0x660, 0x6F0, 0x7C0, 0x966, 0x9E6, 0xA66, 0xAE6, 0xB66, 0xBE6, 0xC66, 0xCE6, 0xD66,
   0xDE6, 0xE50, 0xED0, 0xF20, 0x1040, 0x1090, 0x17E0, 0x1810, 0x1946, 0x19D0, 0x1A80, 0x1A90,
   0x1B50, 0x1BB0, 0x1C40, 0x1C50, 0xA620, 0xA8D0, 0xA900, 0xA9D0, 0xA9F0, 0xAA50, 0xABF0,
   0xFF10, 0x104A0, 0x10D30, 0x11066, 0x110F0, 0x11136, 0x111D0, 0x112F0, 0x11450, 0x114D0,
   0x11650, 0x116C0, 0x11730, 0x118E0, 0x11950, 0x11C50, 0x11D50, 0x11DA0, 0x16A60, 0x16AC0,
   0x16B50, 0x1D7CE, 0x1D7D8, 0x1D7E2, 0x1D7EC, 0x1D7F6, 0x1E140, 0x1E2F0, 0x1E950, 0x1FBF0]

/-- The white space around a number.  Of the ASCII characters only the blank and the five controls
from tab to carriage return count. -/
def isWordBlank (c : Char) : Bool :=
  isBlank c && !(0x1C ≤ c.toNat && c.toNat ≤ 0x1F)

/-- The ASCII digit for a digit of any script. -/
def asciiDigit (c : Char) : Char :=
  match digitZeros.find? fun first => first ≤ c.toNat && c.toNat < first + 10 with
  | some first => digitChar (c.toNat - first)
  | none => c

/-- The characters of a number given as a word, without white space around them and with ASCII
digits. -/
def wordChars (word : String) : List Char :=
  ((word.toList.map asciiDigit).dropWhile isWordBlank).reverse.dropWhile isWordBlank |>.reverse

/-- The characters without their underscores, if every underscore stands between two digits. -/
def dropGaps? (before : Option Char) : List Char → Option (List Char)
  | [] => some []
  | c :: cs =>
    if c = '_' then
      if before.any isDigit && cs.head?.any isDigit then dropGaps? (some c) cs else none
    else (dropGaps? (some c) cs).map (c :: ·)

/-- The whole number that a word stands for. -/
def integer? (word : String) : Option Int := do
  let cs ← dropGaps? none (wordChars word)
  let (sign, ds) := Numeral.splitSign cs
  if !ds.isEmpty && ds.all isDigit then
    return if sign = some '-' then -(value ds) else value ds
  else none

/-- The letters of a word in lower case. -/
def lowercase (cs : List Char) : List Char := cs.map Char.toLower

/-- The number that a word stands for. -/
def float? (word : String) : Option Float := do
  let cs := wordChars word
  let (sign, rest) := Numeral.splitSign cs
  let name := String.ofList (lowercase rest)
  if name = "inf" || name = "infinity" then return ofMagnitude (sign = some '-') infinityBits
  else if name = "nan" then return 0 / 0
  else
    let (numeral, after) ← Numeral.split? (← dropGaps? none cs)
    if after.isEmpty then numeral.float? else none

end Planetarium.Decimal
