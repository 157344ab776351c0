/-!
# Hexadecimal numerals

Numerals of a fixed number of digits, as escape sequences need them.
-/
namespace Planetarium.Text

/-- The two sets of letters a hexadecimal numeral is written with. -/
inductive HexCase where
  | lower
  | upper
deriving DecidableEq, Repr

/-- The digit for a value below 16. -/
def HexCase.digit (case : HexCase) (n : Nat) : Char :=
  if n < 10 then Char.ofNat (48 + n)
  else
    match case with
    | .lower => Char.ofNat (87 + n)
    | .upper => Char.ofNat (55 + n)

/-- The last `width` hexadecimal digits of `n`. -/
def HexCase.numeral (case : HexCase) : (width : Nat) → (n : Nat) → List Char
  | 0, _ => []
  | width + 1, n => case.numeral width (n / 16) ++ [case.digit (n % 16)]

end Planetarium.Text
