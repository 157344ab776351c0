import Planetarium.Decimal.Digits
import Planetarium.Decimal.Shortest

/-!
# How numbers are written

Reports and dumps write a double with the fewest digits that read back, or with a fixed number of
digits.  Either way the digits are laid out positionally when the exponent of the leading digit
lies in a range that belongs to the style, and otherwise with one digit before the point and an
exponent of at least two digits.  Infinities and NaN are words.
-/
namespace Planetarium.Decimal

/-- Which exponents of the leading digit are written positionally, and whether a whole number
keeps a `.0`. -/
structure Style where
  plainFrom : Int
  plainBelow : Int
  pointZero : Bool

/-- Numbers in dumps and on the command line. -/
def Style.dump : Style := ⟨-4, 16, true⟩

/-- Numbers in reports, with six significant digits. -/
def Style.report : Style := ⟨-4, 6, false⟩

/-- Never positional. -/
def Style.scientific : Style := ⟨0, 0, false⟩

/-- Digits with a point after the first `count`. -/
def pointed (count : Nat) (ds : List Char) : List Char :=
  match ds.drop count with
  | [] => ds
  | fraction => ds.take count ++ '.' :: fraction

/-- The power of ten of a number in scientific form: its sign and at least two digits. -/
def exponentText (e : Int) : List Char :=
  let ds := digits e.natAbs
  'e' :: (if e < 0 then '-' else '+') :: (if ds.length < 2 then '0' :: ds else ds)

/-- Digits laid out in a style; the first one counts `10 ^ e`. -/
def Style.layout (style : Style) (ds : List Char) (e : Int) : List Char :=
  if style.plainFrom ≤ e && e < style.plainBelow then
    if e < 0 then '0' :: '.' :: List.replicate (-e - 1).toNat '0' ++ ds
    else
      let whole := (e + 1).toNat
      if ds.length ≤ whole then
        ds ++ List.replicate (whole - ds.length) '0' ++ (if style.pointZero then ['.', '0'] else [])
      else pointed whole ds
  else pointed 1 ds ++ exponentText e

/-- A decimal laid out in a style. -/
def Style.scaled (style : Style) (d : Scaled) : List Char :=
  let ds := digits d.coefficient
  style.layout ds (d.exponent + ds.length - 1)

/-- A sign, if there is one, and what follows. -/
def signed (negative : Bool) (text : List Char) : List Char :=
  if negative then '-' :: text else text

/-- A double with the text of its magnitude left to `finite`. -/
def textWith (finite : (negative : Bool) → (bits : Nat) → List Char) (x : Float) : String :=
  match Binary.ofFloat x with
  | .nan => "nan"
  | .infinity negative => String.ofList (signed negative "inf".toList)
  | .finite negative bits => String.ofList (finite negative bits)

/-- The shortest text that reads back to the number. -/
def shortestText (x : Float) : String :=
  textWith (fun negative bits => signed negative (Style.dump.scaled (shortest bits))) x

/-- The number with six significant digits, without zeros at the end. -/
def reportText (x : Float) : String :=
  textWith (fun negative bits =>
    signed negative
      (Style.report.scaled (if bits = 0 then ⟨0, 0⟩ else (significant 6 bits).strip))) x

/-- The number in scientific form with `count` significant digits. -/
def scientificText (count : Nat) (x : Float) : String :=
  textWith (fun negative bits =>
    signed negative
      (if bits = 0 then Style.scientific.layout (List.replicate count '0') 0
       else Style.scientific.scaled (significant count bits))) x

/-- The number with `places` digits after the point; if all digits are zeros, without its
sign. -/
def fixedText (places : Nat) (x : Float) : String :=
  textWith (fun negative bits =>
    let n := ((Dyadic.ofBits bits).quotient.shift 10 (-places)).round
    let ds := digits n
    signed (negative && n != 0)
      (pointed (max ds.length (places + 1) - places)
        (List.replicate (places + 1 - ds.length) '0' ++ ds))) x

end Planetarium.Decimal
