import Planetarium.Decimal.Binary

/-!
# Decimal numbers and their doubles

A decimal number is a coefficient and a power of ten.  It stands for the double nearest to it.
Numbers far outside the range of doubles are settled by the size of their exponent alone, so that
a short text with a huge exponent is read as quickly as any other.
-/
namespace Planetarium.Decimal

attribute [local instance] natPow

/-- The number `coefficient * 10 ^ exponent`. -/
structure Scaled where
  coefficient : Nat
  exponent : Int
deriving DecidableEq, Repr

namespace Scaled

/-- The number as a quotient. -/
def quotient (d : Scaled) : Quotient :=
  ⟨d.coefficient * 10 ^ d.exponent.toNat, 10 ^ (-d.exponent).toNat⟩

/-- The bits of the nearest magnitude. -/
def bits (d : Scaled) : Nat :=
  if d.coefficient = 0 then 0
  else if 400 < d.exponent then infinityBits
  else if d.exponent + d.coefficient.log2 < -400 then 0
  else d.quotient.roundBits

/-- The nearest double. -/
def float (negative : Bool) (d : Scaled) : Float := ofMagnitude negative d.bits

/-- The same number without the zeros at the end of its coefficient. -/
def strip (d : Scaled) : Scaled :=
  if h : d.coefficient ≠ 0 ∧ d.coefficient % 10 = 0 then
    strip ⟨d.coefficient / 10, d.exponent + 1⟩
  else d
termination_by d.coefficient
decreasing_by omega

end Scaled
end Planetarium.Decimal
