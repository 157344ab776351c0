import Planetarium.Decimal.Scaled

/-!
# The shortest decimal that reads back

A double is shown by a decimal that reads back to the same double: the one with the fewest digits
and, of those, the nearest (of two equally near ones the even).  For 1, 2, … 17 digits the two
neighbours of the value on that decimal grid are read back; the first grid with a hit decides.
Seventeen digits always suffice for a double; the exact value, which reads back by
`Quotient.roundBits_ofBits`, stands behind the search all the same, so that `shortest` reads back
whatever the search does.
-/
namespace Planetarium.Decimal

attribute [local instance] natPow

/-- The least `k` with the quotient below `10 ^ k`: one more than the exponent of its leading
digit.  The binary logarithm gives it up to two steps. -/
def Quotient.scale (x : Quotient) : Int :=
  let near := x.log2 * 30103 / 100000
  (([near - 1, near, near + 1].find? fun k => (x.shift 10 k).belowOne).getD (near + 2))

/-- Of the neighbours of a quotient on the grid `10 ^ grid`, the nearest that reads back to
`bits`. -/
def neighbour? (bits : Nat) (x : Quotient) (grid : Int) : Option Scaled :=
  let y := x.shift 10 grid
  let below : Scaled := ⟨y.num / y.den, grid⟩
  let above : Scaled := ⟨y.num / y.den + 1, grid⟩
  let near := if y.round = below.coefficient then [below, above] else [above, below]
  near.find? (·.bits = bits)

/-- The exact value of a magnitude as a decimal. -/
def Dyadic.exact (x : Dyadic) : Scaled :=
  if 0 ≤ x.exponent then ⟨x.mantissa * 2 ^ x.exponent.toNat, 0⟩
  else ⟨x.mantissa * 5 ^ (-x.exponent).toNat, x.exponent⟩

/-- The shortest decimal that reads back to a magnitude. -/
def shortest (bits : Nat) : Scaled :=
  if bits = 0 then ⟨0, 0⟩
  else
    let x := (Dyadic.ofBits bits).quotient
    let top := x.scale
    match (List.range 17).findSome? fun (n : Nat) => neighbour? bits x (top - (n + 1)) with
    | some d => d.strip
    | none => (Dyadic.ofBits bits).exact

/-- A number rounded to `count` significant digits, a half to the even neighbour. -/
def significant (count : Nat) (bits : Nat) : Scaled :=
  let x := (Dyadic.ofBits bits).quotient
  let grid := x.scale - count
  let n := (x.shift 10 grid).round
  if n = 10 ^ count then ⟨n / 10, grid + 1⟩ else ⟨n, grid⟩

/-- A neighbour is only taken if it is read back as the same number. -/
theorem bits_of_neighbour? {bits : Nat} {x : Quotient} {grid : Int} {d : Scaled}
    (h : neighbour? bits x grid = some d) : d.bits = bits := by
  simpa using List.find?_some h

end Planetarium.Decimal
