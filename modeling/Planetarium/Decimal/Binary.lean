/-!
# Doubles as numbers

A finite double is a sign and a magnitude `mantissa * 2 ^ exponent`.  The bits of a magnitude,
read as a natural number, count the magnitudes below it, so rounding a rational to the nearest
double is one division: find the grid of doubles that the rational lies on, round to the grid (a
half to the even neighbour) and count.  `roundBits_ofBits` says that a value which is itself a
double is hit exactly.
-/
namespace Planetarium.Decimal

/-- The powers of natural numbers, whatever other powers are in scope. -/
@[reducible] def natPow : Pow Nat Nat := instPowNat

attribute [local instance] natPow

/-- The number `mantissa * 2 ^ exponent`. -/
structure Dyadic where
  mantissa : Nat
  exponent : Int
deriving DecidableEq, Repr

/-- A quotient of natural numbers. -/
structure Quotient where
  num : Nat
  den : Nat
deriving DecidableEq, Repr

/-- The quotient divided by `base ^ k`. -/
def Quotient.shift (x : Quotient) (base : Nat) (k : Int) : Quotient :=
  ⟨x.num * base ^ (-k).toNat, x.den * base ^ k.toNat⟩

/-- The quotient is below 1. -/
def Quotient.belowOne (x : Quotient) : Bool := x.num < x.den

/-- The quotient rounded to a natural number, a half to the even neighbour. -/
def Quotient.round (x : Quotient) : Nat :=
  let whole := x.num / x.den
  let remainder := x.num % x.den
  if 2 * remainder < x.den || (2 * remainder = x.den && whole % 2 = 0) then whole else whole + 1

/-- The greatest `k` with `2 ^ k` at most the quotient, for a positive quotient. -/
def Quotient.log2 (x : Quotient) : Int :=
  let k := (x.num.log2 : Int) - x.den.log2
  if (x.shift 2 k).belowOne then k - 1 else k

/-- The bits of infinity, one more than those of the greatest finite magnitude. -/
def infinityBits : Nat := 0x7FF0000000000000

/-- The bits of the sign. -/
def signBit : Nat := 2 ^ (63 : Nat)

/-- The number of doubles from a power of two up to the next. -/
def binade : Nat := 2 ^ (52 : Nat)

/-- The magnitude with the given bits, for bits below those of infinity. -/
def Dyadic.ofBits (bits : Nat) : Dyadic :=
  if bits < binade then ⟨bits, -1074⟩
  else ⟨binade + bits % binade, (bits / binade : Nat) - 1075⟩

/-- The number as a quotient. -/
def Dyadic.quotient (x : Dyadic) : Quotient :=
  ⟨x.mantissa * 2 ^ x.exponent.toNat, 2 ^ (-x.exponent).toNat⟩

/-- The bits of the magnitude nearest to a quotient, of two equally near ones the even one;
infinity from halfway past the greatest finite magnitude on. -/
def Quotient.roundBits (x : Quotient) : Nat :=
  if x.num = 0 then 0
  else
    let grid := max (x.log2 - 52) (-1074)
    min ((grid + 1074).toNat * binade + (x.shift 2 grid).round) infinityBits

/-- A double by what it stands for. -/
inductive Binary where
  | nan
  | infinity (negative : Bool)
  | finite (negative : Bool) (bits : Nat)
deriving DecidableEq, Repr

/-- The double with a sign and the bits of a magnitude. -/
def ofMagnitude (negative : Bool) (bits : Nat) : Float :=
  Float.ofBits (UInt64.ofNat (if negative then signBit + bits else bits))

/-- What a double stands for. -/
def Binary.ofFloat (x : Float) : Binary :=
  let bits := x.toBits.toNat % signBit
  let negative := signBit ≤ x.toBits.toNat
  if infinityBits < bits then .nan
  else if bits = infinityBits then .infinity negative
  else .finite negative bits

/-- The double is neither an infinity nor a NaN. -/
def isFinite (x : Float) : Bool :=
  match Binary.ofFloat x with
  | .finite _ _ => true
  | _ => false

/-- The double is one of the two infinities. -/
def isInfinite (x : Float) : Bool :=
  match Binary.ofFloat x with
  | .infinity _ => true
  | _ => false

theorem binade_eq : binade = 4503599627370496 := rfl

theorem binade_pos : 0 < binade := Nat.two_pow_pos 52

/-- A whole number of 53 bits times a power of two has the size that its exponent says. -/
theorem Quotient.log2_dyadic {m : Nat} {e : Int} (h₁ : binade ≤ m) (h₂ : m < 2 * binade) :
    (Dyadic.quotient ⟨m, e⟩).log2 = e + 52 := by
  have hm : m ≠ 0 := by omega
  have hnum : (m * 2 ^ e.toNat).log2 = 52 + e.toNat := by
    rw [Nat.log2_eq_iff (Nat.mul_ne_zero hm (Nat.pos_iff_ne_zero.mp (Nat.two_pow_pos _)))]
    constructor
    · rw [Nat.pow_add]; exact Nat.mul_le_mul_right _ h₁
    · rw [show 52 + e.toNat + 1 = 53 + e.toNat by omega, Nat.pow_add]
      exact Nat.mul_lt_mul_of_pos_right h₂ (Nat.two_pow_pos _)
  have hk : ((52 + e.toNat : Nat) : Int) - ((-e).toNat : Nat) = e + 52 := by omega
  have hb : ¬ m * 2 ^ e.toNat * 2 ^ (-(e + 52)).toNat < 2 ^ (-e).toNat * 2 ^ (e + 52).toNat := by
    rw [Nat.not_lt, Nat.mul_assoc, ← Nat.pow_add, ← Nat.pow_add,
      show (-e).toNat + (e + 52).toNat = 52 + (e.toNat + (-(e + 52)).toNat) by omega, Nat.pow_add]
    exact Nat.mul_le_mul_right _ h₁
  simp only [Quotient.log2, Dyadic.quotient, hnum, Nat.log2_two_pow, hk, Quotient.shift,
    Quotient.belowOne, decide_eq_true_eq, if_neg hb]

/-- A shorter number is smaller than one of 53 bits with the same exponent. -/
theorem Quotient.log2_dyadic_le {m : Nat} {e : Int} (h₀ : 0 < m) (h₂ : m < binade) :
    (Dyadic.quotient ⟨m, e⟩).log2 ≤ e + 51 := by
  have hm : m ≠ 0 := by omega
  have hnum : (m * 2 ^ e.toNat).log2 < 52 + e.toNat := by
    rw [Nat.log2_lt (Nat.mul_ne_zero hm (Nat.pos_iff_ne_zero.mp (Nat.two_pow_pos _))), Nat.pow_add]
    exact Nat.mul_lt_mul_of_pos_right h₂ (Nat.two_pow_pos _)
  simp only [Quotient.log2, Dyadic.quotient, Nat.log2_two_pow]
  split <;> omega

/-- A number that lies on a grid is its own rounding on it. -/
theorem Quotient.round_shift_dyadic (m : Nat) (e : Int) :
    ((Dyadic.quotient ⟨m, e⟩).shift 2 e).round = m := by
  have hd : 0 < 2 ^ (-e).toNat * 2 ^ e.toNat := Nat.mul_pos (Nat.two_pow_pos _) (Nat.two_pow_pos _)
  have hn : m * 2 ^ e.toNat * 2 ^ (-e).toNat = m * (2 ^ (-e).toNat * 2 ^ e.toNat) := by
    rw [Nat.mul_assoc, Nat.mul_comm (2 ^ e.toNat)]
  simp only [Quotient.round, Quotient.shift, Dyadic.quotient, hn, Nat.mul_mod_left,
    Nat.mul_div_cancel _ hd]
  rw [if_pos (by simp only [Nat.mul_zero, hd, decide_true, Bool.true_or])]

/-- Every finite magnitude is its own nearest double. -/
theorem Quotient.roundBits_ofBits {bits : Nat} (h : bits < infinityBits) :
    (Dyadic.ofBits bits).quotient.roundBits = bits := by
  by_cases h₀ : bits = 0
  · subst h₀; rfl
  have hpos : ∀ {m : Nat} {e : Int}, m ≠ 0 → ¬ (Dyadic.quotient ⟨m, e⟩).num = 0 := fun hm =>
    Nat.mul_ne_zero hm (Nat.pos_iff_ne_zero.mp (Nat.two_pow_pos _))
  unfold Dyadic.ofBits
  split
  · rename_i hs
    have hg : max ((Dyadic.quotient ⟨bits, -1074⟩).log2 - 52) (-1074) = -1074 := by
      have := Quotient.log2_dyadic_le (e := -1074) (Nat.pos_of_ne_zero h₀) hs
      omega
    simp only [Quotient.roundBits, if_neg (hpos (e := -1074) h₀), hg, Quotient.round_shift_dyadic]
    simp only [infinityBits, binade_eq] at *
    omega
  · rename_i hs
    have hm₁ : binade ≤ binade + bits % binade := Nat.le_add_right _ _
    have hm₂ : binade + bits % binade < 2 * binade := by
      have := Nat.mod_lt bits binade_pos
      omega
    have hlog := Quotient.log2_dyadic (e := (bits / binade : Nat) - 1075) hm₁ hm₂
    have hg : max ((Dyadic.quotient ⟨binade + bits % binade, (bits / binade : Nat) - 1075⟩).log2
        - 52) (-1074) = (bits / binade : Nat) - 1075 := by
      have := Nat.div_pos (Nat.le_of_not_lt hs) binade_pos
      omega
    simp only [Quotient.roundBits, if_neg (hpos (e := (bits / binade : Nat) - 1075)
      (Nat.pos_iff_ne_zero.mp (Nat.lt_of_lt_of_le binade_pos hm₁))), hg,
      Quotient.round_shift_dyadic]
    simp only [infinityBits, binade_eq] at *
    omega

end Planetarium.Decimal
