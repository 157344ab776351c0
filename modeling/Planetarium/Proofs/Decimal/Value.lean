import Planetarium.Decimal.Shortest
import Mathlib.Algebra.Order.Field.Power
import Mathlib.Data.Int.Log
import Mathlib.Algebra.Order.Floor.Semifield
import Mathlib.Data.Rat.Floor
import Mathlib.Tactic.FieldSimp
import Mathlib.Tactic.LinearCombination
import Mathlib.Tactic.NormNum
import Mathlib.Tactic.Positivity
import Mathlib.Tactic.Ring

/-!
# Numbers as rationals

A quotient, a dyadic number and a decimal number each stand for a rational, and what a decimal
number is read as depends on that rational alone: `nearestBits` says what it is.  The shortcuts
for numbers far outside the range of doubles come to the same, so two decimals with the same value
are the same double, however they are written.
-/
namespace Planetarium.Decimal

attribute [local instance] natPow

/-- The value of a quotient. -/
def Quotient.val (x : Quotient) : ℚ := x.num / x.den

/-- The value of a dyadic number. -/
def Dyadic.val (x : Dyadic) : ℚ := x.mantissa * 2 ^ x.exponent

/-- The value of a decimal number. -/
def Scaled.val (d : Scaled) : ℚ := d.coefficient * 10 ^ d.exponent

/-- The natural number nearest to a rational, of two equally near ones the even. -/
def roundEven (q : ℚ) : ℕ :=
  let whole := ⌊q⌋₊
  if 2 * (q - whole) < 1 ∨ 2 * (q - whole) = 1 ∧ whole % 2 = 0 then whole else whole + 1

/-- The bits of the magnitude nearest to a rational. -/
def nearestBits (q : ℚ) : ℕ :=
  if q = 0 then 0
  else
    let grid := max (Int.log 2 q - 52) (-1074)
    min ((grid + 1074).toNat * binade + roundEven (q / 2 ^ grid)) infinityBits

variable {x : Quotient} {q : ℚ} {k : ℤ} {b bits : ℕ} {d : Scaled}

/-! ## Quotients -/

theorem pow_mul_pow_neg (hb : 0 < b) (k : ℤ) :
    (b : ℚ) ^ k.toNat = b ^ (-k).toNat * (b : ℚ) ^ k := by
  have hb : (b : ℚ) ≠ 0 := by exact_mod_cast hb.ne'
  rw [← zpow_natCast, ← zpow_natCast, ← zpow_add₀ hb]
  congr 1
  omega

/-- A shifted quotient is divided by that power. -/
theorem Quotient.val_shift (hb : 0 < b) (k : ℤ) : (x.shift b k).val = x.val / (b : ℚ) ^ k := by
  have hb' : (b : ℚ) ≠ 0 := by exact_mod_cast hb.ne'
  have hpow := pow_mul_pow_neg hb k
  simp only [val, shift, Nat.cast_mul, Nat.cast_pow]
  rw [hpow]
  by_cases hd : (x.den : ℚ) = 0
  · simp [hd]
  · field_simp

theorem Quotient.den_shift_pos (hd : 0 < x.den) (hb : 0 < b) : 0 < (x.shift b k).den :=
  Nat.mul_pos hd (Nat.pow_pos hb)

/-- A quotient that is said to be below one is. -/
theorem Quotient.belowOne_iff (hd : 0 < x.den) : x.belowOne ↔ x.val < 1 := by
  have hd' : (0 : ℚ) < x.den := by exact_mod_cast hd
  rw [belowOne, decide_eq_true_eq, val, div_lt_one hd']
  exact Nat.cast_lt.symm

theorem log_eq_of_between (h₁ : (2 : ℚ) ^ k ≤ q) (h₂ : q < 2 ^ (k + 1)) : Int.log 2 q = k := by
  have hq : 0 < q := lt_of_lt_of_le (by positivity) h₁
  have h₁ := (Int.zpow_le_iff_le_log (R := ℚ) one_lt_two hq).mp h₁
  have h₂ := (Int.lt_zpow_iff_log_lt (R := ℚ) one_lt_two hq).mp h₂
  omega

theorem two_pow_log2_le {n : ℕ} (hn : n ≠ 0) : (2 : ℚ) ^ n.log2 ≤ n := by
  exact_mod_cast Nat.log2_self_le hn

theorem lt_two_pow_log2 (n : ℕ) : (n : ℚ) < 2 ^ (n.log2 + 1) := by
  exact_mod_cast Nat.lt_log2_self

/-- The size that is worked out for a quotient is its logarithm. -/
theorem Quotient.log2_eq (hn : x.num ≠ 0) (hd : 0 < x.den) : x.log2 = Int.log 2 x.val := by
  have hd' : (0 : ℚ) < x.den := by exact_mod_cast hd
  -- the difference of the logarithms is right or one too large, and `belowOne` tells which
  have hlower : (2 : ℚ) ^ ((x.num.log2 : ℤ) - x.den.log2 - 1) ≤ x.val := by
    rw [val, le_div_iff₀ hd']
    calc (2 : ℚ) ^ ((x.num.log2 : ℤ) - x.den.log2 - 1) * x.den
        ≤ 2 ^ ((x.num.log2 : ℤ) - x.den.log2 - 1) * 2 ^ (x.den.log2 + 1) := by
          gcongr
          exact (lt_two_pow_log2 _).le
      _ = 2 ^ x.num.log2 := by
          rw [← zpow_natCast, ← zpow_add₀ two_ne_zero, ← zpow_natCast]
          congr 1
          push_cast
          ring
      _ ≤ x.num := two_pow_log2_le hn
  have hupper : x.val < 2 ^ ((x.num.log2 : ℤ) - x.den.log2 + 1) := by
    rw [val, div_lt_iff₀ hd']
    calc (x.num : ℚ) < 2 ^ (x.num.log2 + 1) := lt_two_pow_log2 _
      _ = 2 ^ ((x.num.log2 : ℤ) - x.den.log2 + 1) * 2 ^ x.den.log2 := by
          rw [← zpow_natCast, ← zpow_natCast, ← zpow_add₀ two_ne_zero]
          congr 1
          push_cast
          ring
      _ ≤ 2 ^ ((x.num.log2 : ℤ) - x.den.log2 + 1) * x.den := by
          gcongr
          exact two_pow_log2_le hd.ne'
  have hbelow : (x.shift 2 ((x.num.log2 : ℤ) - x.den.log2)).belowOne ↔
      x.val < 2 ^ ((x.num.log2 : ℤ) - x.den.log2) := by
    rw [belowOne_iff (den_shift_pos hd two_pos), val_shift two_pos, Nat.cast_ofNat,
      div_lt_one (by positivity)]
  simp only [log2]
  split
  · rename_i h
    exact (log_eq_of_between hlower (by rw [sub_add_cancel]; exact hbelow.mp h)).symm
  · rename_i h
    exact (log_eq_of_between (not_lt.mp fun hlt => h (hbelow.mpr hlt)) hupper).symm

/-- A quotient is rounded as its value is. -/
theorem Quotient.round_eq (hd : 0 < x.den) : x.round = roundEven x.val := by
  have hd' : (0 : ℚ) < x.den := by exact_mod_cast hd
  have hfloor : ⌊x.val⌋₊ = x.num / x.den := Nat.floor_div_eq_div _ _
  have hrest : x.val - (x.num / x.den : ℕ) = (x.num % x.den : ℕ) / x.den := by
    have hsum : (x.den : ℚ) * (x.num / x.den : ℕ) + (x.num % x.den : ℕ) = x.num := by
      exact_mod_cast Nat.div_add_mod x.num x.den
    rw [val, eq_div_iff hd'.ne', sub_mul, div_mul_cancel₀ _ hd'.ne']
    linear_combination -hsum
  -- the remainder decides, twice as large, against the denominator
  have hlt : 2 * (x.val - (x.num / x.den : ℕ)) < 1 ↔ 2 * (x.num % x.den) < x.den := by
    rw [hrest, ← mul_div_assoc, div_lt_one hd']
    exact_mod_cast Iff.rfl
  have heq : 2 * (x.val - (x.num / x.den : ℕ)) = 1 ↔ 2 * (x.num % x.den) = x.den := by
    rw [hrest, ← mul_div_assoc, div_eq_one_iff_eq hd'.ne']
    exact_mod_cast Iff.rfl
  simp only [round, roundEven, hfloor, hlt, heq, Bool.or_eq_true, Bool.and_eq_true,
    decide_eq_true_eq]

/-- What a quotient is rounded to depends on its value alone. -/
theorem Quotient.roundBits_eq (hd : 0 < x.den) : x.roundBits = nearestBits x.val := by
  have hd' : (x.den : ℚ) ≠ 0 := by exact_mod_cast hd.ne'
  have hzero : x.num = 0 ↔ x.val = 0 := by
    rw [val, div_eq_zero_iff, or_iff_left hd', Nat.cast_eq_zero]
  rw [roundBits, nearestBits]
  by_cases hn : x.num = 0
  · rw [if_pos hn, if_pos (hzero.mp hn)]
  · rw [if_neg hn, if_neg fun h => hn (hzero.mpr h)]
    simp only [log2_eq hn hd, round_eq (den_shift_pos hd two_pos), val_shift two_pos,
      Nat.cast_ofNat]

/-! ## Numbers out of range -/

theorem le_roundEven (q : ℚ) : ⌊q⌋₊ ≤ roundEven q := by
  simp only [roundEven]
  split <;> omega

/-- What is too large is nearest to infinity. -/
theorem nearestBits_of_large (h : 2 ^ (1024 : ℤ) ≤ q) : nearestBits q = infinityBits := by
  have hq : 0 < q := lt_of_lt_of_le (by positivity) h
  have hlog : 1024 ≤ Int.log 2 q := by
    refine (Int.zpow_le_iff_le_log (R := ℚ) one_lt_two hq).mp ?_
    rw [Nat.cast_ofNat]
    exact h
  have hgrid : max (Int.log 2 q - 52) (-1074) = Int.log 2 q - 52 := max_eq_left (by omega)
  -- a number has at least a binade of steps of its own grid
  have hround : binade ≤ roundEven (q / 2 ^ (Int.log 2 q - 52)) := by
    refine le_trans (Nat.le_floor ?_) (le_roundEven _)
    have hpow : (2 : ℚ) ^ (52 : ℤ) * 2 ^ (Int.log 2 q - 52) = 2 ^ Int.log 2 q := by
      rw [← zpow_add₀ two_ne_zero]
      congr 1
      ring
    have hle : (2 : ℚ) ^ Int.log 2 q ≤ q := Int.zpow_log_le_self one_lt_two hq
    rw [le_div_iff₀ (by positivity), show (binade : ℚ) = 2 ^ (52 : ℤ) by norm_num [binade], hpow]
    exact hle
  rw [nearestBits, if_neg hq.ne', hgrid]
  have : 2046 ≤ (Int.log 2 q - 52 + 1074).toNat := by omega
  have := Nat.mul_le_mul_right binade this
  simp only [binade_eq, infinityBits] at *
  omega

/-- What is too small is nearest to zero. -/
theorem nearestBits_of_small (h₀ : 0 < q) (h : q < 2 ^ (-1075 : ℤ)) : nearestBits q = 0 := by
  have hlog : Int.log 2 q < -1075 := by
    refine (Int.lt_zpow_iff_log_lt (R := ℚ) one_lt_two h₀).mp ?_
    rw [Nat.cast_ofNat]
    exact h
  have hgrid : max (Int.log 2 q - 52) (-1074) = -1074 := max_eq_right (by omega)
  -- the number is less than half of the smallest step there is
  have hhalf : 2 * (q / 2 ^ (-1074 : ℤ)) < 1 := by
    have hpow : (2 : ℚ) ^ (-1074 : ℤ) = 2 * 2 ^ (-1075 : ℤ) := by
      rw [← zpow_one_add₀ two_ne_zero]
      rfl
    rw [← mul_div_assoc, div_lt_one (by positivity), hpow]
    linarith
  have hfloor : ⌊q / 2 ^ (-1074 : ℤ)⌋₊ = 0 := Nat.floor_eq_zero.mpr (by linarith)
  have hround : roundEven (q / 2 ^ (-1074 : ℤ)) = 0 := by
    simp only [roundEven, hfloor, Nat.cast_zero, sub_zero]
    rw [if_pos (.inl hhalf)]
  simp only [nearestBits, if_neg h₀.ne', hgrid, hround]
  rfl

/-! ## Decimal numbers -/

theorem Scaled.val_pos (h : d.coefficient ≠ 0) : 0 < d.val := by
  have : (0 : ℚ) < d.coefficient := by exact_mod_cast Nat.pos_of_ne_zero h
  exact mul_pos this (by positivity)

/-- A scaled number and its quotient have one value. -/
theorem Scaled.val_quotient (d : Scaled) : d.quotient.val = d.val := by
  have hpow := pow_mul_pow_neg (b := 10) (by decide) d.exponent
  simp only [quotient, Quotient.val, val, Nat.cast_mul, Nat.cast_pow, Nat.cast_ofNat] at hpow ⊢
  rw [hpow]
  field_simp

theorem two_pow_1024_le : (2 : ℚ) ^ (1024 : ℤ) ≤ 10 ^ (400 : ℤ) := by
  -- powers of this size are compared by their roots
  have hroot : (2 : ℚ) ^ (64 : ℤ) ≤ 10 ^ (25 : ℤ) := by norm_num
  calc (2 : ℚ) ^ (1024 : ℤ) = (2 ^ (64 : ℤ)) ^ (16 : ℕ) := by
        rw [← zpow_natCast, ← zpow_mul]
        rfl
    _ ≤ (10 ^ (25 : ℤ)) ^ (16 : ℕ) := by gcongr
    _ = 10 ^ (400 : ℤ) := by
        rw [← zpow_natCast, ← zpow_mul]
        rfl

theorem ten_pow_lt_two_pow : (10 : ℚ) ^ (-400 : ℤ) < 2 ^ (-1075 : ℤ) := by
  have hroot : (10 : ℚ) ^ (-16 : ℤ) < 2 ^ (-43 : ℤ) := by norm_num
  calc (10 : ℚ) ^ (-400 : ℤ) = (10 ^ (-16 : ℤ)) ^ (25 : ℕ) := by
        rw [← zpow_natCast, ← zpow_mul]
        rfl
    _ < (2 ^ (-43 : ℤ)) ^ (25 : ℕ) := by gcongr
    _ = 2 ^ (-1075 : ℤ) := by
        rw [← zpow_natCast, ← zpow_mul]
        rfl

/-- The double that a decimal number is read as depends on its value alone. -/
theorem Scaled.bits_eq (d : Scaled) : d.bits = nearestBits d.val := by
  rw [bits]
  split
  · rename_i h
    rw [nearestBits, if_pos (by simp [val, h])]
  · rename_i h
    split
    · rename_i hlarge
      -- at least `10 ^ 400`
      refine (nearestBits_of_large ?_).symm
      have hone : (1 : ℚ) ≤ d.coefficient := by exact_mod_cast Nat.pos_of_ne_zero h
      calc (2 : ℚ) ^ (1024 : ℤ) ≤ 1 * 10 ^ (400 : ℤ) := by
            rw [one_mul]
            exact two_pow_1024_le
        _ ≤ d.coefficient * 10 ^ d.exponent := by
            gcongr
            norm_num
    · split
      · rename_i hsmall
        -- less than `10 ^ -400`
        refine (nearestBits_of_small (val_pos h) ?_).symm
        calc d.val ≤ 10 ^ (d.coefficient.log2 + 1) * 10 ^ d.exponent := by
              have hle : (2 : ℚ) ^ (d.coefficient.log2 + 1) ≤ 10 ^ (d.coefficient.log2 + 1) := by
                gcongr
                norm_num
              rw [val]
              gcongr
              exact (lt_two_pow_log2 _).le.trans hle
          _ = (10 : ℚ) ^ (d.coefficient.log2 + 1 + d.exponent : ℤ) := by
              rw [zpow_add₀ (by norm_num)]
              norm_cast
          _ ≤ 10 ^ (-400 : ℤ) := by
              gcongr
              · norm_num
              · omega
          _ < 2 ^ (-1075 : ℤ) := ten_pow_lt_two_pow
      · rw [Quotient.roundBits_eq (Nat.pow_pos (by decide)), val_quotient]

/-- Zeros that are stripped off do not count. -/
theorem Scaled.val_strip (d : Scaled) : d.strip.val = d.val := by
  fun_induction Scaled.strip d with
  | case1 d h ih =>
    have hdiv : d.coefficient = d.coefficient / 10 * 10 := by omega
    rw [ih, val, val]
    conv_rhs => rw [hdiv]
    rw [zpow_add_one₀ (by norm_num)]
    push_cast
    ring
  | case2 d h => rfl

/-- The exact decimal of a number has its value. -/
theorem Dyadic.val_exact (x : Dyadic) : x.exact.val = x.val := by
  rw [exact, Scaled.val, val]
  split
  · rename_i h
    obtain ⟨n, hn⟩ := Int.eq_ofNat_of_zero_le h
    simp [hn]
  · rename_i h
    obtain ⟨n, hn⟩ := Int.exists_eq_neg_ofNat (le_of_not_ge h)
    simp only [hn, neg_neg, Int.toNat_natCast, Nat.cast_mul, Nat.cast_pow, Nat.cast_ofNat]
    rw [zpow_neg, zpow_neg, zpow_natCast, zpow_natCast, show (10 : ℚ) = 5 * 2 by norm_num,
      mul_pow]
    field_simp

theorem Dyadic.val_quotient (x : Dyadic) : x.quotient.val = x.val := by
  have hpow := pow_mul_pow_neg (b := 2) (by decide) x.exponent
  simp only [quotient, Quotient.val, val, Nat.cast_mul, Nat.cast_pow, Nat.cast_ofNat] at hpow ⊢
  rw [hpow]
  field_simp

/-- The shortest decimal for a finite magnitude reads back to it. -/
theorem bits_shortest (h : bits < infinityBits) : (shortest bits).bits = bits := by
  rw [shortest]
  split
  · rename_i hzero
    exact hzero.symm
  · simp only
    split
    · rename_i d hd
      obtain ⟨n, -, hn⟩ := List.exists_of_findSome?_eq_some hd
      -- a neighbour is taken only if it reads back, and zeros at its end do not count
      rw [Scaled.bits_eq, Scaled.val_strip, ← Scaled.bits_eq]
      exact bits_of_neighbour? hn
    · -- the exact decimal has the value of the double
      rw [Scaled.bits_eq, Dyadic.val_exact, ← Dyadic.val_quotient,
        ← Quotient.roundBits_eq (Nat.two_pow_pos _)]
      exact Quotient.roundBits_ofBits h

end Planetarium.Decimal
