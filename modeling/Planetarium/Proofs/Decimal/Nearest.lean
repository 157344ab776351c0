import Planetarium.Proofs.Decimal.Value
import Mathlib.Algebra.Order.Group.Unbundled.Abs
import Mathlib.Tactic.Linarith

/-!
# Rounding to the nearest double

The doubles that are not negative are counted by their bits.  Above each power of two they lie on a
grid of their own, twice as wide as the one below, so a rational is rounded on the grid of its own
power of two: no other double is nearer, whether it lies on that grid (`roundEven_nearest`) or, with
a smaller exponent, below it.  Of two equally near ones the one with even bits is taken.  The grid
goes on past the greatest finite double for one step, which is where infinity stands, so a number is
rounded to infinity from half of that step on (`overflow`).
-/
namespace Planetarium.Decimal

attribute [local instance] natPow

/-- The number with the given bits; those of infinity count as the next power of two. -/
def magnitude (bits : ℕ) : ℚ := (Dyadic.ofBits bits).val

/-- Halfway between the greatest finite double and the next power of two. -/
def overflow : ℚ := 2 ^ (1024 : ℤ) - 2 ^ (970 : ℤ)

/-- The bits are those of the finite double nearest to a number, of two equally near ones the
even. -/
structure IsNearest (q : ℚ) (bits : ℕ) : Prop where
  finite : bits < infinityBits
  nearest : ∀ b < infinityBits, |magnitude bits - q| ≤ |magnitude b - q|
  even : ∀ b < infinityBits, magnitude b ≠ magnitude bits →
    |magnitude bits - q| = |magnitude b - q| → bits % 2 = 0

variable {q x : ℚ} {b e k m n : ℕ}

/-! ## Rounding to a natural number -/

/-- A number is rounded down below a half and up above it, and at a half to the even neighbour. -/
theorem roundEven_cases (hx : 0 ≤ x) :
    ∃ whole : ℕ, (whole : ℚ) ≤ x ∧ x < whole + 1 ∧
      (roundEven x = whole ∧ 2 * (x - whole) ≤ 1 ∧ (2 * (x - whole) = 1 → whole % 2 = 0) ∨
        roundEven x = whole + 1 ∧ 1 ≤ 2 * (x - whole) ∧ (2 * (x - whole) = 1 → whole % 2 = 1)) := by
  refine ⟨⌊x⌋₊, Nat.floor_le hx, Nat.lt_floor_add_one x, ?_⟩
  simp only [roundEven]
  split
  · rename_i h
    rcases h with hbelow | ⟨hhalf, heven⟩
    · exact .inl ⟨rfl, hbelow.le, fun hhalf => absurd hhalf hbelow.ne⟩
    · exact .inl ⟨rfl, hhalf.le, fun _ => heven⟩
  · rename_i h
    rw [not_or, not_and] at h
    exact .inr ⟨rfl, not_lt.mp h.1, fun hhalf => Nat.mod_two_ne_zero.mp (h.2 hhalf)⟩

/-- Rounding is off by at most one half. -/
theorem abs_roundEven_sub_le (hx : 0 ≤ x) : |(roundEven x : ℚ) - x| ≤ 1 / 2 := by
  obtain ⟨whole, hlow, hhigh, ⟨h, hhalf, -⟩ | ⟨h, hhalf, -⟩⟩ := roundEven_cases hx
  · rw [h, abs_of_nonpos (by linarith)]
    linarith
  · rw [h, Nat.cast_add_one, abs_of_nonneg (by linarith)]
    linarith

/-- Half way between two numbers the even one is taken. -/
theorem roundEven_even (hx : 0 ≤ x) (h : |(roundEven x : ℚ) - x| = 1 / 2) :
    roundEven x % 2 = 0 := by
  obtain ⟨whole, hlow, hhigh, ⟨hdown, -, heven⟩ | ⟨hup, -, hodd⟩⟩ := roundEven_cases hx
  · rw [hdown, abs_of_nonpos (by linarith)] at h
    rw [hdown]
    exact heven (by linarith)
  · rw [hup, Nat.cast_add_one, abs_of_nonneg (by linarith)] at h
    have := hodd (by linarith)
    omega

/-- Two natural numbers are not both nearer than a half. -/
theorem one_le_abs_add_abs (h : k ≠ n) : 1 ≤ |(n : ℚ) - x| + |(k : ℚ) - x| := by
  have hint : 1 ≤ |(n : ℤ) - k| := Int.one_le_abs (by omega)
  have hrat : (1 : ℚ) ≤ |(n : ℚ) - k| := by exact_mod_cast hint
  calc (1 : ℚ) ≤ |((n : ℚ) - x) - ((k : ℚ) - x)| := by rwa [sub_sub_sub_cancel_right]
    _ ≤ |(n : ℚ) - x| + |(k : ℚ) - x| := abs_sub _ _

/-- No natural number is nearer. -/
theorem roundEven_nearest (hx : 0 ≤ x) (k : ℕ) : |(roundEven x : ℚ) - x| ≤ |(k : ℚ) - x| := by
  by_cases hk : k = roundEven x
  · rw [hk]
  · have hsum := one_le_abs_add_abs (x := x) hk
    have hhalf := abs_roundEven_sub_le hx
    linarith

theorem roundEven_tie (hx : 0 ≤ x) (hk : k ≠ roundEven x)
    (htie : |(roundEven x : ℚ) - x| = |(k : ℚ) - x|) : roundEven x % 2 = 0 := by
  have hsum := one_le_abs_add_abs (x := x) hk
  have hhalf := abs_roundEven_sub_le hx
  exact roundEven_even hx (by linarith)

theorem roundEven_le (hx : 0 ≤ x) (h : x ≤ n) : roundEven x ≤ n := by
  have hnear := roundEven_nearest hx n
  rw [abs_of_nonneg (sub_nonneg.mpr h)] at hnear
  have hle : (roundEven x : ℚ) ≤ n := by linarith [le_abs_self ((roundEven x : ℚ) - x)]
  exact_mod_cast hle

theorem le_roundEven_of_le (h : (n : ℚ) ≤ x) : n ≤ roundEven x :=
  (Nat.le_floor h).trans (le_roundEven x)

/-! ## Doubles by their exponents -/

/-- Below the first binade the numbers are the multiples of the smallest one. -/
theorem magnitude_of_lt (h : n < binade) : magnitude n = n * 2 ^ (-1074 : ℤ) := by
  rw [magnitude, Dyadic.ofBits, if_pos h, Dyadic.val]

/-- From there on a binade has its own step. -/
theorem magnitude_of_le (h : binade ≤ n) :
    magnitude n = (binade + n % binade : ℕ) * 2 ^ ((n / binade : ℕ) - 1075 : ℤ) := by
  rw [magnitude, Dyadic.ofBits, if_neg (Nat.not_lt.mpr h), Dyadic.val]

/-- Numbers of one exponent, and the next power of two after them, lie on one grid. -/
theorem magnitude_grid (he : e = 0 ∨ binade ≤ m) (hm : m ≤ 2 * binade) :
    magnitude (e * binade + m) = m * 2 ^ ((e : ℤ) - 1074) := by
  rcases Nat.lt_or_ge m binade with hlt | hge
  · obtain rfl : e = 0 := he.resolve_right (Nat.not_le.mpr hlt)
    rw [Nat.zero_mul, Nat.zero_add, magnitude_of_lt hlt]
    simp
  · rw [magnitude_of_le (Nat.le_add_left_of_le hge)]
    rcases hm.lt_or_eq with hlt | rfl
    · have hdiv : (e * binade + m) / binade = e + 1 := by
        simp only [binade_eq] at *
        omega
      have hmod : binade + (e * binade + m) % binade = m := by
        simp only [binade_eq] at *
        omega
      rw [hdiv, hmod]
      congr 2
      push_cast
      ring
    · -- the next power of two is the first number of the next exponent
      have hdiv : (e * binade + 2 * binade) / binade = e + 2 := by
        simp only [binade_eq] at *
        omega
      have hmod : binade + (e * binade + 2 * binade) % binade = binade := by
        simp only [binade_eq] at *
        omega
      have hexponent : ((e + 2 : ℕ) : ℤ) - 1075 = (e : ℤ) - 1074 + 1 := by
        push_cast
        ring
      rw [hdiv, hmod, hexponent, zpow_add_one₀ two_ne_zero]
      push_cast
      ring

/-- Bits are an exponent and a significand, normal or with the least exponent. -/
theorem exists_exponent (b : ℕ) :
    ∃ e m, b = e * binade + m ∧ (e = 0 ∨ binade ≤ m) ∧ m < 2 * binade := by
  refine ⟨b / binade - 1, b - (b / binade - 1) * binade, ?_⟩
  simp only [binade_eq]
  omega

/-- Every number lies on the grid of an exponent, or below all numbers of that exponent. -/
theorem magnitude_cases (b e : ℕ) : (∃ k : ℕ, magnitude b = k * 2 ^ ((e : ℤ) - 1074)) ∨
    e ≠ 0 ∧ magnitude b < binade * 2 ^ ((e : ℤ) - 1074) := by
  obtain ⟨f, m, rfl, hf, hm⟩ := exists_exponent b
  rw [magnitude_grid hf hm.le]
  rcases Nat.lt_or_ge f e with hlt | hge
  · refine .inr ⟨by omega, ?_⟩
    have hcast : (m : ℚ) < 2 * binade := by exact_mod_cast hm
    calc (m : ℚ) * 2 ^ ((f : ℤ) - 1074) < 2 * binade * 2 ^ ((f : ℤ) - 1074) := by gcongr
      _ = binade * 2 ^ ((f : ℤ) - 1074 + 1) := by
          rw [zpow_add_one₀ two_ne_zero]
          ring
      _ ≤ binade * 2 ^ ((e : ℤ) - 1074) := by
          gcongr
          · norm_num
          · omega
  · refine .inl ⟨m * 2 ^ (f - e), ?_⟩
    rw [Nat.cast_mul, Nat.cast_pow, Nat.cast_ofNat, mul_assoc, ← zpow_natCast,
      ← zpow_add₀ two_ne_zero]
    congr 2
    omega

/-! ## Rounding to a double -/

/-- The exponent of the grid on which a number is rounded, counted from the smallest. -/
def gridExponent (q : ℚ) : ℕ := (max (Int.log 2 q - 52) (-1074) + 1074).toNat

/-- A number in steps of the grid on which it is rounded. -/
def inSteps (q : ℚ) : ℚ := q / 2 ^ ((gridExponent q : ℤ) - 1074)

/-- The nearest number is a rounded number of steps on its grid. -/
theorem nearestBits_eq (hq : 0 < q) :
    nearestBits q = min (gridExponent q * binade + roundEven (inSteps q)) infinityBits := by
  have hgrid : (gridExponent q : ℤ) - 1074 = max (Int.log 2 q - 52) (-1074) := by
    rw [gridExponent]
    omega
  rw [nearestBits, if_neg hq.ne', inSteps, hgrid]
  rfl

/-- As many steps as there are make up the number. -/
theorem inSteps_mul (q : ℚ) : inSteps q * 2 ^ ((gridExponent q : ℤ) - 1074) = q :=
  div_mul_cancel₀ _ (by positivity)

theorem inSteps_nonneg (hq : 0 < q) : 0 ≤ inSteps q := div_nonneg hq.le (by positivity)

/-- A number is below the next power of two. -/
theorem inSteps_le (q : ℚ) : inSteps q ≤ (2 * binade : ℕ) := by
  have hlt : q < 2 ^ (Int.log 2 q + 1) := Int.lt_zpow_succ_log_self one_lt_two q
  have hgrid : Int.log 2 q + 1 ≤ 53 + ((gridExponent q : ℤ) - 1074) := by
    rw [gridExponent]
    omega
  rw [inSteps, div_le_iff₀ (by positivity)]
  calc q ≤ 2 ^ (Int.log 2 q + 1) := hlt.le
    _ ≤ 2 ^ (53 + ((gridExponent q : ℤ) - 1074)) := zpow_le_zpow_right₀ one_le_two hgrid
    _ = (2 * binade : ℕ) * 2 ^ ((gridExponent q : ℤ) - 1074) := by
        rw [zpow_add₀ two_ne_zero]
        norm_num [binade_eq]

/-- A number on a grid that is not the smallest has at least a binade of its steps. -/
theorem binade_le_inSteps (hq : 0 < q) (h : gridExponent q ≠ 0) : (binade : ℚ) ≤ inSteps q := by
  have hle : (2 : ℚ) ^ Int.log 2 q ≤ q := Int.zpow_log_le_self one_lt_two hq
  have hgrid : Int.log 2 q = 52 + ((gridExponent q : ℤ) - 1074) := by
    rw [gridExponent] at h ⊢
    omega
  rw [inSteps, le_div_iff₀ (by positivity)]
  calc (binade : ℚ) * 2 ^ ((gridExponent q : ℤ) - 1074) = 2 ^ Int.log 2 q := by
        rw [hgrid, zpow_add₀ two_ne_zero]
        norm_num [binade_eq]
    _ ≤ q := hle

/-- The double on its grid that a number is rounded to, infinity aside. -/
theorem magnitude_rounded (hq : 0 < q) :
    magnitude (gridExponent q * binade + roundEven (inSteps q)) =
      roundEven (inSteps q) * 2 ^ ((gridExponent q : ℤ) - 1074) := by
  refine magnitude_grid ?_ (roundEven_le (inSteps_nonneg hq) (inSteps_le q))
  by_cases he : gridExponent q = 0
  · exact .inl he
  · exact .inr (le_roundEven_of_le (binade_le_inSteps hq he))

/-- Distances from a number are distances in steps of its grid, times the step. -/
theorem abs_mul_sub (q y : ℚ) : |y * 2 ^ ((gridExponent q : ℤ) - 1074) - q| =
    |y - inSteps q| * 2 ^ ((gridExponent q : ℤ) - 1074) := by
  have hstep : (0 : ℚ) < 2 ^ ((gridExponent q : ℤ) - 1074) := by positivity
  calc |y * 2 ^ ((gridExponent q : ℤ) - 1074) - q|
      = |(y - inSteps q) * 2 ^ ((gridExponent q : ℤ) - 1074)| := by rw [sub_mul, inSteps_mul]
    _ = |y - inSteps q| * 2 ^ ((gridExponent q : ℤ) - 1074) := by rw [abs_mul, abs_of_pos hstep]

/-- No double is nearer than the one on the grid, and if another is as near the one on the grid is
even. -/
theorem rounded_nearest (hq : 0 < q) (b : ℕ) :
    |magnitude (gridExponent q * binade + roundEven (inSteps q)) - q| ≤ |magnitude b - q| ∧
    (magnitude b ≠ magnitude (gridExponent q * binade + roundEven (inSteps q)) →
      |magnitude (gridExponent q * binade + roundEven (inSteps q)) - q| = |magnitude b - q| →
      (gridExponent q * binade + roundEven (inSteps q)) % 2 = 0) := by
  have hstep : (0 : ℚ) < 2 ^ ((gridExponent q : ℤ) - 1074) := by positivity
  have hx : 0 ≤ inSteps q := inSteps_nonneg hq
  rw [magnitude_rounded hq, abs_mul_sub]
  rcases magnitude_cases b (gridExponent q) with ⟨k, hk⟩ | ⟨he, hbelow⟩
  · rw [hk, abs_mul_sub]
    refine ⟨mul_le_mul_of_nonneg_right (roundEven_nearest hx k) hstep.le, fun hne htie => ?_⟩
    have hother : k ≠ roundEven (inSteps q) := fun h => hne (by rw [h])
    have heven := roundEven_tie hx hother (mul_right_cancel₀ hstep.ne' htie)
    simp only [binade_eq]
    omega
  · -- the grid begins between such a double and the number, and even its first number is nearer
    have hgrid : (binade : ℚ) ≤ inSteps q := binade_le_inSteps hq he
    have hfirst := roundEven_nearest hx binade
    have hlt : |(roundEven (inSteps q) : ℚ) - inSteps q| * 2 ^ ((gridExponent q : ℤ) - 1074) <
        |magnitude b - q| := by
      calc |(roundEven (inSteps q) : ℚ) - inSteps q| * 2 ^ ((gridExponent q : ℤ) - 1074)
          ≤ |(binade : ℚ) - inSteps q| * 2 ^ ((gridExponent q : ℤ) - 1074) := by gcongr
        _ = q - binade * 2 ^ ((gridExponent q : ℤ) - 1074) := by
            rw [abs_of_nonpos (by linarith), neg_sub, sub_mul, inSteps_mul]
        _ < q - magnitude b := by linarith
        _ ≤ |magnitude b - q| := by
            rw [abs_sub_comm]
            exact le_abs_self _
    exact ⟨hlt.le, fun _ htie => absurd htie hlt.ne⟩

/-! ## Numbers out of range -/

theorem roundEven_lt (hx : 0 ≤ x) (h : x < n - 1 / 2) : roundEven x < n := by
  have hhalf := (abs_le.mp (abs_roundEven_sub_le hx)).2
  have hlt : (roundEven x : ℚ) < n := by linarith
  exact_mod_cast hlt

theorem le_roundEven_of_even (hx : 0 ≤ x) (hn : n % 2 = 0) (h : n - 1 / 2 ≤ x) :
    n ≤ roundEven x := by
  by_contra hlt
  have hhalf := abs_le.mp (abs_roundEven_sub_le hx)
  have hbelow : (roundEven x : ℚ) + 1 ≤ n := by exact_mod_cast Nat.lt_of_not_le hlt
  -- only the number next below is near enough, and it is odd
  have hnext : (roundEven x : ℚ) + 1 = n := by linarith
  have hnext : roundEven x + 1 = n := by exact_mod_cast hnext
  have heven : roundEven x % 2 = 0 := by
    refine roundEven_even hx ?_
    rw [abs_of_nonpos (by linarith)]
    linarith
  omega

/-- What overflows begins half a step beyond the greatest number. -/
theorem overflow_eq : overflow = ((2 * binade : ℕ) - 1 / 2) * 2 ^ (971 : ℤ) := by
  have hpower : (2 : ℚ) ^ (1024 : ℤ) = 2 ^ (53 : ℤ) * 2 ^ (971 : ℤ) := by
    rw [← zpow_add₀ two_ne_zero]
    rfl
  have hhalf : (2 : ℚ) ^ (970 : ℤ) = 2 ^ (-1 : ℤ) * 2 ^ (971 : ℤ) := by
    rw [← zpow_add₀ two_ne_zero]
    rfl
  rw [overflow, hpower, hhalf, ← sub_mul]
  norm_num [binade_eq]

/-- A number is rounded past the greatest finite double from half a step past it on. -/
theorem infinityBits_le_rounded_iff (hq : 0 < q) :
    infinityBits ≤ gridExponent q * binade + roundEven (inSteps q) ↔ overflow ≤ q := by
  have hx : 0 ≤ inSteps q := inSteps_nonneg hq
  have hle := roundEven_le hx (inSteps_le q)
  have hone : (1 : ℚ) ≤ binade := by exact_mod_cast binade_pos
  have hinfinity : infinityBits = 2047 * binade := rfl
  have hvalue := inSteps_mul q
  rcases lt_trichotomy (gridExponent q) 2045 with he | he | he
  · -- with a smaller exponent the number is at most a power of two
    refine iff_of_false ?_ (not_le.mpr ?_)
    · have := Nat.mul_le_mul_right binade (Nat.le_of_lt_succ he)
      simp only [binade_eq] at *
      omega
    · calc q = inSteps q * 2 ^ ((gridExponent q : ℤ) - 1074) := hvalue.symm
        _ ≤ (2 * binade : ℕ) * 2 ^ (970 : ℤ) := by
            refine mul_le_mul (inSteps_le q) ?_ (by positivity) (by positivity)
            exact zpow_le_zpow_right₀ one_le_two (by omega)
        _ = binade * 2 ^ (971 : ℤ) := by
            rw [show (971 : ℤ) = 970 + 1 from rfl, zpow_add_one₀ two_ne_zero]
            generalize (2 : ℚ) ^ (970 : ℤ) = step
            push_cast
            ring
        _ < overflow := by
            rw [overflow_eq]
            refine mul_lt_mul_of_pos_right ?_ (by positivity)
            push_cast
            linarith
  · -- with the greatest exponent it comes to the steps
    have hvalue : inSteps q * 2 ^ (971 : ℤ) = q := by
      rwa [he] at hvalue
    have hsteps : overflow ≤ q ↔ ((2 * binade : ℕ) : ℚ) - 1 / 2 ≤ inSteps q := by
      have hstep : (0 : ℚ) < 2 ^ (971 : ℤ) := by positivity
      conv_lhs => rw [overflow_eq, ← hvalue]
      exact mul_le_mul_iff_left₀ hstep
    have hround : 2 * binade ≤ roundEven (inSteps q) ↔
        ((2 * binade : ℕ) : ℚ) - 1 / 2 ≤ inSteps q := by
      refine ⟨fun h => not_lt.mp fun hlt => ?_, le_roundEven_of_even hx (by omega)⟩
      exact absurd (roundEven_lt hx hlt) (Nat.not_lt.mpr h)
    rw [hsteps, ← hround, he]
    omega
  · -- beyond it every number is too great
    have hge : (binade : ℚ) ≤ inSteps q := binade_le_inSteps hq (by omega)
    refine iff_of_true ?_ ?_
    · have := Nat.mul_le_mul_right binade (Nat.succ_le_of_lt he)
      have := le_roundEven_of_le hge
      simp only [binade_eq] at *
      omega
    · calc overflow ≤ (2 * binade : ℕ) * 2 ^ (971 : ℤ) := by
            rw [overflow_eq]
            refine mul_le_mul_of_nonneg_right ?_ (by positivity)
            linarith
        _ = binade * 2 ^ (972 : ℤ) := by
            rw [show (972 : ℤ) = 971 + 1 from rfl, zpow_add_one₀ two_ne_zero]
            generalize (2 : ℚ) ^ (971 : ℤ) = step
            push_cast
            ring
        _ ≤ inSteps q * 2 ^ ((gridExponent q : ℤ) - 1074) := by
            refine mul_le_mul hge ?_ (by positivity) hx
            exact zpow_le_zpow_right₀ one_le_two (by omega)
        _ = q := hvalue

theorem overflow_pos : 0 < overflow := by
  have hone : (1 : ℚ) ≤ binade := by exact_mod_cast binade_pos
  rw [overflow_eq]
  refine mul_pos ?_ (by positivity)
  push_cast
  linarith

/-- A number is rounded to infinity from halfway past the greatest finite double on. -/
theorem nearestBits_eq_infinityBits_iff (hq : 0 ≤ q) :
    nearestBits q = infinityBits ↔ overflow ≤ q := by
  rcases hq.eq_or_lt with rfl | hpos
  · exact iff_of_false (by decide) (not_le.mpr overflow_pos)
  · rw [nearestBits_eq hpos, min_eq_right_iff, infinityBits_le_rounded_iff hpos]

/-- **Any other number is rounded to the nearest finite double.** -/
theorem isNearest_nearestBits (hq : 0 ≤ q) (h : q < overflow) : IsNearest q (nearestBits q) := by
  rcases hq.eq_or_lt with rfl | hpos
  · have hzero : magnitude (nearestBits 0) = 0 := by
      rw [nearestBits, if_pos rfl, magnitude_of_lt binade_pos, Nat.cast_zero, zero_mul]
    refine ⟨by decide, fun b _ => ?_, fun _ _ _ _ => rfl⟩
    rw [hzero, sub_zero, abs_zero]
    exact abs_nonneg _
  · have hfinite : gridExponent q * binade + roundEven (inSteps q) < infinityBits :=
      not_le.mp fun hle => not_le.mpr h ((infinityBits_le_rounded_iff hpos).mp hle)
    rw [nearestBits_eq hpos, min_eq_left hfinite.le]
    exact ⟨hfinite, fun b _ => (rounded_nearest hpos b).1, fun b _ => (rounded_nearest hpos b).2⟩

end Planetarium.Decimal
