import Planetarium.Decimal.Notation
import Planetarium.Proofs.Decimal.Numeral
import Planetarium.Proofs.Decimal.Value
import Mathlib

/-!
# Numbers that are written are read back

Digits laid out in a style are a numeral, whatever the style: with the digits and the exponent of
the first of them, it stands for the number they came from (`spells_layout`).  So the shortest text
of a finite double is read back as that very double, sign included.
-/
namespace Planetarium.Decimal
open Parsing

attribute [local instance] natPow

variable {t ds whole fraction : List Char} {c : Char} {power : Option PowerOfTen}

/-! ## Digits laid out -/

/-- A proper numeral without a sign that is written as a text and stands for a rational. -/
structure Spells (n : Numeral) (text : List Char) (q : ℚ) : Prop where
  proper : n.Proper
  sign_eq : n.sign = none
  text_eq : n.text = text
  dots_le : n.dots ≤ 1
  val_eq : n.magnitude.val = q

/-- What a power of ten adds to the exponent. -/
def shiftOf (power : Option PowerOfTen) : ℤ := (power.map PowerOfTen.exponent).getD 0

theorem proper_none : ∀ p ∈ (none : Option PowerOfTen), p.Proper := nofun

theorem filter_isDigit (h : ds.all isDigit) : ds.filter isDigit = ds :=
  List.filter_eq_self.mpr (List.all_eq_true.mp h)

theorem ne_dot_of_isDigit (h : isDigit c) : c ≠ '.' := by
  rintro rfl
  exact absurd h (by decide)

theorem count_dot (h : ds.all isDigit) : ds.count '.' = 0 :=
  List.count_eq_zero.mpr fun hmem => ne_dot_of_isDigit (List.all_eq_true.mp h _ hmem) rfl

theorem any_isDigit (h : ds.all isDigit) (hne : ds ≠ []) : ds.any isDigit := by
  obtain ⟨d, ds, rfl⟩ := List.exists_cons_of_ne_nil hne
  rw [List.any_cons, List.all_eq_true.mp h d List.mem_cons_self, Bool.true_or]

/-- Digits alone are spelled without a dot. -/
theorem spells_whole (hds : ds.all isDigit) (hne : ds ≠ []) (hp : ∀ p ∈ power, p.Proper) :
    Spells ⟨none, ds, power⟩ (ds ++ (power.map PowerOfTen.text).getD [])
      (value ds * 10 ^ shiftOf power) where
  proper := ⟨nofun, all_isRunChar hds, any_isDigit hds hne, hp⟩
  sign_eq := rfl
  text_eq := rfl
  dots_le := by simp [Numeral.dots, count_dot hds]
  val_eq := by
    have hdrop : ds.dropWhile (· != '.') = [] := by
      rw [List.dropWhile_eq_nil_iff]
      exact fun c hc => by simpa using ne_dot_of_isDigit (List.all_eq_true.mp hds c hc)
    simp [Scaled.val, Numeral.magnitude, Numeral.places, hdrop, filter_isDigit hds, shiftOf]

/-- Digits with a dot among them are spelled with it. -/
theorem spells_point (hw : whole.all isDigit) (hf : fraction.all isDigit) (hne : whole ≠ [])
    (hp : ∀ p ∈ power, p.Proper) :
    Spells ⟨none, whole ++ '.' :: fraction, power⟩
      (whole ++ '.' :: fraction ++ (power.map PowerOfTen.text).getD [])
      (value (whole ++ fraction) * 10 ^ (shiftOf power - fraction.length)) where
  proper := by
    refine ⟨nofun, ?_, ?_, hp⟩
    · simp [all_isRunChar hw, all_isRunChar hf, isRunChar]
    · simp [any_isDigit hw hne]
  sign_eq := rfl
  text_eq := rfl
  dots_le := by simp [Numeral.dots, count_dot hw, count_dot hf]
  val_eq := by
    have hdrop : (whole ++ '.' :: fraction).dropWhile (· != '.') = '.' :: fraction := by
      rw [List.dropWhile_append_of_pos fun c hc => by
        simpa using ne_dot_of_isDigit (List.all_eq_true.mp hw c hc)]
      rfl
    have hdot : isDigit '.' = false := by decide
    simp [Scaled.val, Numeral.magnitude, Numeral.places, hdrop, filter_isDigit hw,
      filter_isDigit hf, hdot, shiftOf]

/-- The power of ten that `exponentText` writes. -/
def powerOf (e : ℤ) : PowerOfTen :=
  ⟨'e', some (if e < 0 then '-' else '+'),
    if (digits e.natAbs).length < 2 then '0' :: digits e.natAbs else digits e.natAbs⟩

theorem powerOf_proper (e : ℤ) : (powerOf e).Proper where
  mark := rfl
  sign := by
    rintro c hc
    obtain rfl := Option.some.inj hc
    split <;> rfl
  digits_ne_nil := by
    simp only [powerOf]
    split
    · simp
    · exact digits_ne_nil _
  digits := by
    have := all_isDigit_digits e.natAbs
    simp only [powerOf]
    split
    · rw [List.all_cons, this]
      rfl
    · exact this

/-- The power of ten that is written is the one that is read. -/
theorem exponent_powerOf (e : ℤ) : (powerOf e).exponent = e := by
  have hvalue : value (powerOf e).digits = e.natAbs := by
    have hzero : value ('0' :: digits e.natAbs) = value (digits e.natAbs) := by
      simp [value, digitValue]
    simp only [powerOf]
    split
    · rw [hzero, value_digits]
    · rw [value_digits]
  rw [PowerOfTen.exponent, hvalue]
  by_cases he : e < 0
  · rw [if_pos (by simp [powerOf, he])]
    omega
  · rw [if_neg (by simp [powerOf, he])]
    omega

theorem Spells.cast {n : Numeral} {text text' : List Char} {q q' : ℚ} (h : Spells n text q)
    (ht : text = text') (hq : q = q') : Spells n text' q' := by
  subst ht hq
  exact h

theorem pointed_of_le {k : ℕ} (h : ds.length ≤ k) : pointed k ds = ds := by
  rw [pointed, List.drop_eq_nil_of_le h]

theorem pointed_of_lt {k : ℕ} (h : k < ds.length) :
    pointed k ds = ds.take k ++ '.' :: ds.drop k := by
  have hne : ds.drop k ≠ [] := by simpa using h
  obtain ⟨d, rest, hdrop⟩ := List.exists_cons_of_ne_nil hne
  rw [pointed, hdrop]

/-- Digits with a point after the first of them, or without one, and a power of ten. -/
theorem exists_spells_pointed {k : ℕ} (hds : ds.all isDigit) (hne : ds ≠ []) (hk : 0 < k)
    (hp : ∀ p ∈ power, p.Proper) (hwhole : ds.length ≤ k → ds.length = k) :
    ∃ n, Spells n (pointed k ds ++ (power.map PowerOfTen.text).getD [])
      (value ds * 10 ^ (shiftOf power + k - ds.length)) := by
  by_cases hlength : k < ds.length
  · have hmem : ∀ c ∈ ds, isDigit c := List.all_eq_true.mp hds
    have htake : (ds.take k).all isDigit :=
      List.all_eq_true.mpr fun c hc => hmem c (List.mem_of_mem_take hc)
    have hdrop : (ds.drop k).all isDigit :=
      List.all_eq_true.mpr fun c hc => hmem c (List.mem_of_mem_drop hc)
    have htakene : ds.take k ≠ [] := by
      rw [Ne, List.take_eq_nil_iff]
      rintro (rfl | rfl)
      · exact absurd hk (by decide)
      · exact hne rfl
    refine ⟨_, (spells_point htake hdrop htakene hp).cast ?_ ?_⟩
    · rw [pointed_of_lt hlength]
    · rw [List.take_append_drop, List.length_drop]
      congr 2
      omega
  · have hlength : ds.length ≤ k := Nat.le_of_not_lt hlength
    refine ⟨_, (spells_whole hds hne hp).cast ?_ ?_⟩
    · rw [pointed_of_le hlength]
    · rw [hwhole hlength]
      congr 2
      omega

/-- Digits behind the point, with zeros before them. -/
theorem exists_spells_fraction (hds : ds.all isDigit) (k : ℕ) :
    ∃ n, Spells n ('0' :: '.' :: List.replicate k '0' ++ ds)
      (value ds * 10 ^ (-k - ds.length : ℤ)) := by
  have hfraction : (List.replicate k '0' ++ ds).all isDigit := by
    rw [List.all_append, all_isDigit_replicate, hds]
    rfl
  have hwhole : ['0'].all isDigit := rfl
  refine ⟨_, (spells_point hwhole hfraction nofun proper_none).cast ?_ ?_⟩
  · simp
  · have hzero : value ['0'] = 0 := rfl
    rw [value_append, value_append, value_replicate_zero, hzero, List.length_append,
      List.length_replicate, shiftOf]
    simp only [zero_mul, zero_add, Option.map_none, Option.getD_none]
    congr 2
    omega

/-- Digits before the point, with zeros behind them. -/
theorem exists_spells_zeros (point : Bool) (hds : ds.all isDigit) (hne : ds ≠ []) (k : ℕ) :
    ∃ n, Spells n (ds ++ List.replicate k '0' ++ (if point then ['.', '0'] else []))
      (value ds * 10 ^ (k : ℤ)) := by
  have hzeros : (ds ++ List.replicate k '0').all isDigit := by
    rw [List.all_append, all_isDigit_replicate, hds]
    rfl
  have hzerosne : ds ++ List.replicate k '0' ≠ [] := by simp [hne]
  cases point with
  | true =>
    have hfraction : ['0'].all isDigit := rfl
    refine ⟨_, (spells_point hzeros hfraction hzerosne proper_none).cast ?_ ?_⟩
    · simp
    · have hzero : value ['0'] = 0 := rfl
      rw [value_append, value_append, value_replicate_zero, hzero, List.length_replicate, shiftOf]
      simp
  | false =>
    refine ⟨_, (spells_whole hzeros hzerosne proper_none).cast ?_ ?_⟩
    · simp
    · rw [value_append, value_replicate_zero, List.length_replicate, shiftOf]
      simp

/-- Digits that are laid out are a numeral for the number they are the digits of. -/
theorem spells_layout (style : Style) (hds : ds.all isDigit) (hne : ds ≠ []) (e : ℤ) :
    ∃ n, Spells n (style.layout ds e) (value ds * 10 ^ (e + 1 - ds.length)) := by
  have hlength := List.length_pos_iff.mpr hne
  rw [Style.layout]
  split
  · split
    · -- the first digit is behind the point
      obtain ⟨n, hn⟩ := exists_spells_fraction hds (-e - 1).toNat
      refine ⟨n, hn.cast rfl ?_⟩
      congr 2
      omega
    · simp only
      split
      · -- all digits are before the point
        obtain ⟨n, hn⟩ := exists_spells_zeros style.pointZero hds hne ((e + 1).toNat - ds.length)
        refine ⟨n, hn.cast rfl ?_⟩
        congr 2
        omega
      · -- the point is among the digits
        have hwhole : 0 < (e + 1).toNat := by omega
        obtain ⟨n, hn⟩ := exists_spells_pointed hds hne hwhole proper_none (by omega)
        refine ⟨n, hn.cast ?_ ?_⟩
        · simp
        · rw [shiftOf, Int.toNat_of_nonneg (by omega)]
          simp
  · -- the point is behind the first digit, and the exponent is in a power of ten
    have hpower : ∀ p ∈ some (powerOf e), p.Proper := by
      rintro p ⟨⟩
      exact powerOf_proper e
    obtain ⟨n, hn⟩ := exists_spells_pointed hds hne one_pos hpower (by omega)
    refine ⟨n, hn.cast rfl ?_⟩
    rw [shiftOf, Option.map_some, Option.getD_some, exponent_powerOf, Nat.cast_one]

/-- A decimal that is written in a style is a numeral for its value. -/
theorem spells_scaled (style : Style) (d : Scaled) : ∃ n, Spells n (style.scaled d) d.val := by
  obtain ⟨n, hn⟩ := spells_layout style (all_isDigit_digits d.coefficient) (digits_ne_nil _)
    (d.exponent + (digits d.coefficient).length - 1)
  refine ⟨n, hn.cast rfl ?_⟩
  rw [value_digits, Scaled.val]
  congr 2
  omega

/-! ## Signs -/

/-- The numeral behind a minus sign, or without a sign. -/
def Numeral.signed (negative : Bool) (n : Numeral) : Numeral :=
  { n with sign := if negative then some '-' else none }

section Signs
variable {n : Numeral} {text : List Char} {q : ℚ} (negative : Bool)

theorem Spells.proper_signed (h : Spells n text q) : (n.signed negative).Proper where
  sign := by
    intro c hc
    cases negative with
    | true =>
      obtain rfl := Option.some.inj hc
      rfl
    | false => contradiction
  run := h.proper.run
  digit := h.proper.digit
  power := h.proper.power

/-- A numeral with a sign is spelled with it. -/
theorem Spells.text_signed (h : Spells n text q) :
    (n.signed negative).text = signed negative text := by
  have hplain : n.text = n.run ++ (n.power.map PowerOfTen.text).getD [] := by
    rw [Numeral.text, h.sign_eq]
    rfl
  rw [← h.text_eq, hplain]
  cases negative <;> rfl

/-- A numeral that is spelled is read as what is nearest to its value. -/
theorem Spells.float?_signed (h : Spells n text q) :
    (n.signed negative).float? = some (ofMagnitude negative (nearestBits q)) := by
  have hsign : decide ((n.signed negative).sign = some '-') = negative := by
    cases negative <;> rfl
  have hval : (n.signed negative).magnitude.val = q := h.val_eq
  have hdots : ¬ 1 < (n.signed negative).dots := Nat.not_lt.mpr h.dots_le
  rw [Numeral.float?, if_neg hdots, Scaled.float, Scaled.bits_eq, hval, hsign]

end Signs

/-- The sign and the magnitude make up the whole double. -/
theorem ofMagnitude_toBits (x : Float) :
    ofMagnitude (decide (signBit ≤ x.toBits.toNat)) (x.toBits.toNat % signBit) = x := by
  have hbits : (if decide (signBit ≤ x.toBits.toNat) then signBit + x.toBits.toNat % signBit
      else x.toBits.toNat % signBit) = x.toBits.toNat := by
    have := x.toBits.toNat_lt
    by_cases hneg : signBit ≤ x.toBits.toNat
    · rw [if_pos (decide_eq_true hneg)]
      simp only [signBit] at *
      omega
    · rw [if_neg (by simpa using hneg), Nat.mod_eq_of_lt (Nat.lt_of_not_le hneg)]
  rw [ofMagnitude, hbits, UInt64.ofNat_toNat, Float.ofBits_toBits]

/-- A finite double is determined by its sign and the bits of its magnitude. -/
theorem ofMagnitude_of_finite {x : Float} {negative : Bool} {bits : Nat}
    (h : Binary.ofFloat x = .finite negative bits) :
    ofMagnitude negative bits = x ∧ bits < infinityBits := by
  simp only [Binary.ofFloat] at h
  split at h
  · contradiction
  · split at h
    · contradiction
    · obtain ⟨rfl, rfl⟩ := Binary.finite.inj h
      exact ⟨ofMagnitude_toBits x, by omega⟩

/-- An infinity is determined by its sign. -/
theorem ofMagnitude_of_infinity {x : Float} {negative : Bool}
    (h : Binary.ofFloat x = .infinity negative) : ofMagnitude negative infinityBits = x := by
  simp only [Binary.ofFloat] at h
  split at h
  · contradiction
  · split at h
    · rename_i hinf
      obtain rfl := Binary.infinity.inj h
      rw [← hinf, ofMagnitude_toBits]
    · contradiction

/-- A word is kept by the double made of it, unless it is the word of a NaN. -/
theorem toBits_ofBits {w : UInt64} (h : w.toNat % signBit ≤ infinityBits) :
    (Float.ofBits w).toBits = w := by
  -- only among the words of NaNs one is chosen
  have hvalid : Float.Model.Format.binary64.Valid w.toBitVec := by
    refine ⟨fun hexponent hmantissa => absurd ?_ hmantissa⟩
    have he : w.toNat / 2 ^ 52 % 2 ^ 11 = 2047 := by
      simpa [Float.Model.UnpackedFloat.unpackExponent, BitVec.extractLsb, ← BitVec.toNat_inj,
        Nat.shiftRight_eq_div_pow] using hexponent
    have hm : w.toNat % 2 ^ 52 = 0 := by
      simp only [signBit, infinityBits] at h
      omega
    simpa [Float.Model.UnpackedFloat.unpackMantissa, BitVec.extractLsb, ← BitVec.toNat_inj] using hm
  exact congrArg Float.toBits (Float.ofBits_toBits (.ofModel ⟨w, hvalid⟩))

theorem ofFloat_ofMagnitude {negative : Bool} {bits : Nat} (h : bits ≤ infinityBits) :
    Binary.ofFloat (ofMagnitude negative bits) =
      if bits = infinityBits then .infinity negative else .finite negative bits := by
  have hlt : (if negative then signBit + bits else bits) < 2 ^ 64 := by
    simp only [signBit, infinityBits] at *
    split <;> omega
  have hmod : (if negative then signBit + bits else bits) % signBit = bits := by
    simp only [signBit, infinityBits] at *
    split <;> omega
  have hsign : decide (signBit ≤ if negative then signBit + bits else bits) = negative := by
    cases negative with
    | true => simp
    | false =>
      simp only [signBit, infinityBits] at *
      simpa using by omega
  have hword : (UInt64.ofNat (if negative then signBit + bits else bits)).toNat =
      if negative then signBit + bits else bits := by
    rw [UInt64.toNat_ofNat', Nat.mod_eq_of_lt hlt]
  have hbits : (ofMagnitude negative bits).toBits =
      UInt64.ofNat (if negative then signBit + bits else bits) :=
    toBits_ofBits (by rwa [hword, hmod])
  rw [Binary.ofFloat, hbits, hword, hmod, if_neg (Nat.not_lt.mpr h), hsign]

/-- No decimal is read as more than infinity. -/
theorem Scaled.bits_le (d : Scaled) : d.bits ≤ infinityBits := by
  have hround : d.quotient.roundBits ≤ infinityBits := by
    unfold Quotient.roundBits
    split
    · exact Nat.zero_le _
    · exact Nat.min_le_right _ _
  unfold bits
  split
  · exact Nat.zero_le _
  · split
    · exact Nat.le_refl _
    · split
      · exact Nat.zero_le _
      · exact hround

/-- A numeral stands for a finite double or for an infinity. -/
theorem isFinite_of_float? {n : Numeral} {x : Float} (h : n.float? = some x)
    (hx : isInfinite x = false) : isFinite x := by
  unfold Numeral.float? at h
  split at h
  · contradiction
  · obtain rfl := Option.some.inj h
    rw [isInfinite, Scaled.float, ofFloat_ofMagnitude (Scaled.bits_le _)] at hx
    rw [isFinite, Scaled.float, ofFloat_ofMagnitude (Scaled.bits_le _)]
    by_cases hbits : n.magnitude.bits = infinityBits
    · simp [hbits] at hx
    · rw [if_neg hbits]

/-- The shortest text of a finite double is read back as that double. -/
theorem number_shortestText {x : Float} (hx : isFinite x) (ht : EndsNumeral t) :
    Number ((shortestText x).toList ++ t) x t := by
  rw [isFinite] at hx
  split at hx
  · rename_i negative bits hbits
    obtain ⟨hmagnitude, hrange⟩ := ofMagnitude_of_finite hbits
    obtain ⟨n, hn⟩ := spells_scaled .dump (shortest bits)
    refine ⟨n.signed negative, ?_, ?_, ?_⟩
    · have htext : (shortestText x).toList = (n.signed negative).text := by
        rw [hn.text_signed, shortestText, textWith, hbits, String.toList_ofList]
      rw [htext]
      exact (hn.proper_signed negative).split?_text ht
    · rw [hn.float?_signed, ← Scaled.bits_eq, bits_shortest hrange, hmagnitude]
    · rw [isInfinite, hbits]
  · contradiction

end Planetarium.Decimal
