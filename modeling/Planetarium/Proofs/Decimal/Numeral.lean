import Planetarium.Proofs.Parsing.Token
import Mathlib.Data.List.Induction
import Mathlib.Tactic.Ring

/-!
# Numerals in a text

A numeral whose parts are of the characters they should be made of is split off whole from the text
behind it, if neither a digit, a dot nor a mark of a power comes next.  What its digits stand for
is worked out digit by digit.
-/
namespace Planetarium.Decimal
open Parsing

attribute [local instance] natPow

/-- The parts of a power of ten are of the characters they are made of. -/
structure PowerOfTen.Proper (p : PowerOfTen) : Prop where
  mark : isPowerMark p.mark
  sign : ∀ c ∈ p.sign, isSign c
  digits_ne_nil : p.digits ≠ []
  digits : p.digits.all isDigit

/-- The parts of a numeral are of the characters they are made of. -/
structure Numeral.Proper (n : Numeral) : Prop where
  sign : ∀ c ∈ n.sign, isSign c
  run : n.run.all isRunChar
  digit : n.run.any isDigit
  power : ∀ p ∈ n.power, p.Proper

/-- No numeral goes on here. -/
def EndsNumeral (t : List Char) : Prop :=
  ∀ c ∈ t.head?, isRunChar c = false ∧ isPowerMark c = false

variable {s t u ds : List Char} {c : Char} {f : Char → Bool}

/-! ## Splitting a numeral off -/

theorem not_isSign_of_isRunChar (h : isRunChar c) : isSign c = false := by
  rw [Bool.eq_false_iff]
  intro hs
  simp only [isSign, Bool.or_eq_true, decide_eq_true_eq] at hs
  rcases hs with rfl | rfl <;> exact absurd h (by decide)

theorem isRunChar_of_isDigit (h : isDigit c) : isRunChar c := by
  simp [isRunChar, h]

theorem isDigit_of_isRunChar_eq_false (h : isRunChar c = false) : isDigit c = false := by
  simp only [isRunChar, Bool.or_eq_false_iff] at h
  exact h.1

theorem all_isRunChar (h : ds.all isDigit) : ds.all isRunChar := by
  rw [List.all_eq_true] at h ⊢
  exact fun c hc => isRunChar_of_isDigit (h c hc)

/-- A sign is split off what does not begin with one. -/
theorem splitSign_toList_append {sign : Option Char} (hs : ∀ c ∈ sign, isSign c)
    (ht : ∀ c ∈ t.head?, isSign c = false) :
    Numeral.splitSign (sign.toList ++ t) = (sign, t) := by
  cases sign with
  | none =>
    cases t with
    | nil => rfl
    | cons c t => simp [Numeral.splitSign, ht c rfl]
  | some c => simp [Numeral.splitSign, hs c rfl]

theorem head_run (h : ds.all isRunChar) (hne : ds ≠ []) :
    ∀ c ∈ (ds ++ t).head?, isSign c = false := by
  intro c hc
  obtain ⟨d, ds, rfl⟩ := List.exists_cons_of_ne_nil hne
  obtain rfl := Option.some.inj hc
  exact not_isSign_of_isRunChar (List.all_eq_true.mp h _ List.mem_cons_self)

/-- A power of ten is split off what does not begin with a digit. -/
theorem splitPower_text {p : PowerOfTen} (hp : p.Proper) (ht : ∀ c ∈ t.head?, isDigit c = false) :
    Numeral.splitPower (p.text ++ t) = (some p, t) := by
  obtain ⟨mark, sign, digits⟩ := p
  obtain ⟨htake, hdrop⟩ := takeWhile_append_of_ends hp.digits ht
  have hsign := splitSign_toList_append (t := digits ++ t) hp.sign
    (head_run (all_isRunChar hp.digits) hp.digits_ne_nil)
  obtain ⟨d, ds, hds⟩ := List.exists_cons_of_ne_nil hp.digits_ne_nil
  simp only at htake hdrop hsign hds
  simp only [PowerOfTen.text, List.cons_append, List.append_assoc, Numeral.splitPower, hsign,
    htake, hdrop, show isPowerMark mark = true from hp.mark]
  subst hds
  rfl

/-- Where the numeral ends there is no power of ten. -/
theorem splitPower_of_ends (ht : EndsNumeral t) : Numeral.splitPower t = (none, t) := by
  cases t with
  | nil => rfl
  | cons c t => simp [Numeral.splitPower, (ht c rfl).2]

/-- A numeral is split off whole from what follows it. -/
theorem Numeral.Proper.split?_text {n : Numeral} (hn : n.Proper) (ht : EndsNumeral t) :
    Numeral.split? (n.text ++ t) = some (n, t) := by
  obtain ⟨sign, run, power⟩ := n
  obtain ⟨hsign, hrun, hdigit, hpower⟩ := hn
  simp only at hsign hrun hdigit hpower
  have hne : run ≠ [] := by
    rintro rfl
    simp at hdigit
  -- the run of digits and dots ends at the mark of the power, or else where the numeral does
  have hends : ∀ c ∈ ((power.map PowerOfTen.text).getD [] ++ t).head?, isRunChar c = false := by
    cases power with
    | none => exact fun c hc => (ht c hc).1
    | some p =>
      rintro c hc
      obtain rfl := Option.some.inj hc
      have := (hpower p rfl).mark
      simp only [isPowerMark, Bool.or_eq_true, decide_eq_true_eq] at this
      rcases this with h | h <;> rw [h] <;> decide
  obtain ⟨htake, hdrop⟩ := takeWhile_append_of_ends hrun hends
  have hpowers : Numeral.splitPower ((power.map PowerOfTen.text).getD [] ++ t) = (power, t) := by
    cases power with
    | none => exact splitPower_of_ends ht
    | some p =>
      exact splitPower_text (hpower p rfl) fun c hc => isDigit_of_isRunChar_eq_false (ht c hc).1
  simp only [Numeral.text, List.append_assoc, Numeral.split?,
    splitSign_toList_append hsign (head_run hrun hne), htake, hdrop, hdigit, if_true, hpowers]

/-! ## What is split off -/

theorem isSign_of_splitSign : ∀ c ∈ (Numeral.splitSign t).1, isSign c := by
  intro c hc
  cases t with
  | nil => contradiction
  | cons d t =>
    simp only [Numeral.splitSign] at hc
    split at hc
    · obtain rfl := Option.some.inj hc
      assumption
    · contradiction

/-- A power of ten that is split off is proper. -/
theorem proper_of_splitPower : ∀ p ∈ (Numeral.splitPower t).1, p.Proper := by
  intro p hp
  cases t with
  | nil => contradiction
  | cons c t =>
    simp only [Numeral.splitPower] at hp
    split at hp
    · rename_i d ds hmark hdigits
      obtain rfl := Option.some.inj hp
      refine ⟨hmark, isSign_of_splitSign, List.cons_ne_nil _ _, ?_⟩
      rw [← hdigits]
      exact List.all_takeWhile
    · contradiction

/-- What is split off a text is made of the characters a numeral is made of. -/
theorem Numeral.proper_of_split? {n : Numeral} {rest : List Char}
    (h : Numeral.split? t = some (n, rest)) : n.Proper := by
  simp only [Numeral.split?] at h
  split at h
  · rename_i hdigit
    simp only [Option.some.injEq, Prod.mk.injEq] at h
    obtain ⟨rfl, -⟩ := h
    exact ⟨isSign_of_splitSign, List.all_takeWhile, hdigit, proper_of_splitPower⟩
  · contradiction

/-! ## Before a character of another kind or the end of the text -/

theorem takeWhile_append_of_head (hu : ∀ c ∈ u.head?, f c = false) :
    (s ++ u).takeWhile f = s.takeWhile f := by
  induction s with
  | nil => exact (takeWhile_append_of_ends List.all_nil hu).1
  | cons c s ih => cases hc : f c <;> simp [hc, ih]

theorem dropWhile_append_of_head (hu : ∀ c ∈ u.head?, f c = false) :
    (s ++ u).dropWhile f = s.dropWhile f ++ u := by
  induction s with
  | nil => exact (takeWhile_append_of_ends List.all_nil hu).2
  | cons c s ih => cases hc : f c <;> simp [hc, ih]

/-- Numerals are made of such characters. -/
def isNumeralChar (c : Char) : Bool := isRunChar c || isPowerMark c || isSign c

section Apart
variable (hu : ∀ c ∈ u.head?, isNumeralChar c = false)
include hu

theorem head_apart : ∀ c ∈ u.head?, isRunChar c = false ∧ isPowerMark c = false ∧
    isSign c = false := by
  intro c hc
  have h := hu c hc
  simp only [isNumeralChar, Bool.or_eq_false_iff] at h
  exact ⟨h.1.1, h.1.2, h.2⟩

/-- What stands apart from the numeral has no part in its sign. -/
theorem splitSign_append_of_head :
    Numeral.splitSign (s ++ u) = ((Numeral.splitSign s).1, (Numeral.splitSign s).2 ++ u) := by
  cases s with
  | nil =>
    cases u with
    | nil => rfl
    | cons c u => simp [Numeral.splitSign, (head_apart hu c rfl).2.2]
  | cons c s => cases hc : isSign c <;> simp [Numeral.splitSign, hc]

/-- Nor in its power of ten. -/
theorem splitPower_append_of_head :
    Numeral.splitPower (s ++ u) = ((Numeral.splitPower s).1, (Numeral.splitPower s).2 ++ u) := by
  have hdigit : ∀ c ∈ u.head?, isDigit c = false := fun c hc =>
    isDigit_of_isRunChar_eq_false (head_apart hu c hc).1
  cases s with
  | nil =>
    cases u with
    | nil => rfl
    | cons c u => simp [Numeral.splitPower, (head_apart hu c rfl).2.1]
  | cons c s =>
    simp only [List.cons_append, Numeral.splitPower, splitSign_append_of_head hu,
      takeWhile_append_of_head hdigit, dropWhile_append_of_head hdigit]
    split <;> rfl

/-- A numeral does not grow over a character that stands in no numeral. -/
theorem Numeral.split?_append_of_head :
    Numeral.split? (s ++ u) = (Numeral.split? s).map fun r => (r.1, r.2 ++ u) := by
  have hrun : ∀ c ∈ u.head?, isRunChar c = false := fun c hc => (head_apart hu c hc).1
  simp only [Numeral.split?, splitSign_append_of_head hu, takeWhile_append_of_head hrun,
    dropWhile_append_of_head hrun, splitPower_append_of_head hu]
  split <;> rfl

end Apart

/-- A numeral does not grow over a blank. -/
theorem Numeral.split?_append_layout (hu : ∀ c ∈ u.head?, isLayout c) :
    Numeral.split? (s ++ u) = (Numeral.split? s).map fun r => (r.1, r.2 ++ u) :=
  split?_append_of_head fun c hc =>
    of_isLayout (P := fun c => isNumeralChar c = false) (hu c hc) rfl rfl rfl rfl

/-! ## The value of digits -/

/-- Digits behind others count after so many powers of ten. -/
theorem value_append (cs ds : List Char) :
    value (cs ++ ds) = value cs * 10 ^ ds.length + value ds := by
  induction ds using List.reverseRecOn with
  | nil => simp
  | append_singleton ds d ih =>
    rw [← List.append_assoc, value_append_singleton, value_append_singleton, ih,
      List.length_append, List.length_singleton, Nat.pow_succ]
    ring

/-- Zeros have no value. -/
theorem value_replicate_zero (k : ℕ) : value (List.replicate k '0') = 0 := by
  induction k with
  | zero => rfl
  | succ k ih => rw [List.replicate_succ', value_append_singleton, ih]; rfl

theorem all_isDigit_replicate (k : ℕ) : (List.replicate k '0').all isDigit := by
  rw [List.all_eq_true]
  intro c hc
  obtain rfl := (List.mem_replicate.mp hc).2
  decide

theorem all_isDigit_digits (n : ℕ) : (digits n).all isDigit :=
  List.all_eq_true.mpr fun _ => isDigit_of_mem_digits

end Planetarium.Decimal
