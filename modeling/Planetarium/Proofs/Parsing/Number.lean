import Planetarium.Decimal.Word
import Planetarium.Proofs.Decimal.Nearest
import Planetarium.Proofs.Decimal.Written
import Planetarium.Proofs.Text.Pattern

/-!
# The language of numbers

A numeral has a pattern: an optional sign, characters of which at least one is a digit and the
others digits or dots, and an optional power of ten.  Its two repetitions overlap, but whichever
digit between them is the one that must be there, together they are the whole run of digits and
dots, so that matching the pattern by backtracking comes to splitting the numeral off
(`match?_numeral`).  What is matched is then read like a number given as a word.

Read or not, a numeral is described by its parts: the sign and the run at the head of a text
(`Head`), the power of ten behind them (`Tail`), and the rational that they stand for
(`Numeral.val`), whose nearest double is the number.
-/
namespace Planetarium.Decimal
open Text Parsing

attribute [local instance] natPow

variable {b : Pattern} {c : Char} {cs s t run behind rest : List Char} {n : Numeral}
  {sign : Option Char} {power : Option PowerOfTen}

/-! ## The pattern -/

/-- A power of ten: a mark, a sign that may be left out, and digits. -/
def powerPattern : Pattern :=
  .seq (.one isPowerMark) (.seq (.optional (.one isSign)) (.seq (.one isDigit) (.many isDigit)))

/-- What comes behind the sign of a numeral: digits and dots with a digit among them, and a power of
ten that may be left out. -/
def unsignedPattern : Pattern :=
  .seq (.many isRunChar) (.seq (.one isDigit) (.seq (.many isRunChar) (.optional powerPattern)))

/-- A numeral, with a sign that may be left out. -/
def numeralPattern : Pattern := .seq (.optional (.one isSign)) unsignedPattern

/-- A sign is taken where what comes behind it could not begin with one. -/
theorem first?_sign (hb : ∀ c cs, isSign c → b.first? (c :: cs) = none) :
    (Pattern.seq (.optional (.one isSign)) b).first? t = b.first? (Numeral.splitSign t).2 := by
  rw [Pattern.first?_seq]
  cases t with
  | nil => simp [Pattern.ways, Numeral.splitSign]
  | cons c cs =>
    cases hc : isSign c with
    | true =>
      have hskip : [cs, c :: cs].findSome? b.first? = b.first? cs := by
        cases h : b.first? cs <;> simp [h, hb c cs hc]
      simpa [Pattern.ways, Numeral.splitSign, hc] using hskip
    | false => simp [Pattern.ways, Numeral.splitSign, hc]

theorem isRunChar_of_isSign (h : isSign c) : isRunChar c = false := by
  rw [Bool.eq_false_iff]
  intro hrun
  have := not_isSign_of_isRunChar hrun
  rw [h] at this
  contradiction

/-- The pattern of digits matches all the digits there are. -/
theorem first?_digits : (Pattern.seq (.one isDigit) (.many isDigit)).first? t =
    if (t.takeWhile isDigit).isEmpty then none else some (t.dropWhile isDigit) := by
  rw [Pattern.first?_one_seq]
  cases t with
  | nil => rfl
  | cons c cs => cases hc : isDigit c <;> simp [hc, Pattern.first?_many]

/-- The pattern of a power of ten matches what is split off as one. -/
theorem first?_power :
    (Pattern.optional powerPattern).first? t = some (Numeral.splitPower t).2 := by
  have hsign : ∀ c cs, isSign c →
      (Pattern.seq (.one isDigit) (.many isDigit)).first? (c :: cs) = none := by
    intro c cs hc
    simp [first?_digits, isDigit_of_isRunChar_eq_false (isRunChar_of_isSign hc)]
  rw [Pattern.first?_optional, powerPattern, Pattern.first?_one_seq]
  cases t with
  | nil => rfl
  | cons c cs =>
    simp only [first?_sign hsign, first?_digits, Numeral.splitPower]
    cases hmark : isPowerMark c with
    | false => simp
    | true => cases hdigits : (Numeral.splitSign cs).2.takeWhile isDigit <;> simp

/-- The pattern without its sign matches digits with a dot among them and a power of ten. -/
theorem first?_unsigned : unsignedPattern.first? t =
    if (t.takeWhile isRunChar).any isDigit then
      some (Numeral.splitPower (t.dropWhile isRunChar)).2 else none := by
  have htotal : ∀ t, ((Pattern.optional powerPattern).first? t).isSome := fun t => by
    rw [first?_power]
    rfl
  rw [unsignedPattern, Pattern.first?_run (fun _ => isRunChar_of_isDigit) htotal, first?_power]

/-- A numeral is split off where the run holds a digit. -/
theorem Numeral.split?_eq (t : List Char) : split? t =
    if ((splitSign t).2.takeWhile isRunChar).any isDigit then
      some (⟨(splitSign t).1, (splitSign t).2.takeWhile isRunChar,
        (splitPower ((splitSign t).2.dropWhile isRunChar)).1⟩,
        (splitPower ((splitSign t).2.dropWhile isRunChar)).2)
    else none := rfl

/-- The first way to match the pattern is to split the numeral off. -/
theorem first?_numeral : numeralPattern.first? t = (Numeral.split? t).map Prod.snd := by
  have hsign : ∀ c cs, isSign c → unsignedPattern.first? (c :: cs) = none := by
    intro c cs hc
    rw [first?_unsigned, List.takeWhile_cons_of_neg (by simp [isRunChar_of_isSign hc])]
    rfl
  rw [numeralPattern, first?_sign hsign, first?_unsigned, Numeral.split?_eq]
  split <;> rfl

/-- **The pattern of a number matches what is split off as a numeral.** -/
theorem match?_numeral :
    numeralPattern.match? t = (Numeral.split? t).map fun r => (r.1.text, r.2) := by
  cases h : Numeral.split? t with
  | none =>
    rw [Pattern.match?, first?_numeral, h]
    rfl
  | some r =>
    refine Pattern.match?_eq_some.mpr ⟨?_, Numeral.text_append_of_split? h⟩
    rw [first?_numeral, h]
    rfl

/-! ## What is matched, read as a word -/

/-- A numeral is written in the first 128 characters. -/
theorem toNat_lt_of_isNumeralChar (h : isNumeralChar c) : c.toNat < 128 := by
  simp only [isNumeralChar, isPowerMark, Bool.or_eq_true, decide_eq_true_eq] at h
  rcases h with (h | rfl | rfl) | h
  · have := toNat_le_of_startsNumber (c := c) (by simp [startsNumber, h])
    omega
  · decide
  · decide
  · have := toNat_le_of_startsNumber (c := c) (by simp [startsNumber, h])
    omega

/-- The characters of a numeral are neither digits of another script nor white space nor gaps. -/
theorem plain_of_isNumeralChar (h : isNumeralChar c) :
    asciiDigit c = c ∧ isWordBlank c = false ∧ c ≠ '_' := by
  -- so few characters are ASCII that each of them can be looked at
  have hall : ∀ k < 128, isNumeralChar (Char.ofNat k) → asciiDigit (Char.ofNat k) = Char.ofNat k ∧
      isWordBlank (Char.ofNat k) = false ∧ Char.ofNat k ≠ '_' := by decide +kernel
  have := hall c.toNat (toNat_lt_of_isNumeralChar h)
  rw [Char.ofNat_toNat] at this
  exact this h

theorem dropWhile_isWordBlank (h : t.all isNumeralChar) : t.dropWhile isWordBlank = t :=
  dropWhile_of_head fun _ hc =>
    (plain_of_isNumeralChar (List.all_eq_true.mp h _ (List.mem_of_head? hc))).2.1

theorem wordChars_of_all (h : t.all isNumeralChar) : wordChars (String.ofList t) = t := by
  have hmap : t.map asciiDigit = t := by
    refine (List.map_congr_left fun c hc => ?_).trans (List.map_id t)
    exact (plain_of_isNumeralChar (List.all_eq_true.mp h c hc)).1
  have hreverse : t.reverse.all isNumeralChar := by rwa [List.all_reverse]
  rw [wordChars, String.toList_ofList, hmap, dropWhile_isWordBlank h,
    dropWhile_isWordBlank hreverse, List.reverse_reverse]

theorem dropGaps?_of_all (h : t.all isNumeralChar) (before : Option Char) :
    dropGaps? before t = some t := by
  induction t generalizing before with
  | nil => rfl
  | cons c t ih =>
    rw [List.all_cons, Bool.and_eq_true] at h
    rw [dropGaps?, if_neg (plain_of_isNumeralChar h.1).2.2, ih h.2]
    rfl

/-- A power of ten is written with the characters of numerals. -/
theorem PowerOfTen.Proper.all_text {p : PowerOfTen} (h : p.Proper) : p.text.all isNumeralChar := by
  have hdigits := List.all_eq_true.mp (all_isRunChar h.digits)
  rw [List.all_eq_true]
  intro c hc
  rcases List.mem_cons.mp hc with rfl | hc
  · simp [isNumeralChar, h.mark]
  · rcases List.mem_append.mp hc with hc | hc
    · simp [isNumeralChar, h.sign c (Option.mem_toList.mp hc)]
    · simp [isNumeralChar, hdigits c hc]

/-- So is a numeral. -/
theorem Numeral.Proper.all_text (h : n.Proper) : n.text.all isNumeralChar := by
  have hrun := List.all_eq_true.mp h.run
  rw [List.all_eq_true]
  intro c hc
  rcases List.mem_append.mp hc with hc | hc
  · rcases List.mem_append.mp hc with hc | hc
    · simp [isNumeralChar, h.sign c (Option.mem_toList.mp hc)]
    · simp [isNumeralChar, hrun c hc]
  · cases hpower : n.power with
    | none =>
      rw [hpower] at hc
      contradiction
    | some p =>
      rw [hpower] at hc
      exact List.all_eq_true.mp (h.power p hpower).all_text c hc

/-- No word for infinity or for not a number begins like a run of digits and dots. -/
theorem lowercase_ne_of_isRunChar (h : isRunChar c) {word : String}
    (hword : word.toList.head? = some 'i' ∨ word.toList.head? = some 'n') :
    String.ofList (lowercase (c :: cs)) ≠ word := by
  have hall : ∀ k < 128, isRunChar (Char.ofNat k) →
      (Char.ofNat k).toLower ≠ 'i' ∧ (Char.ofNat k).toLower ≠ 'n' := by decide +kernel
  have hc := hall c.toNat (toNat_lt_of_isNumeralChar (by simp [isNumeralChar, h]))
  rw [Char.ofNat_toNat] at hc
  rintro rfl
  rw [String.toList_ofList] at hword
  rcases hword with hword | hword
  · exact (hc h).1 (Option.some.inj hword)
  · exact (hc h).2 (Option.some.inj hword)

/-- A numeral given as a word is read for what it stands for. -/
theorem float?_text (h : n.Proper) : float? (String.ofList n.text) = n.float? := by
  have hne : n.run ≠ [] := fun hnil => by
    have hdigit := h.digit
    rw [hnil] at hdigit
    contradiction
  have hsign : Numeral.splitSign n.text =
      (n.sign, n.run ++ (n.power.map PowerOfTen.text).getD []) := by
    rw [Numeral.text, List.append_assoc]
    exact splitSign_toList_append h.sign (head_run h.run hne)
  have hsplit : Numeral.split? n.text = some (n, []) := by
    have := h.split?_text (t := []) fun _ hc => absurd hc (Option.not_mem_none _)
    rwa [List.append_nil] at this
  obtain ⟨c, cs, hrun⟩ := List.exists_cons_of_ne_nil hne
  have hc : isRunChar c := List.all_eq_true.mp h.run c (by simp [hrun])
  rw [hrun, List.cons_append] at hsign
  simp only [float?, wordChars_of_all h.all_text, dropGaps?_of_all h.all_text, hsign, hsplit,
    Bool.or_eq_true, decide_eq_true_eq, bind, Option.bind, pure, List.isEmpty_nil, if_true]
  rw [if_neg (not_or.mpr ⟨?_, ?_⟩), if_neg]
  · exact lowercase_ne_of_isRunChar hc (.inr rfl)
  · exact lowercase_ne_of_isRunChar hc (.inl rfl)
  · exact lowercase_ne_of_isRunChar hc (.inl rfl)

/-! ## The parts of a numeral -/

/-- What a text begins with: a sign if there is one, the longest run of digits and dots behind it,
and what is behind that. -/
structure Numeral.Head (t : List Char) (sign : Option Char) (run behind : List Char) : Prop where
  text_eq : t = sign.toList ++ run ++ behind
  signed : ∀ c ∈ sign, isSign c
  unsigned : sign = none → ∀ c ∈ t.head?, isSign c = false
  all_run : run.all isRunChar
  longest : ∀ c ∈ behind.head?, isRunChar c = false

/-- The power of ten that a text begins with, with all its digits, or none if there is none. -/
structure Numeral.Tail (t : List Char) (power : Option PowerOfTen) (rest : List Char) : Prop where
  text_eq : t = (power.map PowerOfTen.text).getD [] ++ rest
  proper : ∀ p ∈ power, p.Proper
  longest : power ≠ none → ∀ c ∈ rest.head?, isDigit c = false
  absent : power = none → ∀ (p : PowerOfTen) s, p.Proper → t ≠ p.text ++ s

/-- A sign, digits and dots are what stands in front of the power of ten. -/
theorem Numeral.head_splitSign (t : List Char) : Head t (splitSign t).1
    ((splitSign t).2.takeWhile isRunChar) ((splitSign t).2.dropWhile isRunChar) where
  text_eq := by rw [List.append_assoc, List.takeWhile_append_dropWhile, splitSign_append]
  signed := isSign_of_splitSign
  unsigned hnone c hc := by
    cases t with
    | nil => contradiction
    | cons d t =>
      obtain rfl := Option.some.inj hc
      rw [Bool.eq_false_iff]
      intro hsign
      simp [splitSign, hsign] at hnone
  all_run := List.all_takeWhile
  longest := head_dropWhile isRunChar _

/-- There is one way to tell a sign and a run apart. -/
theorem Numeral.head_iff : Head t sign run behind ↔ (splitSign t).1 = sign ∧
    (splitSign t).2.takeWhile isRunChar = run ∧ (splitSign t).2.dropWhile isRunChar = behind := by
  constructor
  · intro h
    have hsplit : splitSign t = (sign, run ++ behind) := by
      rw [h.text_eq, List.append_assoc]
      cases hsign : sign with
      | some c => simp [splitSign, h.signed c hsign]
      | none =>
        refine splitSign_toList_append (hsign ▸ h.signed) fun c hc => h.unsigned hsign c ?_
        rw [h.text_eq, hsign]
        exact hc
    rw [hsplit]
    exact ⟨rfl, takeWhile_append_of_ends h.all_run h.longest⟩
  · rintro ⟨rfl, rfl, rfl⟩
    exact head_splitSign t

/-- A power of ten at the head of a text is found, with all digits behind it. -/
theorem splitPower_ne_none {p : PowerOfTen} (hp : p.Proper) (s : List Char) :
    (Numeral.splitPower (p.text ++ s)).1 ≠ none := by
  have hlonger : PowerOfTen.Proper { p with digits := p.digits ++ s.takeWhile isDigit } := by
    refine ⟨hp.mark, hp.sign, List.append_ne_nil_of_left_ne_nil hp.digits_ne_nil _, ?_⟩
    rw [List.all_append, hp.digits, List.all_takeWhile]
    rfl
  have hsplit := splitPower_text hlonger (head_dropWhile isDigit s)
  have htext : p.text ++ s = PowerOfTen.text { p with digits := p.digits ++ s.takeWhile isDigit } ++
      s.dropWhile isDigit := by
    simp [PowerOfTen.text]
  rw [htext, hsplit]
  exact Option.some_ne_none _

/-- A power of ten is what stands behind the digits. -/
theorem Numeral.tail_splitPower (t : List Char) : Tail t (splitPower t).1 (splitPower t).2 where
  text_eq := (splitPower_append t).symm
  proper := proper_of_splitPower
  longest hpower c hc := by
    cases t with
    | nil => exact absurd rfl hpower
    | cons d t =>
      simp only [splitPower] at hpower hc
      split at hpower
      · rename_i hmark hdigits
        simp only [hmark, hdigits] at hc
        exact head_dropWhile isDigit _ c hc
      · exact absurd rfl hpower
  absent hnone p s hp heq := splitPower_ne_none hp s (heq ▸ hnone)

/-- There is one way to tell a power of ten from what is behind it. -/
theorem Numeral.tail_iff : Tail t power rest ↔ splitPower t = (power, rest) := by
  constructor
  · intro h
    cases hpower : power with
    | some p =>
      rw [h.text_eq, hpower]
      exact splitPower_text (h.proper p hpower) (h.longest (by simp [hpower]))
    | none =>
      have happend := splitPower_append t
      have hnone : (splitPower t).1 = none := by
        cases hfound : (splitPower t).1 with
        | none => rfl
        | some p =>
          rw [hfound] at happend
          exact absurd happend.symm (h.absent hpower p _ (proper_of_splitPower p hfound))
      have hrest : t = rest := by simpa [hpower] using h.text_eq
      rw [hnone] at happend
      exact Prod.ext hnone (happend.trans hrest)
  · intro h
    have htail := tail_splitPower t
    rwa [h] at htail

/-! ## What a numeral stands for -/

/-- The number that a run of digits with at most one dot stands for. -/
def runVal (run : List Char) : ℚ :=
  let fraction := (run.dropWhile (· != '.')).drop 1
  value (run.takeWhile (· != '.')) + value fraction / 10 ^ fraction.length

/-- The number that a numeral with at most one dot stands for, apart from its sign. -/
def Numeral.val (n : Numeral) : ℚ := runVal n.run * 10 ^ shiftOf n.power

theorem all_isDigit_of_notMem (hrun : run.all isRunChar) (hdot : '.' ∉ run) : run.all isDigit := by
  rw [List.all_eq_true] at hrun ⊢
  intro c hc
  have hne : c ≠ '.' := ne_of_mem_of_not_mem hc hdot
  simpa [isRunChar, hne] using hrun c hc

/-- A run with at most one dot is digits alone, or digits before the dot and digits after it. -/
theorem run_cases (hrun : run.all isRunChar) (hdots : run.count '.' ≤ 1) :
    run.all isDigit ∨ ∃ whole fraction : List Char,
      run = whole ++ '.' :: fraction ∧ whole.all isDigit ∧ fraction.all isDigit := by
  by_cases hdot : '.' ∈ run
  · obtain ⟨whole, fraction, rfl⟩ := List.append_of_mem hdot
    rw [List.all_append, List.all_cons, Bool.and_eq_true, Bool.and_eq_true] at hrun
    rw [List.count_append, List.count_cons_self] at hdots
    have hwhole : '.' ∉ whole := List.count_eq_zero.mp (by omega)
    have hfraction : '.' ∉ fraction := List.count_eq_zero.mp (by omega)
    exact .inr ⟨whole, fraction, rfl, all_isDigit_of_notMem hrun.1 hwhole,
      all_isDigit_of_notMem hrun.2.2 hfraction⟩
  · exact .inl (all_isDigit_of_notMem hrun hdot)

theorem split_dot {whole : List Char} (h : whole.all isDigit) (t : List Char) :
    (whole ++ t).takeWhile (· != '.') = whole ++ t.takeWhile (· != '.') ∧
    (whole ++ t).dropWhile (· != '.') = t.dropWhile (· != '.') := by
  have hne : ∀ c ∈ whole, (c != '.') = true := fun c hc => by
    simpa using ne_dot_of_isDigit (List.all_eq_true.mp h c hc)
  exact ⟨List.takeWhile_append_of_pos hne, List.dropWhile_append_of_pos hne⟩

/-- The digits of a numeral, read with the dot where it stands. -/
theorem val_magnitude (hrun : n.run.all isRunChar) (hdots : n.dots ≤ 1) :
    n.magnitude.val = n.val := by
  have hval : n.magnitude.val =
      value (n.run.filter isDigit) * 10 ^ (shiftOf n.power - n.places) := rfl
  rw [hval, Numeral.val, runVal]
  rcases run_cases hrun hdots with h | ⟨whole, fraction, hparts, hw, hf⟩
  · obtain ⟨htake, hdrop⟩ := split_dot h []
    rw [List.append_nil] at htake hdrop
    have hplaces : n.places = 0 := by simp [Numeral.places, hdrop]
    simp [htake, hdrop, filter_isDigit h, hplaces]
  · obtain ⟨htake, hdrop⟩ := split_dot hw ('.' :: fraction)
    have hwhole : n.run.takeWhile (· != '.') = whole := by simpa [hparts] using htake
    have hfraction : n.run.dropWhile (· != '.') = '.' :: fraction := by simpa [hparts] using hdrop
    have hdot : isDigit '.' = false := by decide
    have hdigits : n.run.filter isDigit = whole ++ fraction := by
      simp [hparts, filter_isDigit hw, filter_isDigit hf, hdot]
    have hplaces : n.places = fraction.length := by
      simp [Numeral.places, hfraction, filter_isDigit hf, hdot]
    rw [hwhole, hfraction, hdigits, hplaces, value_append, List.drop_one, List.tail_cons,
      zpow_sub₀ (by norm_num), zpow_natCast]
    push_cast
    field_simp

/-- Numerals without their sign stand for numbers that are not negative. -/
theorem val_nonneg (n : Numeral) : 0 ≤ n.val := by
  rw [Numeral.val, runVal]
  positivity

/-- The double of a numeral with at most one dot. -/
theorem ofFloat_float? (hn : n.Proper) (hdots : n.dots ≤ 1) : ∃ x, n.float? = some x ∧
    Binary.ofFloat x =
      if overflow ≤ n.val then .infinity (n.sign = some '-')
      else .finite (n.sign = some '-') (nearestBits n.val) := by
  refine ⟨n.magnitude.float (n.sign = some '-'), ?_, ?_⟩
  · rw [Numeral.float?, if_neg (Nat.not_lt.mpr hdots)]
  · rw [Scaled.float, ofFloat_ofMagnitude (Scaled.bits_le _), Scaled.bits_eq,
      val_magnitude hn.run hdots]
    simp only [nearestBits_eq_infinityBits_iff (val_nonneg n)]

end Planetarium.Decimal

namespace Planetarium.Parsing
open Text Decimal

attribute [local instance] natPow

variable {α : Type} {m : ℕ} {p : Cursor} {n : Numeral} {rest text : List Char} {pos : ℕ}

/-! ## What reading a number comes to -/

/-- What an attempt came to: a value with the place behind it, no match, or a stop. -/
def Attempt.result (a : Attempt α m) : Except Stop (Option (α × Cursor)) :=
  match a.outcome with
  | .matched value next _ => .ok (some (value, next))
  | .mismatched => .ok none
  | .stopped reason => .error reason

/-- What a literal at a place comes to, given what it is read as. -/
def literalResult (p : Cursor) (literal rest : List Char) :
    Option Float → Except Stop (Option (Float × Cursor))
  | none => .error (.fault ⟨.malformedNumber (String.ofList literal), p.offset⟩)
  | some x =>
    if isInfinite x then .error (.fault ⟨.numberOutOfRange (String.ofList literal), p.offset⟩)
    else .ok (some (x, ⟨p.offset + literal.length, rest⟩))

/-- A literal is read or faulty, but never missing. -/
theorem literalResult_ne {literal : List Char} {value : Option Float} :
    literalResult p literal rest value ≠ .ok none := by
  cases value with
  | none => nofun
  | some x => cases hx : isInfinite x <;> simp [literalResult, hx]

/-- The number at a place as its pattern has it: what the pattern matches is read like a number
given as a word. -/
def numberByPattern (p : Cursor) : Except Stop (Option (Float × Cursor)) :=
  match numeralPattern.match? p.rest with
  | none => .ok none
  | some (literal, rest) => literalResult p literal rest (float? (String.ofList literal))

/-- Where no numeral is split off, no number is read. -/
theorem result_of_split?_eq_none (h : Numeral.split? p.rest = none) :
    (number p).result = .ok none := by
  rw [number_of_split? h]
  rfl

/-- Where one is, it is what is read. -/
theorem result_of_split?_eq_some (h : Numeral.split? p.rest = some (n, rest)) :
    (number p).result = literalResult p n.text rest n.float? := by
  rw [number_of_split?_eq_some h]
  cases n.float? with
  | none => rfl
  | some x => cases hx : isInfinite x <;> simp [literalResult, hx, Attempt.result] <;> rfl

/-- The numeral split off is what the pattern matches, and it stands for what it is read as. -/
theorem result_number (p : Cursor) : (number p).result = numberByPattern p := by
  rw [numberByPattern, match?_numeral]
  cases h : Numeral.split? p.rest with
  | none => exact result_of_split?_eq_none h
  | some r =>
    obtain ⟨n, rest⟩ := r
    rw [result_of_split?_eq_some h]
    exact congrArg _ (float?_text (Numeral.proper_of_split? h)).symm

/-- A numeral at a place of a text is read for what it stands for. -/
structure ReadAt (text : List Char) (pos : ℕ) (n : Numeral) : Prop where
  /-- The numeral is not empty and ends within the text. -/
  ends : 0 < n.text.length ∧ pos + n.text.length ≤ text.length
  rejected_iff : (∃ cause : Cause, cause.errorClass = .malformedLiteral ∧
      (number (.ofOffset text pos)).result = .error (.fault ⟨cause, pos⟩)) ↔
    1 < n.dots ∨ overflow ≤ n.val
  malformed : 1 < n.dots → (number (.ofOffset text pos)).result =
    .error (.fault ⟨.malformedNumber (String.ofList n.text), pos⟩)
  outOfRange : n.dots ≤ 1 → overflow ≤ n.val → (number (.ofOffset text pos)).result =
    .error (.fault ⟨.numberOutOfRange (String.ofList n.text), pos⟩)
  accepted : n.dots ≤ 1 → n.val < overflow → ∃ x bits, (number (.ofOffset text pos)).result =
      .ok (some (x, .ofOffset text (pos + n.text.length))) ∧
    Binary.ofFloat x = .finite (n.sign = some '-') bits ∧ IsNearest n.val bits

/-- A numeral without a value: more than one dot. -/
theorem result_of_dots (h : Numeral.split? p.rest = some (n, rest)) (hdots : 1 < n.dots) :
    (number p).result =
      .error (.fault ⟨.malformedNumber (String.ofList n.text), p.offset⟩) := by
  rw [result_of_split?_eq_some h, Numeral.float?, if_pos hdots]
  rfl

/-- A numeral that is too great. -/
theorem result_of_overflow (h : Numeral.split? p.rest = some (n, rest)) (hdots : n.dots ≤ 1)
    (hval : overflow ≤ n.val) : (number p).result =
      .error (.fault ⟨.numberOutOfRange (String.ofList n.text), p.offset⟩) := by
  obtain ⟨x, hx, hparts⟩ := ofFloat_float? (Numeral.proper_of_split? h) hdots
  rw [if_pos hval] at hparts
  have hinfinite : isInfinite x := by rw [isInfinite, hparts]
  rw [result_of_split?_eq_some h, hx, literalResult, if_pos hinfinite]

/-- Any other numeral, read for the finite double nearest to its value. -/
theorem result_of_inRange (h : Numeral.split? p.rest = some (n, rest)) (hdots : n.dots ≤ 1)
    (hval : n.val < overflow) : ∃ x bits,
      (number p).result = .ok (some (x, ⟨p.offset + n.text.length, rest⟩)) ∧
      Binary.ofFloat x = .finite (n.sign = some '-') bits ∧ IsNearest n.val bits := by
  obtain ⟨x, hx, hparts⟩ := ofFloat_float? (Numeral.proper_of_split? h) hdots
  rw [if_neg (not_le.mpr hval)] at hparts
  have hfinite : isInfinite x = false := by rw [isInfinite, hparts]
  refine ⟨x, nearestBits n.val, ?_, hparts, isNearest_nearestBits (val_nonneg n) hval⟩
  rw [result_of_split?_eq_some h, hx, literalResult, hfinite]
  rfl

/-- A numeral that is split off has all that is said of one. -/
theorem readAt_of_split? (h : Numeral.split? (text.drop pos) = some (n, rest)) :
    ReadAt text pos n := by
  have htext := Numeral.text_append_of_split? h
  have hshorter := Numeral.length_rest_lt_of_split? h
  have hlength := congrArg List.length htext
  rw [List.length_append, List.length_drop] at hlength
  rw [List.length_drop] at hshorter
  have hend : (⟨pos + n.text.length, rest⟩ : Cursor) = .ofOffset text (pos + n.text.length) := by
    rw [Cursor.ofOffset, ← List.drop_drop, ← htext, List.drop_left]
  have hmalformed := result_of_dots (p := .ofOffset text pos) h
  have houtOfRange := result_of_overflow (p := .ofOffset text pos) h
  have haccepted := result_of_inRange (p := .ofOffset text pos) h
  rw [show (Cursor.ofOffset text pos).offset = pos from rfl, hend] at haccepted
  have hrejected : (∃ cause : Cause, cause.errorClass = .malformedLiteral ∧
      (number (.ofOffset text pos)).result = .error (.fault ⟨cause, pos⟩)) ↔
      1 < n.dots ∨ overflow ≤ n.val := by
    constructor
    · rintro ⟨cause, -, hcause⟩
      by_contra hread
      rw [not_or, not_lt, not_le] at hread
      obtain ⟨x, bits, hresult, -⟩ := haccepted hread.1 hread.2
      rw [hresult] at hcause
      contradiction
    · intro hreject
      by_cases hdots : n.dots ≤ 1
      · exact ⟨_, rfl, houtOfRange hdots (hreject.resolve_left (not_lt.mpr hdots))⟩
      · exact ⟨_, rfl, hmalformed (not_le.mp hdots)⟩
  exact ⟨⟨by omega, by omega⟩, hrejected, hmalformed, houtOfRange, haccepted⟩

/-- **The language of numbers.**  A number is what the pattern matches, read like a word.  At every
place a text begins with an optional sign and the longest run of digits and dots behind it, and
behind these with a power of ten or without one.  Without a digit in the run there is no number;
otherwise the numeral is the sign, the whole run and the power of ten if there is one. -/
theorem number_language (text : List Char) (pos : ℕ) :
    (number (.ofOffset text pos)).result = numberByPattern (.ofOffset text pos) ∧
    (∃ sign run behind, Numeral.Head (text.drop pos) sign run behind) ∧
    ∀ sign run behind, Numeral.Head (text.drop pos) sign run behind →
      ((number (.ofOffset text pos)).result = .ok none ↔ run.any isDigit = false) ∧
      (∃ power rest, Numeral.Tail behind power rest) ∧
      ∀ power rest, run.any isDigit → Numeral.Tail behind power rest →
        numeralPattern.match? (text.drop pos) = some (Numeral.text ⟨sign, run, power⟩, rest) ∧
        ReadAt text pos ⟨sign, run, power⟩ := by
  refine ⟨result_number _, ⟨_, _, _, Numeral.head_splitSign _⟩, ?_⟩
  intro sign run behind hhead
  obtain ⟨rfl, rfl, rfl⟩ := Numeral.head_iff.mp hhead
  have hsplit := Numeral.split?_eq (text.drop pos)
  refine ⟨⟨?_, ?_⟩, ⟨_, _, Numeral.tail_splitPower _⟩, ?_⟩
  · intro hnone
    rw [Bool.eq_false_iff]
    intro hdigit
    rw [if_pos hdigit] at hsplit
    rw [result_of_split?_eq_some hsplit] at hnone
    exact literalResult_ne hnone
  · intro hdigit
    rw [if_neg (Bool.eq_false_iff.mp hdigit)] at hsplit
    exact result_of_split?_eq_none hsplit
  · intro power rest hdigit htail
    rw [if_pos hdigit, Numeral.tail_iff.mp htail] at hsplit
    refine ⟨?_, readAt_of_split? hsplit⟩
    rw [match?_numeral, hsplit]
    rfl

/-- A mark of a power and a sign, but no digits. -/
theorem number_language_dangling :
    Numeral.Head "1.e+)".toList none "1.".toList "e+)".toList ∧
    Numeral.Tail "e+)".toList none "e+)".toList ∧
    numeralPattern.match? "1.e+)".toList = some ("1.".toList, "e+)".toList) ∧
    ReadAt "(1.e+)".toList 1 ⟨none, "1.".toList, none⟩ := by
  have hhead : Numeral.Head "1.e+)".toList none "1.".toList "e+)".toList :=
    Numeral.head_iff.mpr (by decide)
  have htail : Numeral.Tail "e+)".toList none "e+)".toList := Numeral.tail_iff.mpr (by decide)
  obtain ⟨-, -, hparts⟩ := number_language "(1.e+)".toList 1
  obtain ⟨-, -, hread⟩ := hparts none "1.".toList "e+)".toList hhead
  exact ⟨hhead, htail, hread none "e+)".toList (by decide) htail⟩

end Planetarium.Parsing
