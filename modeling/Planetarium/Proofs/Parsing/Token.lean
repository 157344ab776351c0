import Planetarium.Proofs.Parsing.Outcome

/-!
# What the token readers accept

Each reader is described on the characters it reads.  A word is the longest run that is a name
(`Word`), a quoted text ends at the next quote, a numeral is what `Numeral.split?` splits off.  No
reader records a miss, so each looks no further than to where it ends.
-/
namespace Planetarium.Parsing
open Text Decimal Attempt Cursor

/-- A letter or an underscore, followed by letters, digits and underscores. -/
def isName : List Char → Bool
  | [] => false
  | c :: cs => isWordStart c && cs.all isWordChar

/-- The text `s` begins with the word `name`, the longest it can begin with, and goes on with
`t`. -/
structure Word (s : List Char) (name : String) (t : List Char) : Prop where
  text_eq : s = name.toList ++ t
  isName : isName name.toList
  ends : ∀ c ∈ t.head?, isWordChar c = false

/-- The text `s` begins with a numeral for the finite double `x` and goes on with `t`. -/
def Number (s : List Char) (x : Float) (t : List Char) : Prop :=
  ∃ numeral, Numeral.split? s = some (numeral, t) ∧ numeral.float? = some x ∧
    isInfinite x = false

/-- The text `s` begins with `text` between quotes and goes on with `t`. -/
def Quotation (s : List Char) (text : String) (t : List Char) : Prop :=
  s = '"' :: (text.toList ++ '"' :: t) ∧ '"' ∉ text.toList

variable {α : Type} {n k b : Nat} {c : Char} {s t : List Char} {p q : Cursor} {name text : String}
  {x : Float}

/-! ## Signs -/

/-- A character with a meaning is read as that. -/
theorem sign_of_some {meaning : Char → Option α} {a : α} (h : meaning c = some a) :
    (sign meaning ⟨k, c :: s⟩).Matches a ⟨k + 1, s⟩ := by
  simp only [sign]
  split
  · rename_i v hv
    obtain rfl := Option.some.inj (h.symm.trans hv)
    exact matches_accept
  · rename_i hv
    rw [h] at hv
    contradiction

/-- Any other character is not read. -/
theorem failsWithin_sign {meaning : Char → Option α} (h : ∀ c ∈ p.rest.head?, meaning c = none) :
    (sign meaning p).FailsWithin b := by
  obtain ⟨k, _ | ⟨c, cs⟩⟩ := p
  · exact failsWithin_mismatch
  · simp only [sign]
    split
    · rename_i v hv
      rw [h c rfl] at hv
      contradiction
    · exact failsWithin_mismatch

/-- What is read as a sign is one character with that meaning. -/
theorem sign_of_gives {meaning : Char → Option α} {a : α} (h : (sign meaning p).Gives a q) :
    ∃ c, p.rest = c :: q.rest ∧ meaning c = some a := by
  obtain ⟨k, _ | ⟨c, cs⟩⟩ := p
  · exact absurd h not_gives_mismatch
  · cases hc : meaning c with
    | none => exact absurd (failsWithin_sign (b := 0) (by simp [hc])).1 h.not_fails
    | some v =>
      obtain ⟨rfl, rfl⟩ := h.unique (sign_of_some hc).1
      exact ⟨c, rfl, hc⟩

theorem sign_of_fails {meaning : Char → Option α} (h : (sign meaning p).Fails) :
    ∀ c ∈ p.rest.head?, meaning c = none := by
  obtain ⟨k, _ | ⟨c, cs⟩⟩ := p
  · nofun
  · cases hc : meaning c with
    | none => simp [hc]
    | some v => exact absurd h (sign_of_some hc).1.not_fails

/-- A character is read where it stands. -/
theorem matches_char (h : (c :: s).length ≤ n) :
    (char c (facing n (c :: s))).Matches () (facing n s) := by
  rw [facing_cons c h]
  exact sign_of_some (by simp)

theorem failsWithin_char (h : p.rest.head? ≠ some c) : (char c p).FailsWithin b :=
  failsWithin_sign fun d hd => if_neg fun hdc => h (by rw [← hdc]; exact hd)

/-- What is read as a character is that character. -/
theorem char_of_gives (h : (char c p).Gives () q) : p.rest = c :: q.rest := by
  obtain ⟨d, hd, hc⟩ := sign_of_gives h
  split at hc
  · rename_i hdc
    rw [hd, hdc]
  · contradiction

theorem char_of_fails (h : (char c p).Fails) : p.rest.head? ≠ some c := by
  intro hc
  have := sign_of_fails h c hc
  simp at this

/-! ## Words -/

theorem isWordChar_of_isWordStart (h : isWordStart c) : isWordChar c := by
  simp only [isWordStart, isWordChar, Char.isAlphanum, Bool.or_eq_true] at h ⊢
  exact h.imp_left .inl

theorem all_isWordChar (h : isName s) : s.all isWordChar := by
  cases s with
  | nil => rfl
  | cons c s =>
    rw [isName, Bool.and_eq_true] at h
    rw [List.all_cons, isWordChar_of_isWordStart h.1, h.2]
    rfl

/-- A word is a letter or an underscore, and characters of words behind it. -/
theorem Word.eq_cons (h : Word s name t) :
    ∃ c cs, s = c :: (cs ++ t) ∧ name = String.ofList (c :: cs) ∧ isWordStart c ∧
      cs.all isWordChar := by
  obtain ⟨rfl, hn, -⟩ := h
  cases hl : name.toList with
  | nil => simp [hl, Parsing.isName] at hn
  | cons c cs =>
    rw [hl, Parsing.isName, Bool.and_eq_true] at hn
    exact ⟨c, cs, rfl, by rw [← hl, String.ofList_toList], hn⟩

theorem Word.head_isWordStart (h : Word s name t) : ∃ c ∈ s.head?, isWordStart c := by
  obtain ⟨c, cs, rfl, -, hc, -⟩ := h.eq_cons
  exact ⟨c, rfl, hc⟩

/-- A word has at least one character. -/
theorem Word.length_lt (h : Word s name t) : t.length < s.length := by
  obtain ⟨c, cs, rfl, -⟩ := h.eq_cons
  simp only [List.length_cons, List.length_append]
  omega

/-- A run of characters that ends there is taken off as a whole. -/
theorem takeWhile_append_of_ends {f : Char → Bool} {cs : List Char} (h : cs.all f)
    (ht : ∀ c ∈ t.head?, f c = false) :
    (cs ++ t).takeWhile f = cs ∧ (cs ++ t).dropWhile f = t := by
  have hcs : ∀ c ∈ cs, f c := List.all_eq_true.mp h
  rw [List.takeWhile_append_of_pos hcs, List.dropWhile_append_of_pos hcs]
  cases t with
  | nil => simp
  | cons c t => simp [ht c rfl]

/-- What is dropped ends where a character does not belong. -/
theorem head_dropWhile (f : Char → Bool) (s : List Char) :
    ∀ c ∈ (s.dropWhile f).head?, f c = false := by
  intro c hc
  have := List.head?_dropWhile_not f s
  rw [hc] at this
  simpa using this

theorem dropWhile_of_head {f : Char → Bool} (h : ∀ c ∈ s.head?, f c = false) :
    s.dropWhile f = s := by
  cases s with
  | nil => rfl
  | cons c s => rw [List.dropWhile_cons_of_neg (by simp [h c rfl])]

/-- **A word is read as an identifier.** -/
theorem matches_identifier (h : Word s name t) (hn : s.length ≤ n) :
    (identifier (facing n s)).Matches name (facing n t) := by
  have hend := h.ends
  obtain ⟨c, cs, rfl, rfl, hc, hcs⟩ := h.eq_cons
  obtain ⟨htake, hdrop⟩ := takeWhile_append_of_ends hcs hend
  have hnext : Cursor.skip isWordChar ⟨(facing n (c :: (cs ++ t))).offset + 1, cs ++ t⟩ =
      facing n t := by
    rw [← facing_cons c hn, skip_facing (by simp only [List.length_cons] at hn; omega), hdrop]
  simp only [identifier, facing, if_pos hc, htake]
  exact matches_accept_of_eq hnext

/-- Where no word begins no identifier is read. -/
theorem identifier_of_head (h : ∀ c ∈ p.rest.head?, isWordStart c = false) :
    identifier p = .mismatch := by
  obtain ⟨k, _ | ⟨c, cs⟩⟩ := p
  · rfl
  · simp only [identifier, h c rfl]
    rfl

theorem failsWithin_identifier (h : ∀ c ∈ p.rest.head?, isWordStart c = false) :
    (identifier p).FailsWithin b := by
  rw [identifier_of_head h]
  exact failsWithin_mismatch

/-- What is read as an identifier is a word. -/
theorem word_of_gives (h : (identifier p).Gives name q) : Word p.rest name q.rest := by
  obtain ⟨k, _ | ⟨c, cs⟩⟩ := p
  · exact absurd h not_gives_mismatch
  · by_cases hc : isWordStart c
    · simp only [identifier, if_pos hc] at h
      obtain ⟨rfl, rfl⟩ := gives_accept.mp h
      refine ⟨?_, ?_, ?_⟩
      · simp [Cursor.skip]
      · simp only [String.toList_ofList, isName, hc, Bool.true_and]
        exact List.all_takeWhile
      · exact head_dropWhile isWordChar cs
    · simp only [identifier, if_neg hc] at h
      exact absurd h not_gives_mismatch

/-! ## Which characters begin which tokens -/

/-- What holds of a space, a tab and the line breaks holds of all layout. -/
theorem of_isLayout {P : Char → Prop} (h : isLayout c) (hspace : P ' ') (htab : P '\t')
    (hfeed : P '\n') (hreturn : P '\r') : P c := by
  simp only [isLayout, isSpace, isBreak, Bool.or_eq_true, decide_eq_true_eq] at h
  rcases h with (rfl | rfl) | (rfl | rfl)
  · exact hspace
  · exact htab
  · exact hfeed
  · exact hreturn

/-- A character of a kind that leaves all layout out is no layout. -/
theorem not_isLayout_of {f : Char → Bool} (h : f c) (hspace : f ' ' = false)
    (htab : f '\t' = false) (hfeed : f '\n' = false) (hreturn : f '\r' = false) :
    isLayout c = false := by
  rw [Bool.eq_false_iff]
  intro hl
  have := of_isLayout (P := fun c => f c = false) hl hspace htab hfeed hreturn
  rw [h] at this
  contradiction

/-- The character may begin a numeral. -/
def startsNumber (c : Char) : Bool := isSign c || isRunChar c

theorem toNat_le_of_startsNumber (h : startsNumber c) : c.toNat ≤ 57 := by
  simp only [startsNumber, isSign, isRunChar, Bool.or_eq_true, decide_eq_true_eq] at h
  rcases h with (rfl | rfl) | h | rfl
  · decide
  · decide
  · simp only [isDigit, Char.le_def, UInt32.le_iff_toNat_le, Bool.and_eq_true,
      decide_eq_true_eq] at h
    exact h.2
  · decide

theorem le_toNat_of_isWordStart (h : isWordStart c) : 65 ≤ c.toNat := by
  -- so few characters are below `A` that each of them can be looked at
  have hall : ∀ k < 65, isWordStart (Char.ofNat k) = false := by decide
  rcases Nat.lt_or_ge c.toNat 65 with hlt | hge
  · have := hall c.toNat hlt
    rw [Char.ofNat_toNat, h] at this
    contradiction
  · exact hge

/-- What begins a word begins no number. -/
theorem not_startsNumber_of_isWordStart (h : isWordStart c) : ¬ startsNumber c := fun k => by
  have := le_toNat_of_isWordStart h
  have := toNat_le_of_startsNumber k
  omega

/-- A numeral begins with a digit, a dot or a sign. -/
theorem startsNumber_of_split? {r : Numeral × List Char} (h : Numeral.split? s = some r) :
    ∃ c ∈ s.head?, startsNumber c := by
  obtain ⟨numeral, t⟩ := r
  have hrun := Numeral.run_ne_nil_of_split? h
  cases s with
  | nil => simp [Numeral.split?, Numeral.splitSign] at h
  | cons c cs =>
    refine ⟨c, rfl, ?_⟩
    by_cases hs : isSign c
    · simp [startsNumber, hs]
    · by_cases hr : isRunChar c
      · simp [startsNumber, hr]
      · simp [Numeral.split?, Numeral.splitSign, hs, hr] at h

/-- Behind the sign of a numeral there is a numeral again. -/
theorem split?_of_sign {r : Numeral × List Char} (hs : isSign c)
    (h : Numeral.split? (c :: s) = some r) : ∃ r, Numeral.split? s = some r := by
  -- behind two signs there would be no digits, so at most one is there
  have hsplit : Numeral.splitSign s = (none, s) ∨ s.takeWhile isRunChar = [] := by
    cases s with
    | nil => exact .inl rfl
    | cons d ds =>
      by_cases hd : isSign d
      · refine .inr (List.takeWhile_cons_of_neg ?_)
        simp only [isSign, Bool.or_eq_true, decide_eq_true_eq] at hd
        rcases hd with rfl | rfl <;> decide
      · exact .inl (by simp [Numeral.splitSign, hd])
  simp only [Numeral.split?, Numeral.splitSign, hs, if_true] at h
  rcases hsplit with hsplit | hnil
  · simp only [Numeral.split?, hsplit]
    split at h
    · rename_i hany
      rw [if_pos hany]
      exact ⟨_, rfl⟩
    · contradiction
  · simp [hnil] at h

/-! ## Numbers -/

/-- A number has at least one character. -/
theorem Number.length_lt (h : Number s x t) : t.length < s.length :=
  Numeral.length_rest_lt_of_split? h.choose_spec.1

theorem number_of_split? (h : Numeral.split? p.rest = none) : number p = .mismatch := by
  unfold number
  split
  · rfl
  · rename_i hsome
    rw [h] at hsome
    contradiction

/-- A numeral that is split off is a number or a fault. -/
theorem number_of_split?_eq_some {numeral : Numeral}
    (h : Numeral.split? p.rest = some (numeral, t)) :
    number p = match numeral.float? with
      | none => .fault (.malformedNumber (String.ofList numeral.text)) p.offset
      | some x =>
        if isInfinite x then .fault (.numberOutOfRange (String.ofList numeral.text)) p.offset
        else
          .accept x ⟨p.offset + numeral.text.length, t⟩ (Numeral.length_rest_lt_of_split? h) := by
  unfold number
  split
  · rename_i hnone
    rw [h] at hnone
    contradiction
  · rename_i hsome
    obtain ⟨rfl, rfl⟩ := Prod.mk.inj (Option.some.inj (h.symm.trans hsome))
    rfl

/-- **A number is read as one.** -/
theorem matches_number (h : Number s x t) (hn : s.length ≤ n) :
    (number (facing n s)).Matches x (facing n t) := by
  obtain ⟨numeral, hs, hx, hf⟩ := h
  have hlength := congrArg List.length (Numeral.text_append_of_split? hs)
  rw [List.length_append] at hlength
  rw [number_of_split?_eq_some (p := facing n s) hs, hx]
  simp only [hf, Bool.false_eq_true, if_false]
  refine matches_accept_of_eq ?_
  simp only [facing, Cursor.mk.injEq, and_true]
  omega

theorem failsWithin_number (h : Numeral.split? p.rest = none) : (number p).FailsWithin b := by
  rw [number_of_split? h]
  exact failsWithin_mismatch

theorem number_of_fails (h : (number p).Fails) : Numeral.split? p.rest = none := by
  unfold number at h
  split at h
  · assumption
  · split at h
    · exact absurd h not_fails_fault
    · split at h
      · exact absurd h not_fails_fault
      · exact absurd h not_fails_accept

/-- What is read as a number is one. -/
theorem number_of_gives (h : (number p).Gives x q) : Number p.rest x q.rest := by
  unfold number at h
  split at h
  · exact absurd h not_gives_mismatch
  · rename_i numeral rest hs
    split at h
    · exact absurd h not_gives_fault
    · rename_i y hy
      split at h
      · exact absurd h not_gives_fault
      · rename_i hf
        obtain ⟨rfl, rfl⟩ := gives_accept.mp h
        exact ⟨numeral, hs, hy, by simpa using hf⟩

/-! ## Quoted texts -/

/-- A string has at least its two quotes. -/
theorem Quotation.length_lt (h : Quotation s text t) : t.length < s.length := by
  rw [h.1]
  simp only [List.length_cons, List.length_append]
  omega

theorem quotedString_of_head (h : p.rest.head? ≠ some '"') : quotedString p = .mismatch := by
  unfold quotedString
  split
  · exact absurd rfl h
  · rfl

theorem quotedString_of_unterminated (h : s.dropWhile (· != '"') = []) :
    quotedString ⟨k, '"' :: s⟩ = .fault .unterminatedString k := by
  simp only [quotedString]
  split
  · rfl
  · rename_i heq
    rw [Cursor.skip, h] at heq
    exact absurd (congrArg Cursor.rest heq).symm (List.cons_ne_nil _ _)

/-- A string with both its quotes is read. -/
theorem quotedString_of_terminated (h : s.dropWhile (· != '"') = c :: t) :
    quotedString ⟨k, '"' :: s⟩ = .accept (String.ofList (s.takeWhile (· != '"')))
      ⟨k + 1 + (s.takeWhile (· != '"')).length + 1, t⟩ (by
        have := (List.dropWhile_suffix (p := (· != '"')) (l := s)).length_le
        rw [h] at this
        exact Nat.le_succ_of_le this) := by
  simp only [quotedString]
  split
  · rename_i heq
    rw [Cursor.skip, h] at heq
    exact absurd (congrArg Cursor.rest heq) (List.cons_ne_nil _ _)
  · rename_i heq
    rw [Cursor.skip, h] at heq
    simp only [Cursor.mk.injEq, List.cons.injEq] at heq
    obtain ⟨rfl, rfl, rfl⟩ := heq
    rfl

/-- **A quotation is read as a string.** -/
theorem matches_quotedString (h : Quotation s text t) (hn : s.length ≤ n) :
    (quotedString (facing n s)).Matches text (facing n t) := by
  obtain ⟨rfl, hq⟩ := h
  have hall : text.toList.all (· != '"') := by
    rw [List.all_eq_true]
    intro c hc
    simp only [bne_iff_ne]
    exact fun h => hq (h ▸ hc)
  obtain ⟨htake, hdrop⟩ := takeWhile_append_of_ends (t := '"' :: t) hall (by simp)
  rw [facing, quotedString_of_terminated hdrop, htake, String.ofList_toList]
  refine matches_accept_of_eq ?_
  simp only [List.length_cons, List.length_append] at hn
  simp only [facing, List.length_cons, List.length_append, Cursor.mk.injEq, and_true]
  omega

theorem failsWithin_quotedString (h : p.rest.head? ≠ some '"') :
    (quotedString p).FailsWithin b := by
  rw [quotedString_of_head h]
  exact failsWithin_mismatch

/-- What is read as a string is a quotation. -/
theorem quotation_of_gives (h : (quotedString p).Gives text q) :
    Quotation p.rest text q.rest := by
  by_cases hhead : p.rest.head? = some '"'
  · obtain ⟨k, cs⟩ := p
    obtain ⟨cs, rfl⟩ := List.head?_eq_some_iff.mp hhead
    cases hdrop : cs.dropWhile (· != '"') with
    | nil =>
      rw [quotedString_of_unterminated hdrop] at h
      exact absurd h not_gives_fault
    | cons c rest =>
      rw [quotedString_of_terminated hdrop] at h
      obtain ⟨rfl, rfl⟩ := gives_accept.mp h
      -- what ends a run without quotes is a quote
      obtain rfl : c = '"' := by
        simpa using head_dropWhile (· != '"') cs c (by rw [hdrop]; rfl)
      refine ⟨?_, ?_⟩
      · simp only [String.toList_ofList, ← hdrop, List.takeWhile_append_dropWhile]
      · rw [String.toList_ofList]
        intro hmem
        have := List.all_eq_true.mp (List.all_takeWhile (p := (· != '"')) (l := cs)) _ hmem
        simp at this
  · rw [quotedString_of_head hhead] at h
    exact absurd h not_gives_mismatch

end Planetarium.Parsing
