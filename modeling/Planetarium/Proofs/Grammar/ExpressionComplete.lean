import Planetarium.Proofs.Grammar.ExpressionSound

/-!
# What is derived as an expression is read

The other direction, one lemma for each production: the rule matches what the production derives,
provided the rules for its parts do, and looks no further than to where it ends.  The last is what
makes the lemmas compose into statements about reports, where everything that was missed counts.

A chain is followed operand by operand.  `Resumes` says that reading the operands so far has come
down to reading the rest of the chain, so a sum is read like its first term and one step more.
-/
namespace Planetarium.Grammar
open Parsing Text Decimal Attempt Cursor

variable {n m b : Nat} {l : Level} {s t u : List Char} {e left right : Expr} {name : String}

theorem skip_facing_eq_trim (h : s.length ≤ n) : l.skip (facing n s) = facing n (trim l s) :=
  skip_facing h

/-- The alternatives for an atom, with expressions inside. -/
def atom (l : Level) (s : Cursor) : Attempt Expr s.left :=
  alternatives l s (expressionWithin s.left)

/-- The factor at a cursor, with expressions inside. -/
def operandOfTerm (l : Level) (m : Nat) : Rule m := fun t _ => factor l t (expressionWithin t.left)

def operandOfSum (l : Level) (m : Nat) : Rule m := fun t _ => product l t

/-! ## Atoms -/

theorem split?_eq_none (h : ∀ c ∈ s.head?, ¬ startsNumber c) : Numeral.split? s = none := by
  cases hs : Numeral.split? s with
  | none => rfl
  | some x =>
    obtain ⟨c, hc, hn⟩ := startsNumber_of_split? hs
    exact absurd hn (h c hc)

/-- What the limit allows goes on as its inside. -/
theorem enter_resumes {α : Type} {inside : Level} {k : Nat} {body : Level → Attempt α m}
    (hfull : l.isFull = false) : (l.enter inside k body).Resumes b (body inside) :=
  ⟨[.opened k], nofun, Level.enter_of_not_isFull hfull⟩

theorem matches_close {α : Type} {v : α} (h : (')' :: t).length ≤ n)
    {hm : (facing n (')' :: t)).left ≤ m} :
    (close v (facing n (')' :: t)) hm).Matches v (facing n t) :=
  (matches_char h).branch matches_accept (Nat.le_refl _)

/-- A number is an atom. -/
theorem matches_atom_number {x : Float} (h : Number s x t) (hn : s.length ≤ n) :
    (atom l (facing n s)).Matches (.number x) (facing n t) :=
  ((matches_number h hn).map _).orElse

theorem failsWithin_number_of_word (h : Word s name t) :
    (number (facing n s)).FailsWithin b := by
  obtain ⟨c, hc, hw⟩ := h.head_isWordStart
  refine failsWithin_number (split?_eq_none fun d hd => ?_)
  obtain rfl := Option.some.inj (hc.symm.trans hd)
  exact not_startsNumber_of_isWordStart hw

/-- So is a name, if no parenthesis follows. -/
theorem matches_atom_name (h : Word s name t) (ht : (trim l t).head? ≠ some '(')
    (hn : s.length ≤ n) : (atom l (facing n s)).Matches (.ident name) (facing n t) := by
  have hname := matches_identifier h hn
  have hopen : (char '(' (l.skip (facing n t))).FailsWithin (facing n t).offset := by
    have := h.length_lt
    rw [skip_facing_eq_trim (by omega)]
    exact failsWithin_char ht
  -- the call is given up for want of its parenthesis, behind the name
  have hcall : (call l (facing n s) (expressionWithin _)).FailsWithin (facing n t).offset :=
    hname.andThen_fails hopen.andThen (Nat.le_refl _)
  exact ((failsWithin_number_of_word h).map _).orElse
    (hcall.orElse (hname.map _).orElse (Nat.le_refl _)) (Nat.le_refl _)

/-- So is a call, if its arguments are read and its level is not full. -/
theorem matches_atom_call {es : List Expr} {v : List Char} (h : Word s name t)
    (ht : trim l t = '(' :: u) (hfull : l.isFull = false)
    (hs : v.length ≤ (trim l.inGroup u).length)
    (hes : ∀ m h, (arguments l.inGroup name (expressionWithin m) []
      (facing n (trim l.inGroup u)) h).Matches (.call name es) (facing n v))
    (hn : s.length ≤ n) : (atom l (facing n s)).Matches (.call name es) (facing n v) := by
  have hlt := h.length_lt
  have hlu := length_lt_of_trim ht
  have hlw := length_trim_le (l := l.inGroup) (s := u)
  have hopen : (char '(' (l.skip (facing n t))).Matches () (facing n u) := by
    rw [skip_facing_eq_trim (by omega), ht]
    exact matches_char (by simp only [List.length_cons]; omega)
  have hskip : l.inGroup.skip (facing n u) = facing n (trim l.inGroup u) :=
    skip_facing_eq_trim (by omega)
  have hcall : (call l (facing n s) (expressionWithin _)).Matches (.call name es)
      (facing n v) := by
    refine (matches_identifier h hn).andThen ?_ (offset_facing_le (by omega))
    refine hopen.andThen ?_ (offset_facing_le (by omega))
    refine (enter_resumes hfull).matches ?_ (Nat.le_refl _)
    simp only [hskip]
    exact hes _ _
  exact ((failsWithin_number_of_word h).map _).orElse hcall.orElse (Nat.le_refl _)

/-- So is an expression in parentheses, if its level is not full. -/
theorem matches_atom_group (hfull : l.isFull = false)
    (he : Reads l.inGroup s (.expression e) (')' :: t))
    (hm : (expression l.inGroup (facing n s)).Matches e (facing n (')' :: t)))
    (hn : ('(' :: s).length ≤ n) : (atom l (facing n ('(' :: s))).Matches e (facing n t) := by
  have hle := he.length_le
  simp only [List.length_cons] at hle hn
  have hnumber : (number (facing n ('(' :: s))).FailsWithin (facing n t).offset := by
    refine failsWithin_number (split?_eq_none ?_)
    rintro c ⟨⟩
    decide
  have hname : (identifier (facing n ('(' :: s))).FailsWithin (facing n t).offset := by
    refine failsWithin_identifier ?_
    rintro c ⟨⟩
    decide
  have hskip : l.inGroup.skip (facing n (')' :: t)) = facing n (')' :: t) := by
    rw [skip_facing_eq_trim (by simp only [List.length_cons]; omega), he.trim_rest]
  have hgroup : (group l (facing n ('(' :: s)) (expressionWithin _)).Matches e (facing n t) := by
    refine (matches_char (by simpa using hn)).andThen ?_ (offset_facing_le (by omega))
    refine (enter_resumes hfull).matches ?_ (Nat.le_refl _)
    refine Matches.andThen hm ?_ (offset_facing_le (by simp))
    simp only [hskip]
    exact matches_close (by simp only [List.length_cons]; omega)
  exact (hnumber.map _).orElse ((FailsWithin.andThen hname).orElse ((hname.map _).orElse
    hgroup.orElse (Nat.le_refl _)) (Nat.le_refl _)) (Nat.le_refl _)

/-- What begins like no atom is none. -/
theorem failsWithin_atom (h : ∀ c ∈ s.head?, ¬ startsAtom c) :
    (atom l (facing n s)).FailsWithin (facing n s).offset := by
  have hstart : ∀ c ∈ s.head?, ¬ startsNumber c ∧ isWordStart c = false ∧ c ≠ '(' := by
    intro c hc
    have := h c hc
    simp only [startsAtom, Bool.or_eq_true, decide_eq_true_eq, not_or] at this
    exact ⟨this.1.1, Bool.eq_false_iff.mpr this.1.2, this.2⟩
  have hnumber : (number (facing n s)).FailsWithin (facing n s).offset :=
    failsWithin_number (split?_eq_none fun c hc => (hstart c hc).1)
  have hname : (identifier (facing n s)).FailsWithin (facing n s).offset :=
    failsWithin_identifier fun c hc => (hstart c hc).2.1
  have hopen : (char '(' (facing n s)).FailsWithin (facing n s).offset :=
    failsWithin_char fun hc => (hstart '(' hc).2.2 rfl
  exact (hnumber.map _).orElse_fails ((FailsWithin.andThen hname).orElse_fails
    ((hname.map _).orElse_fails ((FailsWithin.andThen hopen).orElse_fails
      (failsWithin_miss (Nat.le_refl _)))))

/-! ## Terms and expressions -/

/-- A factor is an atom with layout around it. -/
theorem matches_factor (hm : (atom l (facing n (trim l s))).Matches e (facing n t))
    (ht : t.length ≤ s.length) (hn : s.length ≤ n) :
    (factor l (facing n s) (expressionWithin s.length)).Matches e (facing n (trim l t)) := by
  have hatom : (atom l (l.skip (facing n s))).Matches e (facing n t) := by
    rwa [skip_facing_eq_trim hn]
  refine Matches.andThen hatom ?_ (offset_facing_le length_trim_le)
  exact matches_accept_of_eq (skip_facing_eq_trim (by omega))

/-- Where no atom begins there is no factor. -/
theorem failsWithin_factor (h : ∀ c ∈ (trim l s).head?, ¬ startsAtom c) (hn : s.length ≤ n) :
    (factor l (facing n s) (expressionWithin s.length)).FailsWithin
      (facing n (trim l s)).offset := by
  have hatom : (atom l (l.skip (facing n s))).FailsWithin (facing n (trim l s)).offset := by
    rw [skip_facing_eq_trim hn]
    exact failsWithin_atom h
  exact FailsWithin.andThen hatom

section Chains
variable {operator : Char → Option Operator} {operand : Rule m}

/-- A chain is read to its end where no operator comes next. -/
theorem matches_chainRest_of_head (htrim : trim l t = t) (hn : t.length ≤ n)
    (h : ∀ c ∈ t.head?, operator c = none) {hm : (facing n t).left < m} :
    (chainRest l operator operand e (facing n t) hm).Matches e (facing n t) := by
  have hskip : l.skip (facing n t) = facing n t := by rw [skip_facing_eq_trim hn, htrim]
  have hsign : (sign operator (l.skip (facing n t))).FailsWithin (facing n t).offset := by
    rw [hskip]
    exact failsWithin_sign h
  rw [chainRest]
  refine hsign.branch ⟨gives_accept.mpr ⟨rfl, rfl⟩, ?_⟩ (Nat.le_refl _)
  rw [hskip]
  refine within_since.mpr ⟨fun miss hmiss => ?_, within_accept⟩
  obtain rfl := List.mem_singleton.mp hmiss
  exact Nat.le_refl _

/-- Reading a chain comes down to reading what is after the next operation. -/
theorem chainRest_resumes {c : Char} {op : Operator} (htrim : trim l (c :: t) = c :: t)
    (hc : operator c = some op) (hn : (c :: t).length ≤ n)
    {ht : (facing n t).left ≤ m} (hright : (operand (facing n t) ht).Matches right (facing n u))
    {hm : (facing n (c :: t)).left < m} {hu : (facing n u).left < m} :
    (chainRest l operator operand left (facing n (c :: t)) hm).Resumes (facing n u).offset
      (chainRest l operator operand (.binary op left right) (facing n u) hu) := by
  have hskip : l.skip (facing n (c :: t)) = facing n (c :: t) := by
    rw [skip_facing_eq_trim hn, htrim]
  have hut := hright.1.progress
  simp only [facing_left] at hut
  have hsign : (sign operator (l.skip (facing n (c :: t)))).Matches op (facing n t) := by
    rw [hskip, facing_cons c hn]
    exact sign_of_some hc
  rw [chainRest]
  refine (hsign.branch_resumes.mono (offset_facing_le (by omega))).trans ?_
  exact hright.branch_resumes

end Chains

/-- The chain of factors after the first. -/
abbrev moreFactors (l : Level) (e : Expr) (t : Cursor) (h : t.left < m) : Attempt Expr m :=
  chainRest l Operator.multiplicative? (operandOfTerm l m) e t h

/-- The chain of terms after the first. -/
abbrev moreTerms (l : Level) (e : Expr) (t : Cursor) (h : t.left < m) : Attempt Expr m :=
  chainRest l Operator.additive? (operandOfSum l m) e t h

/-- A product goes on behind its first factor. -/
theorem product_resumes_of_factor
    (hm : (factor l (facing n s) (expressionWithin s.length)).Matches e (facing n t)) :
    (product l (facing n s)).Resumes (facing n t).offset
      (moreFactors l e (facing n t) hm.1.progress) := by
  rw [product, chain, andThen]
  exact hm.branch_resumes

/-- A sum goes on behind its first product. -/
theorem expression_resumes_of_product (hroom : l.lacks Level.expressionFrames = false)
    (hm : (product l (facing n s)).Matches e (facing n t)) :
    (expression l (facing n s)).Resumes (facing n t).offset
      (moreTerms l e (facing n t) hm.1.progress) := by
  rw [expression_eq, Level.within_of_room hroom, sum, chain, andThen]
  exact hm.branch_resumes

/-- Where no atom begins there is no expression. -/
theorem failsWithin_expression (hroom : l.lacks Level.expressionFrames = false)
    (h : ∀ c ∈ (trim l s).head?, ¬ startsAtom c) (hn : s.length ≤ n) :
    (expression l (facing n s)).FailsWithin (facing n (trim l s)).offset := by
  rw [expression_eq, Level.within_of_room hroom]
  exact FailsWithin.andThen (FailsWithin.andThen (failsWithin_factor h hn))

/-! ## Arguments of a call -/

section Arguments
variable {function : String} {before es : List Expr}

/-- At the parenthesis there are no more arguments. -/
theorem matches_arguments_nil (hroom : l.lacks Level.expressionFrames = false)
    (hn : (')' :: t).length ≤ n) {hm : (facing n (')' :: t)).left < m} :
    (arguments l function (expressionWithin m) before (facing n (')' :: t)) hm).Matches
      (.call function before) (facing n t) := by
  have htrim : trim l (')' :: t) = ')' :: t := trim_of_head_eq rfl rfl
  have hinner : (expression l (facing n (')' :: t))).FailsWithin (facing n t).offset := by
    refine (failsWithin_expression hroom ?_ hn).mono ?_
    · rw [htrim]
      rintro c ⟨⟩
      decide
    · rw [htrim]
      exact offset_facing_le (by simp)
  rw [arguments]
  exact hinner.branch (matches_close hn) (Nat.le_refl _)

/-- An argument and those behind it are read one after the other. -/
theorem matches_arguments_cons (he : Reads l s (.expression e) t)
    (hm : (expression l (facing n s)).Matches e (facing n t))
    (hu : u.length ≤ (afterComma l t).length)
    (hes : ∀ m before h, (arguments l function (expressionWithin m) before
      (facing n (afterComma l t)) h).Matches (.call function (before ++ es)) (facing n u))
    (hn : s.length ≤ n) {h : (facing n s).left < m} :
    (arguments l function (expressionWithin m) before (facing n s) h).Matches
      (.call function (before ++ e :: es)) (facing n u) := by
  have hle := he.length_le
  have hafter := length_afterComma_le (l := l) (s := t)
  have hskip : l.skip (facing n t) = facing n t := by
    rw [skip_facing_eq_trim (by omega), he.trim_rest]
  have happend : before ++ e :: es = before ++ [e] ++ es := by simp
  rw [happend, arguments]
  refine Matches.branch hm ?_ (offset_facing_le (by omega))
  -- with a comma or without one, the next argument begins at `afterComma`
  by_cases hcomma : t.head? = some ','
  · obtain ⟨v, rfl⟩ : ∃ v, t = ',' :: v := List.head?_eq_some_iff.mp hcomma
    simp only [List.length_cons] at hle
    have hchar : (char ',' (l.skip (facing n (',' :: v)))).Matches () (facing n v) := by
      rw [hskip]
      exact matches_char (by simp only [List.length_cons]; omega)
    have hv : l.skip (facing n v) = facing n (afterComma l (',' :: v)) :=
      skip_facing_eq_trim (by omega)
    have hvle := length_trim_le (l := l) (s := v)
    refine hchar.branch ?_ (offset_facing_le (Nat.le_trans hu hvle))
    simp only [hv]
    exact hes _ _ _
  · have hchar : (char ',' (l.skip (facing n t))).FailsWithin (facing n t).offset := by
      rw [hskip]
      exact failsWithin_char hcomma
    have hv : l.skip (facing n t) = facing n (afterComma l t) := by
      rw [hskip]
      unfold afterComma
      split
      · exact absurd rfl hcomma
      · rw [he.trim_rest]
    refine hchar.branch ?_ (offset_facing_le (by omega))
    simp only [hv]
    exact hes _ _ _

end Arguments

end Planetarium.Grammar
