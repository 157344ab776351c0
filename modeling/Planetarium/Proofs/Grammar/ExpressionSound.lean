import Planetarium.Proofs.Grammar.Reads
import Mathlib.Tactic.ByContra

/-!
# What is read as an expression is derived

Each rule is followed from what it gives back to the production it stands for, with any sound rule
for what it holds (`Sound`).  Where a rule drops what an alternative has read, nothing of it is
left in the derivation: the next alternative starts from the same text.

Two productions hold because of what did not match.  A name stands for itself only after the call
has failed, and once its parenthesis is open a call never fails.  An argument is not followed by an
operator, because behind an operator that was left standing there is no numeral (`Loose`), so
neither an expression nor a closing parenthesis begins with it.
-/
namespace Planetarium.Grammar
open Parsing Text Decimal Attempt

variable {n : Nat} {l : Level} {s t u : Cursor} {e : Expr} {r : List Char}

/-! ## Chains -/

/-- The chain of factors that makes up a term. -/
def product (l : Level) (s : Cursor) : Attempt Expr s.left :=
  chain l Operator.multiplicative? s fun t _ => factor l t fun inner u _ => expression inner u

/-- The chain of terms that makes up an expression. -/
def sum (l : Level) (s : Cursor) : Attempt Expr s.left :=
  chain l Operator.additive? s fun t _ => product l t

/-- An expression is a chain of terms, where there is room for it. -/
theorem expression_eq (l : Level) (s : Cursor) :
    expression l s = l.within Level.expressionFrames fun _ => sum l s := by
  rw [expression]
  rfl

/-- Behind an operator that comes next there is no numeral. -/
def Loose (l : Level) (operator : Char → Option Operator) (s : List Char) : Prop :=
  ∀ c cs, s = c :: cs → (operator c).isSome → Numeral.split? (trim l cs) = none

section Chains
variable {operator : Char → Option Operator} {Q : Expr → List Char → Prop}

/-- A chain keeps what its first operand has and each operation preserves, and leaves no operator
with a numeral behind it. -/
theorem chainRest_gives {operand : Rule n} (htrim : ∀ e r, Q e r → trim l r = r)
    (hstep : ∀ left c op right r (u v : Cursor) h, Q left r → r = c :: u.rest →
      operator c = some op → (operand u h).Gives right v → Q (.binary op left right) v.rest)
    (hfails : ∀ u h, (operand u h).Fails → Numeral.split? (trim l u.rest) = none)
    {left : Expr} {t u : Cursor} {h : t.left < n} (hleft : Q left t.rest)
    (hg : (chainRest l operator operand left t h).Gives e u) :
    Q e u.rest ∧ Loose l operator u.rest := by
  have hskip : (l.skip t).rest = t.rest := htrim left _ hleft
  rw [chainRest] at hg
  rcases gives_branch.mp hg with ⟨op, v, hop, hg⟩ | ⟨hf, hg⟩
  · have hv := hop.progress
    have := l.left_skip_le t
    obtain ⟨c, hc, hmeaning⟩ := sign_of_gives hop
    rw [hskip] at hc
    rcases gives_branch.mp hg with ⟨right, w, hright, hg⟩ | ⟨hf, hg⟩
    · have := hright.progress
      exact chainRest_gives htrim hstep hfails
        (hstep left c op right _ v w _ hleft hc hmeaning hright) hg
    · -- the operator stays where it is, and behind it no operand begins
      obtain ⟨rfl, rfl⟩ := gives_accept.mp hg
      refine ⟨hleft, fun d cs hd _ => ?_⟩
      obtain rfl := (List.cons.inj (hc.symm.trans hd)).2
      exact hfails v _ hf
  · -- no operator comes next
    obtain ⟨rfl, rfl⟩ := gives_accept.mp (gives_since.mp hg)
    refine ⟨hleft, fun c cs hc hop => ?_⟩
    rw [sign_of_fails hf c (by rw [hskip, hc]; rfl)] at hop
    contradiction
termination_by t.left

/-- What a chain gives has what its first operand has and every step keeps. -/
theorem chain_gives {operand : Rule s.left} (htrim : ∀ e r, Q e r → trim l r = r)
    (hfirst : ∀ e t h, (operand s h).Gives e t → Q e t.rest)
    (hstep : ∀ left c op right r (u v : Cursor) h, Q left r → r = c :: u.rest →
      operator c = some op → (operand u h).Gives right v → Q (.binary op left right) v.rest)
    (hfails : ∀ u h, (operand u h).Fails → Numeral.split? (trim l u.rest) = none)
    (hg : (chain l operator s operand).Gives e t) :
    Q e t.rest ∧ Loose l operator t.rest := by
  obtain ⟨first, u, hu, hg⟩ := gives_andThen.mp hg
  exact chainRest_gives htrim hstep hfails (hfirst first u _ hu) hg

theorem not_fails_chainRest {operand : Rule n} {left : Expr} {t : Cursor} {h : t.left < n} :
    ¬ (chainRest l operator operand left t h).Fails := by
  intro hf
  rw [chainRest] at hf
  rcases fails_branch.mp hf with ⟨op, v, hop, hf⟩ | ⟨_, hf⟩
  · have hv := hop.progress
    have := l.left_skip_le t
    rcases fails_branch.mp hf with ⟨right, w, hright, hf⟩ | ⟨_, hf⟩
    · have := hright.progress
      exact not_fails_chainRest hf
    · exact not_fails_accept hf
  · exact not_fails_accept (fails_since.mp hf)
termination_by t.left

/-- A chain fails with its first operand only. -/
theorem fails_chain {operand : Rule s.left} :
    (chain l operator s operand).Fails ↔ (operand s (Nat.le_refl _)).Fails := by
  refine fails_andThen.trans ⟨fun hf => ?_, .inr⟩
  rcases hf with ⟨_, _, _, hf⟩ | hf
  · exact absurd hf not_fails_chainRest
  · exact hf

end Chains

/-! ## Numbers, calls, names and groups -/

/-- What is asked of the rule for the inside of a group or a call. -/
structure Sound (inner : Inner n) : Prop where
  reads : ∀ {l t h e u}, (inner l t h).Gives e u → Reads l t.rest (.expression e) u.rest
  /-- Behind an operator after the expression there is no numeral. -/
  loose : ∀ {l t h e u}, (inner l t h).Gives e u →
    ∀ c cs, u.rest = c :: cs → isOperator c → Numeral.split? (trim l cs) = none
  /-- No expression begins with an operator that is not the sign of a numeral. -/
  fails : ∀ {l t h c}, l.lacks Level.expressionFrames = false → t.rest.head? = some c →
    isOperator c → Numeral.split? t.rest = none → (inner l t h).Fails
  /-- Where there is no room for an expression, the rule stops. -/
  room : ∀ {l t h}, (inner l t h).Fails → l.lacks Level.expressionFrames = false

theorem Sound.of_le {m : Nat} {inner : Inner m} (hi : Sound inner) (h : n ≤ m) :
    Sound (n := n) fun l t ht => inner l t (Nat.lt_of_lt_of_le ht h) :=
  ⟨fun hg => hi.reads hg, fun hg => hi.loose hg,
    fun hroom hc hop hn => hi.fails hroom hc hop hn, fun hf => hi.room hf⟩

section Atoms

theorem close_gives {α : Type} {a b : α} {h : s.left ≤ n} (hg : (close a s h).Gives b t) :
    a = b ∧ s.rest = ')' :: t.rest := by
  rcases gives_branch.mp hg with ⟨_, u, hu, hg⟩ | ⟨_, hg⟩
  · obtain ⟨rfl, rfl⟩ := gives_accept.mp hg
    exact ⟨rfl, char_of_gives hu⟩
  · exact absurd (gives_since.mp hg) not_gives_stop

theorem not_fails_close {α : Type} {a : α} {h : s.left ≤ n} : ¬ (close a s h).Fails := by
  intro hf
  rcases fails_branch.mp hf with ⟨_, u, _, hf⟩ | ⟨_, hf⟩
  · exact not_fails_accept hf
  · exact not_fails_stop (fails_since.mp hf)

theorem eq_of_isOperator {c : Char} (h : isOperator c) : c = '+' ∨ c = '-' ∨ c = '*' ∨ c = '/' := by
  simp only [isOperator, Bool.or_eq_true] at h
  unfold Operator.additive? Operator.multiplicative? at h
  split at h <;> split at h <;> simp_all

/-- A character that may begin a numeral is not blank. -/
theorem not_isLayout_of_startsNumber {c : Char} (h : startsNumber c) : isLayout c = false :=
  not_isLayout_of h rfl rfl rfl rfl

theorem trim_of_split? {x : Numeral × List Char} (h : Numeral.split? r = some x) :
    trim l r = r := by
  obtain ⟨c, hc, hn⟩ := startsNumber_of_split? h
  exact trim_of_head_eq hc (not_isLayout_of_startsNumber hn)

/-- Where no numeral stands behind an operator, none begins with it. -/
theorem split?_of_operator {c : Char} {cs : List Char} (hc : isOperator c)
    (h : Numeral.split? (trim l cs) = none) : Numeral.split? (c :: cs) = none := by
  cases hs : Numeral.split? (c :: cs) with
  | none => rfl
  | some x =>
    -- the operator would be the sign of the numeral, and behind a sign there is one as well
    have hsign : isSign c := by
      obtain ⟨d, hd, hn⟩ := startsNumber_of_split? hs
      obtain rfl := Option.some.inj hd
      rcases eq_of_isOperator hc with rfl | rfl | rfl | rfl <;> revert hn <;> decide
    obtain ⟨y, hy⟩ := split?_of_sign hsign hs
    rw [trim_of_split? hy, hy] at h
    contradiction

variable {function : String} {inner : Inner n}

/-- The arguments of a call are derived. -/
theorem arguments_gives (hi : Sound inner) {before : List Expr} {s t : Cursor} {h : s.left < n}
    (hg : (arguments l function inner before s h).Gives e t) :
    ∃ es, e = .call function (before ++ es) ∧ Reads l s.rest (.arguments es) t.rest := by
  rw [arguments] at hg
  rcases gives_branch.mp hg with ⟨arg, u, hu, hg⟩ | ⟨hf, hg⟩
  · have hp := hu.progress
    have := l.left_skip_le u
    have harg := hi.reads hu
    have htrim := harg.trim_rest
    have hskip : (l.skip u).rest = u.rest := htrim
    rcases gives_branch.mp hg with ⟨_, v, hv, hg⟩ | ⟨hf, hg⟩
    · have := hv.progress
      have := l.left_skip_le v
      -- the arguments go on behind a comma
      have hcomma : u.rest = ',' :: v.rest := hskip.symm.trans (char_of_gives hv)
      obtain ⟨es, rfl, hes⟩ := arguments_gives hi hg
      refine ⟨arg :: es, by simp, .argument harg ?_ ?_⟩
      · rw [hcomma]
        rintro c ⟨⟩
        decide
      · rw [hcomma]
        exact hes
    · -- the arguments go on at once
      have hcomma : u.rest.head? ≠ some ',' := hskip ▸ char_of_fails hf
      have hafter : afterComma l u.rest = (l.skip u).rest := by
        unfold afterComma
        split
        · rename_i hcons
          rw [hcons] at hcomma
          exact absurd rfl hcomma
        · rfl
      have hno : NoOperator u.rest := by
        -- an operator left standing is neither a further argument nor the parenthesis
        intro c hc
        by_contra hop
        rw [Bool.not_eq_false] at hop
        obtain ⟨cs, hcs⟩ : ∃ cs, u.rest = c :: cs := List.head?_eq_some_iff.mp hc
        have hnumeral := split?_of_operator hop (hi.loose hu c cs hcs hop)
        have hinner := hi.fails (t := l.skip u) (h := by omega) harg.room_expression
          (by rw [hskip, hcs]; rfl) hop (by rw [hskip, hcs]; exact hnumeral)
        rw [arguments, branch_of_fails hinner] at hg
        have hclose := (close_gives (gives_since.mp hg)).2
        rw [hskip, hcs] at hclose
        obtain rfl := (List.cons.inj hclose).1
        revert hop
        decide
      obtain ⟨es, rfl, hes⟩ := arguments_gives hi hg
      exact ⟨arg :: es, by simp, .argument harg hno (hafter ▸ hes)⟩
  · obtain ⟨rfl, hs⟩ := close_gives hg
    exact ⟨[], by simp, hs ▸ .noArguments (hi.room hf)⟩
termination_by s.left

/-- Once its parenthesis is open, a call is not given up. -/
theorem not_fails_arguments {before : List Expr} {s : Cursor} {h : s.left < n} :
    ¬ (arguments l function inner before s h).Fails := by
  intro hf
  rw [arguments] at hf
  rcases fails_branch.mp hf with ⟨_, u, hu, hf⟩ | ⟨_, hf⟩
  · have := hu.progress
    have := l.left_skip_le u
    rcases fails_branch.mp hf with ⟨_, v, hv, hf⟩ | ⟨_, hf⟩
    · have := hv.progress
      have := l.left_skip_le v
      exact not_fails_arguments hf
    · exact not_fails_arguments hf
  · exact not_fails_close hf
termination_by s.left

end Atoms

section Factors
variable {inner : Inner s.left}

/-- A call that is read is derived. -/
theorem call_gives (hi : Sound inner) (hg : (call l s inner).Gives e t) :
    Reads l s.rest (.atom e) t.rest := by
  obtain ⟨function, u, hu, hg⟩ := gives_andThen.mp hg
  obtain ⟨_, v, hv, hg⟩ := gives_andThen.mp hg
  obtain ⟨hfull, hg⟩ := gives_enter.mp hg
  obtain ⟨es, rfl, hes⟩ := arguments_gives hi hg
  exact .call (word_of_gives hu) (char_of_gives hv) hfull hes

/-- A word that is not a call has no parenthesis behind it. -/
theorem call_fails {name : String} (hf : (call l s inner).Fails)
    (hn : (identifier s).Gives name t) : (trim l t.rest).head? ≠ some '(' := by
  rcases fails_andThen.mp hf with ⟨_, u, hu, hf⟩ | hf
  · obtain ⟨-, rfl⟩ := hn.unique hu
    rcases fails_andThen.mp hf with ⟨_, v, hv, hf⟩ | hf
    · exact absurd (fails_enter.mp hf).2 not_fails_arguments
    · exact char_of_fails hf
  · exact absurd hf hn.not_fails

/-- A group that is read is derived. -/
theorem group_gives (hi : Sound inner) (hg : (group l s inner).Gives e t) :
    Reads l s.rest (.atom e) t.rest := by
  obtain ⟨_, u, hu, hg⟩ := gives_andThen.mp hg
  obtain ⟨hfull, hg⟩ := gives_enter.mp hg
  obtain ⟨e, v, hv, hg⟩ := gives_andThen.mp hg
  obtain ⟨rfl, hclose⟩ := close_gives hg
  have he := hi.reads hv
  -- an expression leaves no blanks, so the parenthesis comes right behind it
  have htrim : (l.inGroup.skip v).rest = v.rest := he.trim_rest
  rw [char_of_gives hu]
  exact .group hfull (hclose ▸ htrim.symm ▸ he)

theorem alternatives_gives (hi : Sound inner) (hg : (alternatives l s inner).Gives e t) :
    Reads l s.rest (.atom e) t.rest := by
  rcases gives_orElse.mp hg with hg | ⟨_, hg⟩
  · obtain ⟨x, hx, rfl⟩ := gives_map.mp hg
    exact .number (number_of_gives hx)
  rcases gives_orElse.mp hg with hg | ⟨hcall, hg⟩
  · exact call_gives hi hg
  rcases gives_orElse.mp hg with hg | ⟨_, hg⟩
  · obtain ⟨name, hname, rfl⟩ := gives_map.mp hg
    exact .name (word_of_gives hname) (call_fails hcall hname)
  rcases gives_orElse.mp hg with hg | ⟨_, hg⟩
  · exact group_gives hi hg
  · exact absurd hg not_gives_miss

/-- What begins with an operator that is not the sign of a numeral is no atom. -/
theorem alternatives_fails {c : Char} (hc : s.rest.head? = some c) (hop : isOperator c)
    (hn : Numeral.split? s.rest = none) : (alternatives l s inner).Fails := by
  have hword : (identifier s).Fails := by
    refine (failsWithin_identifier (b := 0) fun d hd => ?_).1
    obtain rfl := Option.some.inj (hc.symm.trans hd)
    rcases eq_of_isOperator hop with rfl | rfl | rfl | rfl <;> decide
  have hgroup : (char '(' s).Fails := by
    refine (failsWithin_char (b := 0) ?_).1
    rw [hc]
    rcases eq_of_isOperator hop with rfl | rfl | rfl | rfl <;> decide
  refine fails_orElse.mpr ⟨fails_map.mpr (failsWithin_number (b := 0) hn).1, ?_⟩
  refine fails_orElse.mpr ⟨fails_andThen.mpr (.inr hword), ?_⟩
  refine fails_orElse.mpr ⟨fails_map.mpr hword, ?_⟩
  exact fails_orElse.mpr ⟨fails_andThen.mpr (.inr hgroup), rfl⟩

end Factors

/-- A factor that is read is derived. -/
theorem factor_gives {inner : Inner s.left} (hi : Sound inner)
    (hg : (factor l s inner).Gives e t) : Reads l s.rest (.factor e) t.rest := by
  obtain ⟨e, u, hu, hg⟩ := gives_andThen.mp hg
  obtain ⟨rfl, rfl⟩ := gives_accept.mp hg
  exact .factor (alternatives_gives (hi.of_le (l.left_skip_le s)) hu)

/-- Where a factor fails, no numeral stands. -/
theorem split?_of_factor_fails {inner : Inner s.left} (hf : (factor l s inner).Fails) :
    Numeral.split? (trim l s.rest) = none := by
  rcases fails_andThen.mp hf with ⟨_, _, _, hf⟩ | hf
  · exact absurd hf not_fails_accept
  · exact number_of_fails (fails_map.mp (fails_orElse.mp hf).1)

/-- At an operator that is no sign of a number there is no factor. -/
theorem factor_fails {inner : Inner s.left} {c : Char} (hc : s.rest.head? = some c)
    (hop : isOperator c) (hn : Numeral.split? s.rest = none) : (factor l s inner).Fails := by
  have hlayout : isLayout c = false := by
    rcases eq_of_isOperator hop with rfl | rfl | rfl | rfl <;> rfl
  have htrim : (l.skip s).rest = s.rest := trim_of_head_eq hc hlayout
  exact fails_andThen.mpr (.inr (alternatives_fails (htrim ▸ hc) hop (htrim ▸ hn)))

/-! ## Expressions -/

/-- The rule for expressions, inside something with `n` characters. -/
def expressionWithin (n : Nat) : Inner n := fun l t _ => expression l t

/-- A product that is read is derived, and no factor follows. -/
theorem product_gives {s t : Cursor} (hi : Sound (expressionWithin s.left))
    (hg : (product l s).Gives e t) :
    Reads l s.rest (.term e) t.rest ∧ Loose l Operator.multiplicative? t.rest := by
  refine chain_gives (Q := fun e r => Reads l s.rest (.term e) r) (fun e r h => h.edges.2)
    (fun e t h hf => ?_) (fun left c op right r u v h hl hr hop hright => ?_)
    (fun u h hf => split?_of_factor_fails hf) hg
  · exact .term (factor_gives (hi.of_le h) hf)
  · subst hr
    exact .product hl hop (factor_gives (hi.of_le h) hright)

/-- An expression that is read is derived, and no term follows. -/
theorem expression_gives {s t : Cursor} (hi : Sound (expressionWithin s.left))
    (hg : (expression l s).Gives e t) :
    Reads l s.rest (.expression e) t.rest ∧
      ∀ c cs, t.rest = c :: cs → isOperator c → Numeral.split? (trim l cs) = none := by
  rw [expression_eq] at hg
  obtain ⟨hroom, hg⟩ := gives_within.mp hg
  have h := chain_gives
    (Q := fun e r => Reads l s.rest (.expression e) r ∧ Loose l Operator.multiplicative? r)
    (fun e r h => h.1.trim_rest)
    (fun e t h hf => ?_) (fun left c op right r u v h hl hr hop hright => ?_)
    (fun u h hf => split?_of_factor_fails (fails_chain.mp hf)) hg
  · refine ⟨h.1.1, fun c cs hc hop => ?_⟩
    rw [isOperator, Bool.or_eq_true] at hop
    exact hop.elim (h.2 c cs hc) (h.1.2 c cs hc)
  · obtain ⟨hterm, hloose⟩ := product_gives (hi.of_le h) hf
    exact ⟨.expression hroom hterm, hloose⟩
  · subst hr
    obtain ⟨hterm, hloose⟩ := product_gives (hi.of_le h) hright
    exact ⟨.sum hl.1 hop hterm, hloose⟩

theorem expression_fails {s : Cursor} {c : Char} (hroom : l.lacks Level.expressionFrames = false)
    (hc : s.rest.head? = some c) (hop : isOperator c) (hn : Numeral.split? s.rest = none) :
    (expression l s).Fails := by
  rw [expression_eq, Level.within_of_room hroom]
  exact fails_chain.mpr (fails_chain.mpr (factor_fails hc hop hn))

/-- An expression only fails where there is room for it. -/
theorem room_of_expression_fails {s : Cursor} (hf : (expression l s).Fails) :
    l.lacks Level.expressionFrames = false := by
  rw [expression_eq] at hf
  exact (fails_within.mp hf).1

/-- The rule for expressions is sound, whatever is nested in them. -/
theorem sound_expressionWithin (n : Nat) : Sound (expressionWithin n) := by
  induction n using Nat.strongRecOn with
  | _ n ih =>
    -- what stands inside an expression has fewer characters left than the expression
    exact ⟨fun {l t h e u} hg => (expression_gives (ih t.left h) hg).1,
      fun {l t h e u} hg => (expression_gives (ih t.left h) hg).2,
      fun hroom hc hop hn => expression_fails hroom hc hop hn,
      fun hf => room_of_expression_fails hf⟩

/-- What is read as an expression is derived as one. -/
theorem reads_of_expression {s t : Cursor} (hg : (expression l s).Gives e t) :
    Reads l s.rest (.expression e) t.rest :=
  (expression_gives (sound_expressionWithin _) hg).1

end Planetarium.Grammar
