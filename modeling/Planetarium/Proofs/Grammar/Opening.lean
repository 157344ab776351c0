import Planetarium.Proofs.Grammar.CommandSound
import Planetarium.Proofs.Grammar.ExpressionComplete
import Planetarium.Proofs.Parsing.Opening

/-!
# How often an expression opens a group or a call

An expression never goes back over what it has opened.  Where it has looked behind an operator in
vain it ends in front of that operator, and nothing that may follow an expression begins with one
(`Stuck`).
-/
namespace Planetarium.Grammar
open Parsing Text Decimal Attempt

variable {text : List Char} {n : Nat} {l : Level} {s t u : Cursor} {e : Expr}
  {halt : List Char → Prop}

/-! ## Expressions -/

/-- After the blanks an operator comes next. -/
def Stuck (l : Level) (r : List Char) : Prop := ∃ c ∈ (trim l r).head?, isOperator c

/-- Neither a number nor a word nor a group begins here. -/
structure NoAtom (r : List Char) : Prop where
  number : Numeral.split? r = none
  word : ∀ c ∈ r.head?, isWordStart c = false
  group : r.head? ≠ some '('

section Chains
variable {operator : Char → Option Operator} {H : List Char → Prop}

/-- A chain of operands goes on behind its first one, or is silent where that has got stuck. -/
theorem climbs_chainRest {operand : Rule n}
    (ho : ∀ u h, u.Within text → Climbs text u H (operand u h))
    (hH : ∀ r, H r → ∀ c ∈ (trim l r).head?, operator c = none)
    {left : Expr} {t : Cursor} {h : t.left < n} (ht : t.Within text) :
    Climbs text t (fun r => H r ∨ ∃ c ∈ (trim l r).head?, (operator c).isSome)
      (chainRest l operator operand left t h) ∧
    (H t.rest → Silent text t (fun r => H r ∨ ∃ c ∈ (trim l r).head?, (operator c).isSome)
      (chainRest l operator operand left t h)) := by
  have hskip : (l.skip t).Within text := ht.skip
  have hleft := l.left_skip_le t
  rw [chainRest]
  constructor
  · refine climbs_branch (moves_sign hskip).openings_eq (fun op u hu => ?_) fun _ =>
      (climbs_accept ht (Nat.le_refl _)).since_misses rfl
    have hlt := hu.progress
    have huw := (moves_sign hskip).within hu
    have htu : t.offset ≤ u.offset := ht.offset_le huw (by omega)
    refine ((ho u _ huw).mono htu fun _ hr => hr).branch
      (fun right v hv hvw _ => ?_) fun _ => .inr ?_
    · have := hv.progress
      exact climbs_chainRest ho hH hvw
    · -- the operator stays where it is
      obtain ⟨c, hc, hop⟩ := sign_of_gives hu
      refine silent_accept ht (Nat.le_refl _) (.inr ⟨c, ?_, by rw [hop]; rfl⟩)
      exact (congrArg List.head? hc : _)
  · intro hhalt
    refine silent_branch (moves_sign hskip).openings_eq (fun op u hu => ?_) fun _ =>
      (silent_accept ht (Nat.le_refl _) (.inl hhalt)).since_misses rfl
    obtain ⟨c, hc, hop⟩ := sign_of_gives hu
    have hhead : (trim l t.rest).head? = some c := (congrArg List.head? hc : _)
    rw [hH _ hhalt c hhead] at hop
    contradiction
termination_by t.left

/-- A chain climbs if its operands do, and is stuck where no operator follows. -/
theorem climbs_chain {operand : Rule s.left}
    (ho : ∀ u h, u.Within text → Climbs text u H (operand u h))
    (hH : ∀ r, H r → ∀ c ∈ (trim l r).head?, operator c = none) (hs : s.Within text) :
    Climbs text s (fun r => H r ∨ ∃ c ∈ (trim l r).head?, (operator c).isSome)
      (chain l operator s operand) :=
  (ho s (Nat.le_refl _) hs).andThen fun _ _ _ ht _ => climbs_chainRest ho hH ht

end Chains

section Groups
variable {α : Type}

/-- A bracket that has been read is one. -/
theorem opens_of_gives {c : Char} {u : Unit} (h : (char c s).Gives u t) (hc : opens c) :
    ∃ c ∈ s.rest.head?, opens c :=
  ⟨c, congrArg List.head? (char_of_gives h), hc⟩

/-- A bracket climbs if what is inside it climbs behind the bracket. -/
theorem climbs_enter {inside : Level} {body : Level → Attempt α n}
    (hs : ∃ c ∈ s.rest.head?, opens c) (hw : s.Within text)
    (hb : Climbs text t halt (body inside)) (hst : s.offset < t.offset) :
    Climbs text s halt (l.enter inside s.offset body) := by
  refine Climbs.opened (t := t) ?_ hst (by rwa [hw.getElem?])
  split
  · exact climbs_stop
  · exact hb

theorem climbs_close {v : α} {h : s.left ≤ n} (hs : s.Within text) :
    Climbs text s halt (close v s h) :=
  climbs_branch (moves_char hs).openings_eq
    (fun _ _ ht => climbs_accept ((moves_char hs).within ht) ((moves_char hs).offset_le hs ht))
    fun _ => climbs_stop.since_misses rfl

/-- Without its parenthesis a closing opens nothing. -/
theorem silent_close {v : α} {h : s.left ≤ n} (hs : s.Within text)
    (hhead : s.rest.head? ≠ some ')') : Silent text s halt (close v s h) := by
  refine silent_branch (moves_char hs).openings_eq (fun _ t ht => ?_) fun _ =>
    silent_stop.since_misses rfl
  exact absurd (congrArg List.head? (char_of_gives ht)) hhead

end Groups

/-- What is asked of the rule for the inside of a group or a call. -/
structure InnerClimbs (text : List Char) (inner : Inner n) : Prop where
  sound : Sound inner
  climbs : ∀ {l t h}, t.Within text → Climbs text t (Stuck l) (inner l t h)
  noAtom : ∀ {l t h}, NoAtom (trim l t.rest) →
    openings (inner l t h).log = [] ∧ ∀ e u, ¬ (inner l t h).Gives e u

theorem InnerClimbs.of_le {m : Nat} {inner : Inner m} (hi : InnerClimbs text inner) (h : n ≤ m) :
    InnerClimbs (n := n) text fun l t ht => inner l t (Nat.lt_of_lt_of_le ht h) :=
  ⟨hi.sound.of_le h, fun ht => hi.climbs ht, fun hn => hi.noAtom hn⟩

/-- Where no atom begins there is none. -/
theorem noAtom_of_head {r : List Char} {c : Char} (hc : r.head? = some c)
    (h : startsAtom c = false) : NoAtom r := by
  simp only [startsAtom, Bool.or_eq_false_iff, decide_eq_false_iff_not] at h
  refine ⟨split?_eq_none ?_, ?_, ?_⟩
  · rw [hc]
    rintro d ⟨⟩
    simp [h.1.1]
  · rw [hc]
    rintro d ⟨⟩
    exact h.1.2
  · rw [hc]
    exact fun heq => h.2 (Option.some.inj heq)

/-- At an operator that is no sign of a number there is none either. -/
theorem noAtom_of_operator {c : Char} {cs : List Char} (hc : isOperator c)
    (hn : Numeral.split? (c :: cs) = none) : NoAtom (c :: cs) := by
  refine ⟨hn, ?_, ?_⟩
  · rintro d ⟨⟩
    rcases eq_of_isOperator hc with rfl | rfl | rfl | rfl <;> decide
  · rcases eq_of_isOperator hc with rfl | rfl | rfl | rfl <;> simp

section Atoms
variable {function : String} {inner : Inner n}

/-- Where an argument has got stuck, a call ends without opening anything more. -/
theorem silent_arguments (hi : InnerClimbs text inner) {before : List Expr} {h : s.left < n}
    (hs : s.Within text) (hno : NoAtom (trim l s.rest)) (hhead : s.rest.head? ≠ some ')') :
    Silent text s halt (arguments l function inner before s h) := by
  rw [arguments]
  obtain ⟨hnil, hnone⟩ := hi.noAtom (h := h) hno
  exact silent_branch hnil (fun e u hg => absurd hg (hnone e u)) fun _ => silent_close hs hhead

/-- Arguments climb if the expressions inside them do. -/
theorem climbs_arguments (hi : InnerClimbs text inner) {before : List Expr} {s : Cursor}
    {h : s.left < n} (hs : s.Within text) :
    Climbs text s halt (arguments l function inner before s h) := by
  rw [arguments]
  refine (hi.climbs hs).branch (fun arg t hg ht hst => ?_) fun hf => ?_
  · have hlt := hg.progress
    have hle := l.left_skip_le t
    have hskip : (l.skip t).Within text := ht.skip
    have htu : t.offset ≤ (l.skip t).offset := ht.offset_le hskip hle
    constructor
    · refine climbs_branch (moves_char hskip).openings_eq (fun _ v hv => ?_) fun _ =>
        (climbs_arguments hi hskip).mono htu fun _ hr => hr
      have hvt := hv.progress
      have hle' := l.left_skip_le v
      have hvw : (l.skip v).Within text := ((moves_char hskip).within hv).skip
      exact (climbs_arguments hi hvw).mono (ht.offset_le hvw (by omega)) fun _ hr => hr
    · rintro ⟨c, hc, hop⟩
      obtain ⟨cs, hcs⟩ : ∃ cs, (l.skip t).rest = c :: cs := List.head?_eq_some_iff.mp hc
      have hrest : t.rest = c :: cs := (hi.sound.reads hg).trim_rest.symm.trans hcs
      have hno : NoAtom (c :: cs) :=
        noAtom_of_operator hop (split?_of_operator hop (hi.sound.loose hg c cs hrest hop))
      have htrim : trim l (c :: cs) = c :: cs := hrest ▸ (hi.sound.reads hg).trim_rest
      refine silent_branch (moves_char hskip).openings_eq (fun _ v hv => ?_) fun _ => ?_
      · have hcomma := char_of_gives hv
        rw [hcs] at hcomma
        obtain rfl := (List.cons.inj hcomma).1
        exact absurd hop (by decide)
      · refine (silent_arguments hi hskip ?_ ?_).mono htu fun _ hr => hr
        · rw [hcs, htrim]
          exact hno
        · rw [hcs]
          rintro ⟨⟩
          exact absurd hop (by decide)
  · by_cases hhead : s.rest.head? = some ')'
    · -- at the closing parenthesis nothing has been opened
      have hno : NoAtom (trim l s.rest) := by
        rw [trim_of_head_eq hhead rfl]
        exact noAtom_of_head hhead rfl
      exact .inl ⟨(hi.noAtom hno).1, climbs_close hs⟩
    · exact .inr (silent_close hs hhead)
termination_by s.left

end Atoms

section Factors
variable {inner : Inner s.left}

theorem climbs_call (hi : InnerClimbs text inner) (hs : s.Within text) :
    Climbs text s halt (call l s inner) := by
  refine climbs_andThen (moves_identifier hs).openings_eq fun function t ht => ?_
  have htw := (moves_identifier hs).within ht
  have hskip : (l.skip t).Within text := htw.skip
  have hst := (moves_identifier hs).offset_le hs ht
  have htu := htw.offset_le hskip (l.left_skip_le t)
  refine climbs_andThen (moves_char hskip).openings_eq fun _ v hv => ?_
  have hvw := (moves_char hskip).within hv
  have hlt : (l.skip t).offset < v.offset := hskip.offset_lt hvw hv.progress
  have hcall : Climbs text v halt
      (arguments l.inGroup function inner [] (l.inGroup.skip v) (by
        have := ht.progress
        have := l.left_skip_le t
        have := hv.progress
        have := l.inGroup.left_skip_le v
        omega)) :=
    (climbs_arguments hi hvw.skip).mono (hvw.offset_le hvw.skip (l.inGroup.left_skip_le v))
      fun _ hr => hr
  exact (climbs_enter (opens_of_gives hv rfl) hskip hcall hlt).mono
    (Nat.le_trans hst htu) fun _ hr => hr

/-- A call that does not match has opened nothing. -/
theorem openings_of_call_fails (hf : (call l s inner).Fails) (hs : s.Within text) :
    openings (call l s inner).log = [] := by
  refine openings_andThen (moves_identifier hs).openings_eq hf fun function t ht hf => ?_
  have hskip : (l.skip t).Within text := ((moves_identifier hs).within ht).skip
  refine openings_andThen (moves_char hskip).openings_eq hf fun _ v hv hf => ?_
  exact absurd (fails_enter.mp hf).2 not_fails_arguments

theorem climbs_group (hi : InnerClimbs text inner) (hs : s.Within text) :
    Climbs text s halt (group l s inner) := by
  refine climbs_andThen (moves_char hs).openings_eq fun _ t ht => ?_
  have htw := (moves_char hs).within ht
  have hlt : s.offset < t.offset := hs.offset_lt htw ht.progress
  refine climbs_enter (opens_of_gives ht rfl) hs ?_ hlt
  refine (hi.climbs htw).andThen fun e u hu huw _ => ?_
  have huv := huw.offset_le huw.skip (l.inGroup.left_skip_le u)
  refine ⟨(climbs_close huw.skip).mono huv fun _ hr => hr, ?_⟩
  rintro ⟨c, hc, hop⟩
  refine (silent_close huw.skip ?_).mono huv fun _ hr => hr
  intro hhead
  obtain rfl := Option.some.inj (hc.symm.trans hhead)
  exact absurd hop (by decide)

theorem climbs_alternatives (hi : InnerClimbs text inner) (hs : s.Within text) :
    Climbs text s halt (alternatives l s inner) := by
  have hnumber := (moves_number hs).map Expr.number
  have hword := (moves_identifier hs).map Expr.ident
  refine (hnumber.climbs hs).orElse fun _ => .inl ⟨hnumber.openings_eq, ?_⟩
  refine (climbs_call hi hs).orElse fun hf => .inl ⟨openings_of_call_fails hf hs, ?_⟩
  refine (hword.climbs hs).orElse fun _ => .inl ⟨hword.openings_eq, ?_⟩
  exact (climbs_group hi hs).orElse fun _ => .inr silent_miss

/-- So does a factor. -/
theorem climbs_factor (hi : InnerClimbs text inner) (hs : s.Within text) :
    Climbs text s halt (factor l s inner) := by
  have hskip : (l.skip s).Within text := hs.skip
  have hle := l.left_skip_le s
  have hatom : Climbs text (l.skip s) (fun _ => False) (alternatives l (l.skip s)
      fun l t h => inner l t (Nat.lt_of_lt_of_le h hle)) := climbs_alternatives (hi.of_le hle) hskip
  refine (hatom.andThen fun e t _ ht _ => ⟨?_, False.elim⟩).mono (hs.offset_le hskip hle)
    fun _ hr => hr
  exact climbs_accept ht.skip (ht.offset_le ht.skip (l.left_skip_le t))

theorem char_of_head {c : Char} (h : s.rest.head? ≠ some c) : char c s = .mismatch := by
  obtain ⟨k, _ | ⟨d, ds⟩⟩ := s
  · rfl
  · have hne : d ≠ c := fun heq => h (congrArg some heq)
    simp only [char, sign, if_neg hne]

/-- Where no atom begins, the alternatives come to nothing. -/
theorem alternatives_of_noAtom (h : NoAtom s.rest) :
    alternatives l s inner = .miss s.offset .expression := by
  rw [alternatives, call, group, number_of_split? h.number, identifier_of_head h.word,
    char_of_head h.group]
  rfl

/-- Where there is no atom a factor is missed. -/
theorem factor_of_noAtom (h : NoAtom (trim l s.rest)) :
    factor l s inner = .miss (l.skip s).offset .expression := by
  rw [factor, alternatives_of_noAtom h]
  rfl

end Factors

theorem sum_of_noAtom (h : NoAtom (trim l s.rest)) :
    sum l s = .miss (l.skip s).offset .expression := by
  rw [sum, chain, product, chain, factor_of_noAtom h]
  rfl

/-- Where no atom begins, an expression comes to nothing, with room for it or without. -/
theorem expression_of_noAtom (h : NoAtom (trim l s.rest)) :
    openings (expression l s).log = [] ∧ ∀ e u, ¬ (expression l s).Gives e u := by
  rw [expression_eq]
  cases hroom : l.lacks Level.expressionFrames with
  | true =>
    rw [Level.within_of_lacks hroom]
    exact ⟨rfl, fun _ _ => not_gives_stop⟩
  | false =>
    rw [Level.within_of_room hroom, sum_of_noAtom h]
    exact ⟨rfl, fun _ _ => not_gives_miss⟩

theorem climbs_product (hi : InnerClimbs text (expressionWithin s.left)) (hs : s.Within text) :
    Climbs text s (fun r => ∃ c ∈ (trim l r).head?, (Operator.multiplicative? c).isSome)
      (product l s) :=
  (climbs_chain (H := fun _ => False) (fun _ h hu => climbs_factor (hi.of_le h) hu)
    (fun _ h => h.elim) hs).mono (Nat.le_refl _) fun _ hr => hr.resolve_left id

/-- An expression climbs if those inside it do. -/
theorem climbs_expression_of (hi : InnerClimbs text (expressionWithin s.left))
    (hs : s.Within text) : Climbs text s (Stuck l) (expression l s) := by
  rw [expression_eq]
  refine climbs_within fun _ => ?_
  refine (climbs_chain (fun u h hu => climbs_product (hi.of_le h) hu) ?_ hs).mono
    (Nat.le_refl _) ?_
  · -- the operators of the two tiers are different ones
    rintro r ⟨c, hc, hop⟩ d hd
    obtain rfl := Option.some.inj (hc.symm.trans hd)
    unfold Operator.multiplicative? at hop
    split at hop
    · rfl
    · rfl
    · contradiction
  · rintro r (⟨c, hc, hop⟩ | ⟨c, hc, hop⟩)
    · exact ⟨c, hc, by rw [isOperator, hop, Bool.or_true]⟩
    · exact ⟨c, hc, by rw [isOperator, hop, Bool.true_or]⟩

/-- Expressions inside brackets climb. -/
theorem innerClimbs (n : Nat) : InnerClimbs text (expressionWithin n) := by
  induction n using Nat.strongRecOn with
  | _ n ih =>
    exact ⟨sound_expressionWithin n, fun {l t h} ht => climbs_expression_of (ih t.left h) ht,
      fun {l t h} hno => expression_of_noAtom hno⟩

/-- An expression opens further and further on, and ends behind what it has opened or in front of an
operator. -/
theorem climbs_expression (hs : s.Within text) : Climbs text s (Stuck l) (expression l s) :=
  climbs_expression_of (innerClimbs _) hs

end Planetarium.Grammar
