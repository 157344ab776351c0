import Planetarium.Proofs.Decimal.Numeral
import Planetarium.Proofs.Grammar.Reads

/-!
# What is derived stays derived before another line

A derivation says nothing about what comes after the text, so a line break and anything else may
be added behind it.  No token grows over a line break.  Only inside a group or a call is a line
break a blank, and then the derivation has not reached the end of the text, because the closing
parenthesis is still to come: that is what `Open` asks of what is left.
-/
namespace Planetarium.Grammar
open Parsing Text Decimal

variable {l : Level} {s t u : List Char} {p : Phrase} {f : Char → Bool} {more : List Char}

/-- The text with another line behind it. -/
def addLine (more s : List Char) : List Char := s ++ '\n' :: more

@[simp] theorem addLine_nil : addLine more [] = '\n' :: more := rfl

@[simp] theorem addLine_cons {c : Char} : addLine more (c :: s) = c :: addLine more s := rfl

/-- The first character stays, or is the line break. -/
theorem head?_addLine : (addLine more s).head? = some (s.head?.getD '\n') := by
  cases s <;> rfl

/-- What holds of the first character and of a line break holds with the line added. -/
theorem forall_head_addLine {P : Char → Prop} (h : ∀ c ∈ s.head?, P c) (hbreak : P '\n') :
    ∀ c ∈ (addLine more s).head?, P c := by
  cases s with
  | nil => rintro c ⟨⟩; exact hbreak
  | cons d s => exact h

/-! ## Tokens -/

/-- Dropping stops before the line that is added. -/
theorem dropWhile_addLine (h : s.dropWhile f ≠ [] ∨ f '\n' = false) :
    (addLine more s).dropWhile f = addLine more (s.dropWhile f) := by
  induction s with
  | nil =>
    rcases h with h | h
    · exact absurd rfl h
    · simp [h]
  | cons c s ih =>
    cases hc : f c with
    | true => simpa [hc] using ih (by simpa [hc] using h)
    | false => simp [hc]

theorem dropWhile_isSpace_addLine :
    (addLine more s).dropWhile isSpace = addLine more (s.dropWhile isSpace) :=
  dropWhile_addLine (.inr (by decide))

/-- A word stays a word. -/
theorem word_addLine {name : String} (h : Word s name t) :
    Word (addLine more s) name (addLine more t) := by
  refine ⟨?_, h.isName, forall_head_addLine h.ends (by decide)⟩
  rw [h.text_eq, addLine, addLine, List.append_assoc]

/-- A number stays a number. -/
theorem number_addLine {x : Float} (h : Number s x t) :
    Number (addLine more s) x (addLine more t) := by
  obtain ⟨numeral, hs, hx, hf⟩ := h
  refine ⟨numeral, ?_, hx, hf⟩
  rw [addLine, Numeral.split?_append_layout (by rintro c ⟨⟩; rfl), hs]
  rfl

/-- A string stays a string. -/
theorem quotation_addLine {text : String} (h : Quotation s text t) :
    Quotation (addLine more s) text (addLine more t) := by
  refine ⟨?_, h.2⟩
  rw [h.1]
  simp [addLine]

/-! ## Blanks -/

/-- Trimming stops before what is put behind. -/
theorem trim_append (h : trim l s ≠ []) : trim l (s ++ u) = trim l s ++ u := by
  unfold trim at h ⊢
  rw [List.dropWhile_append, if_neg (by rwa [List.isEmpty_iff])]

theorem afterComma_cons {c : Char} (hc : c ≠ ',') : afterComma l (c :: s) = trim l (c :: s) := by
  unfold afterComma
  split
  · rename_i heq
    exact absurd (List.cons.inj heq).1 hc
  · rfl

theorem afterComma_append (h : afterComma l s ≠ []) :
    afterComma l (s ++ u) = afterComma l s ++ u := by
  cases s with
  | nil => exact absurd rfl h
  | cons c s =>
    by_cases hc : c = ','
    · subst hc
      exact trim_append h
    · rw [afterComma_cons hc] at h ⊢
      rw [List.cons_append, afterComma_cons hc]
      exact trim_append h

/-- A line break is no blank here, or the text is not at its end. -/
def Open (l : Level) (s : List Char) : Prop := l.multiline → s ≠ []

/-- So it does before a line that is added, where a line break does not count as layout. -/
theorem trim_addLine (h : Open l (trim l s)) :
    trim l (addLine more s) = addLine more (trim l s) := by
  refine dropWhile_addLine ?_
  -- only where a line break is a blank could the added one be dropped too
  by_cases hl : l.multiline
  · exact .inl (h hl)
  · refine .inr ?_
    rw [if_neg hl]
    decide

/-- What is asked of the rest of a phrase so that a line may be added behind it. -/
def Phrase.Open (l : Level) : Phrase → List Char → Prop
  | .atom _, t => Grammar.Open l (trim l t)
  | .factor _, t | .term _, t | .expression _, t => Grammar.Open l t
  | .arguments _, _ => True
  | .command _, _ | .args _, _ | .commands _, _ => l.multiline = false

/-- What is read as a phrase of at least one character is not empty. -/
theorem Reads.ne_nil (h : Reads l s p t) (hp : 0 < p.least) : s ≠ [] := by
  have := h.length_add_least_le
  exact List.ne_nil_of_length_pos (by omega)

theorem open_of_not_multiline (h : l.multiline = false) : Open l s := by
  simp [Open, h]

/-- **A derivation holds before another line as well.** -/
theorem Reads.addLine (h : Reads l s p t) (ho : p.Open l t) :
    Reads l (addLine more s) p (addLine more t) := by
  induction h with
  | number h => exact .number (number_addLine h)
  | name h ht =>
    refine .name (word_addLine h) ?_
    rw [trim_addLine ho, head?_addLine]
    cases htrim : trim _ _ with
    | nil => simp
    | cons c cs => rwa [htrim] at ht
  | @call l s name t u v es h ht hfull hes ih =>
    -- the arguments have their closing parenthesis at least
    have hne := hes.ne_nil Nat.one_pos
    refine .call (word_addLine h) (u := Grammar.addLine more u) ?_ hfull ?_
    · rw [trim_addLine (fun _ => by simp [ht]), ht]
      rfl
    · rw [trim_addLine fun _ => hne]
      exact ih trivial
  | group hfull _ ih => exact .group hfull (ih nofun)
  | @factor l s e t h ih =>
    have hatom := ih ho
    rw [← trim_addLine fun _ => h.ne_nil Nat.one_pos] at hatom
    rw [← trim_addLine ho]
    exact .factor hatom
  | term _ ih => exact .term (ih ho)
  | product _ hop _ ih ihr => exact .product (ih nofun) hop (ihr ho)
  | expression hroom _ ih => exact .expression hroom (ih ho)
  | sum _ hop _ ih ihr => exact .sum (ih nofun) hop (ihr ho)
  | noArguments hroom => exact .noArguments hroom
  | @argument l s e t es u he ht hes ih ihs =>
    -- what is behind this argument is not the end of the text, for the same reason
    have hafter := hes.ne_nil Nat.one_pos
    have htne : t ≠ [] := fun hnil => by
      subst hnil
      exact hafter rfl
    have hargs := ihs trivial
    rw [Grammar.addLine, ← afterComma_append hafter] at hargs
    exact .argument (ih fun _ => htne) (forall_head_addLine ht (by decide)) hargs
  | @definition l s name t u e v h ht he ih =>
    refine .definition (word_addLine h) (u := Grammar.addLine more u) ?_ ?_
    · rw [dropWhile_isSpace_addLine, ht]
      rfl
    · rw [dropWhile_isSpace_addLine]
      exact ih (open_of_not_multiline ho)
  | @property l s name t u e v h ht he ih =>
    refine .property (word_addLine h) (u := Grammar.addLine more u) ?_ ?_
    · rw [dropWhile_isSpace_addLine, ht]
      rfl
    · rw [dropWhile_isSpace_addLine]
      exact ih (open_of_not_multiline ho)
  | @text l s name t u text v h ht hq =>
    rw [← dropWhile_isSpace_addLine]
    refine .text (word_addLine h) (u := Grammar.addLine more u) ?_ ?_
    · rw [dropWhile_isSpace_addLine, ht]
      rfl
    · rw [dropWhile_isSpace_addLine]
      exact quotation_addLine hq
  | invocation _ ih => exact .invocation (ih ho)
  | noArgs h => exact .noArgs (forall_head_addLine h (by decide))
  | word h _ ih =>
    have hargs := ih ho
    rw [← dropWhile_isSpace_addLine] at hargs
    exact .word (word_addLine h) hargs
  | @block l s cs t u as v hfull hcs ht _ ih ihs =>
    have hargs := ihs ho
    rw [← dropWhile_isSpace_addLine] at hargs
    refine .block hfull (ih ho) ?_ hargs
    -- the closing brace is still to come
    rw [dropWhile_addLine (.inl (by simp [ht])), ht]
    rfl
  | noCommands hroom => exact .noCommands hroom
  | @commands l s c t cs u hc _ ih ihs =>
    have hcommand := ih ho
    rw [← dropWhile_addLine (.inl (hc.ne_nil Nat.one_pos))] at hcommand
    exact .commands hcommand (ihs ho)

end Planetarium.Grammar
