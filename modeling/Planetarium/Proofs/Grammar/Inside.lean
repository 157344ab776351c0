import Planetarium.Proofs.Grammar.ExpressionSound
import Planetarium.Proofs.Grammar.Prefix
import Planetarium.Proofs.Grammar.Printed

/-!
# What is derived stays derived inside a larger text

An expression that is derived on its own is derived in the same way inside a larger text: deeper
down, if there is as much to spare of every limit there as it had before, and in front of anything
that neither goes on with its last token nor makes a call of a name at its end.  Inside of
parentheses what comes behind them does not matter at all.
-/
namespace Planetarium.Grammar
open Parsing Text Decimal

variable {l l' : Level} {s t u v : List Char} {p : Phrase} {c : Char} {e : Expr} {es : List Expr}

/-! ## At another level -/

/-- The second level has as much to spare of every limit as the first one. -/
structure Spares (l l' : Level) : Prop where
  multiline : l'.multiline = l.multiline
  depth : l'.depth + l.limits.depth ≤ l'.limits.depth + l.depth
  room : ∀ room' ∈ l'.limits.room, ∃ room ∈ l.limits.room, room + l'.frames ≤ room' + l.frames

/-- The room that is to spare stays the same when both levels take the same frames. -/
theorem Spares.room_add (h : Spares l l') (k : Nat) : ∀ room' ∈ l'.limits.room,
    ∃ room ∈ l.limits.room, room + (l'.frames + k) ≤ room' + (l.frames + k) := by
  intro room' hr'
  obtain ⟨room, hr, hle⟩ := h.room room' hr'
  exact ⟨room, hr, by omega⟩

/-- What is spared outside a group is spared inside it. -/
theorem Spares.inGroup (h : Spares l l') : Spares l.inGroup l'.inGroup where
  multiline := rfl
  depth := by
    have := h.depth
    simp only [Level.inGroup]
    omega
  room := h.room_add _

theorem Spares.inBlock (h : Spares l l') : Spares l.inBlock l'.inBlock where
  multiline := h.multiline
  depth := by
    have := h.depth
    simp only [Level.inBlock]
    omega
  room := h.room_add _

theorem Spares.inAssignment (h : Spares l l') : Spares l.inAssignment l'.inAssignment where
  multiline := h.multiline
  depth := h.depth
  room := h.room_add _

/-- A level that spares what another one has is not full where that one is not. -/
theorem Spares.isFull (h : Spares l l') (hfull : l.isFull = false) : l'.isFull = false := by
  have := h.depth
  rw [Level.isFull_eq_false] at hfull ⊢
  omega

/-- It has room where that one has it. -/
theorem Spares.lacks {k : Nat} (h : Spares l l') (hroom : l.lacks k = false) :
    l'.lacks k = false := by
  rw [Level.lacks_eq_false] at hroom ⊢
  intro room' hr'
  obtain ⟨room, hr, hle⟩ := h.room room' hr'
  have := hroom room hr
  omega

theorem Spares.trim_eq (h : Spares l l') : trim l' = trim l := by
  funext s
  rw [trim, trim, h.multiline]

theorem Spares.afterComma_eq (h : Spares l l') : afterComma l' = afterComma l := by
  funext s
  unfold afterComma
  split <;> rw [h.trim_eq]

/-- What is derived at a level is derived wherever there is as much to spare. -/
theorem Reads.of_spares (h : Reads l s p t) (hl : Spares l l') : Reads l' s p t := by
  induction h generalizing l' with
  | number h => exact .number h
  | name h ht => exact .name h (by rwa [hl.trim_eq])
  | call h ht hfull _ ih =>
    refine .call h (by rwa [hl.trim_eq]) (hl.isFull hfull) ?_
    rw [hl.inGroup.trim_eq]
    exact ih hl.inGroup
  | group hfull _ ih => exact .group (hl.isFull hfull) (ih hl.inGroup)
  | factor _ ih =>
    rw [← hl.trim_eq]
    refine .factor ?_
    rw [hl.trim_eq]
    exact ih hl
  | term _ ih => exact .term (ih hl)
  | product _ hop _ ih ihr => exact .product (ih hl) hop (ihr hl)
  | expression hroom _ ih => exact .expression (hl.lacks hroom) (ih hl)
  | sum _ hop _ ih ihr => exact .sum (ih hl) hop (ihr hl)
  | noArguments hroom => exact .noArguments (hl.lacks hroom)
  | argument _ ht _ ih ihs =>
    refine .argument (ih hl) ht ?_
    rw [hl.afterComma_eq]
    exact ihs hl
  | definition h ht _ ih => exact .definition h ht (ih hl.inAssignment)
  | property h ht _ ih => exact .property h ht (ih hl.inAssignment)
  | text h ht hq => exact .text h ht hq
  | invocation _ ih => exact .invocation (ih hl)
  | noArgs h => exact .noArgs h
  | word h _ ih => exact .word h (ih hl)
  | block hfull _ ht _ ih ihs => exact .block (hl.isFull hfull) (ih hl.inBlock) ht (ihs hl)
  | noCommands hroom => exact .noCommands (hl.lacks hroom)
  | commands _ _ ih ihs => exact .commands (ih hl) (ihs hl)

/-! ## The rest is the end of the text -/

theorem suffix_dropWhile {f : Char → Bool} (h : t <:+ s.dropWhile f) : t <:+ s :=
  h.trans (List.dropWhile_suffix f)

theorem suffix_of_dropWhile {f : Char → Bool} (h : t <:+ s) (ht : t.dropWhile f = c :: u) :
    u <:+ s :=
  ((List.suffix_cons c u).trans (ht ▸ List.dropWhile_suffix f)).trans h

/-- What is left behind a comma is a suffix. -/
theorem suffix_afterComma : afterComma l s <:+ s := by
  unfold afterComma
  split
  · exact (List.dropWhile_suffix _).trans (List.suffix_cons _ _)
  · exact List.dropWhile_suffix _

/-- So is what is left behind a word. -/
theorem suffix_of_word {name : String} (h : Word s name t) : t <:+ s :=
  ⟨name.toList, h.text_eq.symm⟩

/-- And behind a string. -/
theorem suffix_of_quotation {text : String} (h : Quotation s text t) : t <:+ s := by
  refine ⟨'"' :: (text.toList ++ ['"']), ?_⟩
  rw [h.1]
  simp

/-- What is left behind a phrase is the end of the text. -/
theorem Reads.suffix (h : Reads l s p t) : t <:+ s := by
  induction h with
  | number h =>
    obtain ⟨numeral, hs, -⟩ := h
    exact ⟨numeral.text, Numeral.text_append_of_split? hs⟩
  | name h _ => exact suffix_of_word h
  | call h ht _ _ ih =>
    exact (suffix_dropWhile ih).trans (suffix_of_dropWhile (suffix_of_word h) ht)
  | group _ _ ih => exact ((List.suffix_cons _ _).trans ih).trans (List.suffix_cons _ _)
  | factor _ ih => exact (List.dropWhile_suffix _).trans (suffix_dropWhile ih)
  | term _ ih | expression _ _ ih => exact ih
  | product _ _ _ ih ihr | sum _ _ _ ih ihr =>
    exact (ihr.trans (List.suffix_cons _ _)).trans ih
  | noArguments _ => exact List.suffix_cons _ _
  | argument _ _ _ ih ihs => exact (ihs.trans suffix_afterComma).trans ih
  | definition h ht _ ih =>
    exact ((suffix_dropWhile ih).trans (List.suffix_cons _ _)).trans
      (suffix_of_dropWhile (suffix_of_word h) ht)
  | property h ht _ ih =>
    exact (suffix_dropWhile ih).trans (suffix_of_dropWhile (suffix_of_word h) ht)
  | text h ht hq =>
    exact ((List.dropWhile_suffix _).trans (suffix_dropWhile (suffix_of_quotation hq))).trans
      (suffix_of_dropWhile (suffix_of_word h) ht)
  | invocation _ ih => exact ih
  | noArgs h => exact List.suffix_refl _
  | word h _ ih => exact (suffix_dropWhile ih).trans (suffix_of_word h)
  | block _ _ ht _ ih ihs =>
    exact ((suffix_dropWhile ihs).trans (suffix_of_dropWhile ih ht)).trans (List.suffix_cons _ _)
  | noCommands _ => exact List.suffix_refl _
  | commands _ _ ih ihs => exact ihs.trans (suffix_dropWhile ih)

/-! ## In front of more text -/

/-- The character ends every token or is an operator. -/
def isBoundary (c : Char) : Bool := isDelimiter c || isOperator c

/-- No atom goes on here. -/
structure Bounded (l : Level) (t : List Char) : Prop where
  ends : ∀ c ∈ t.head?, isBoundary c
  no_call : (trim l t).head? ≠ some '('

theorem isBoundary_of_isLayout (h : isLayout c) : isBoundary c := by
  simp [isBoundary, isDelimiter, h]

theorem of_isBoundary {P : Char → Prop} (h : isBoundary c) (hlayout : isLayout c → P c)
    (hcomma : P ',') (hclose : P ')') (hplus : P '+') (hminus : P '-') (htimes : P '*')
    (hover : P '/') : P c := by
  rw [isBoundary, Bool.or_eq_true] at h
  rcases h with h | h
  · exact of_isDelimiter h hlayout hcomma hclose
  · rcases eq_of_isOperator h with rfl | rfl | rfl | rfl <;> assumption

/-- What the derivation of a phrase leaves of a text. -/
def Phrase.left (l : Level) (t : List Char) : Phrase → List Char
  | .factor _ | .term _ | .expression _ => trim l t
  | _ => t

/-- More text may come behind what a phrase leaves: a parenthesis is still to come, or no atom goes
on there. -/
def Phrase.Extends (l : Level) (t v : List Char) : Phrase → Prop
  | .atom _ | .factor _ | .term _ | .expression _ => ')' ∈ t ∨ Bounded l (t ++ v)
  | .arguments _ => True
  | _ => False

theorem close_not_blank (l : Level) : (if l.multiline then isLayout else isSpace) ')' = false := by
  split <;> rfl

/-- Trimming does not go beyond a parenthesis. -/
theorem close_mem_trim (h : ')' ∈ t) : ')' ∈ trim l t := by
  obtain ⟨before, after, rfl⟩ := List.append_of_mem h
  rw [trim, dropWhile_append_of_head]
  · exact List.mem_append_right _ List.mem_cons_self
  · rintro d ⟨⟩
    exact close_not_blank l

/-- Trimming the front first makes no difference. -/
theorem trim_append_trim : trim l (trim l s ++ v) = trim l (s ++ v) := by
  by_cases h : trim l s = []
  · have hblank : trim l (s ++ v) = trim l v := by
      unfold trim at h ⊢
      rw [List.dropWhile_append, h]
      rfl
    rw [h, hblank, List.nil_append]
  · rw [trim_append (by rwa [trim_trim]), trim_trim, trim_append h]

/-- A call has its closing parenthesis. -/
theorem Reads.close_mem (h : Reads l s (.arguments es) t) : ')' ∈ s := by
  generalize hp : Phrase.arguments es = p at h
  induction h generalizing es with
  | noArguments _ => exact List.mem_cons_self
  | @argument l s e t es u he _ _ _ ih =>
    exact he.suffix.subset (suffix_afterComma.subset (ih rfl))
  | _ => contradiction

/-- A word stays a word in front of what does not go on with it. -/
theorem word_append {name : String} (h : Word s name t)
    (hv : ∀ c ∈ (t ++ v).head?, isWordChar c = false) : Word (s ++ v) name (t ++ v) :=
  ⟨by rw [h.text_eq, List.append_assoc], h.isName, hv⟩

/-- So does a number. -/
theorem number_append {x : Float} (h : Number s x t) (hv : ')' ∈ t ∨ Bounded l (t ++ v)) :
    Number (s ++ v) x (t ++ v) := by
  obtain ⟨numeral, hs, hx, hf⟩ := h
  refine ⟨numeral, ?_, hx, hf⟩
  rcases hv with hv | hv
  · -- the numeral has not grown over the parenthesis
    obtain ⟨before, after, rfl⟩ := List.append_of_mem hv
    have hclose : ∀ w, ∀ c ∈ (')' :: w).head?, isNumeralChar c = false := by
      rintro w c ⟨⟩
      rfl
    have htext := Numeral.text_append_of_split? hs
    rw [← htext] at hs ⊢
    rw [← List.append_assoc, Numeral.split?_append_of_head (hclose after)] at hs
    have happend : numeral.text ++ (before ++ ')' :: after) ++ v =
        numeral.text ++ before ++ ')' :: (after ++ v) := by simp
    obtain ⟨⟨n, rest⟩, hsplit, heq⟩ := Option.map_eq_some_iff.mp hs
    obtain ⟨rfl, hrest⟩ := Prod.mk.inj heq
    obtain rfl : rest = before := List.append_cancel_right hrest
    rw [happend, Numeral.split?_append_of_head (hclose (after ++ v)), hsplit]
    simp
  · have hends : EndsNumeral (t ++ v) := fun c hc =>
      of_isBoundary (P := fun c => isRunChar c = false ∧ isPowerMark c = false) (hv.ends c hc)
        (fun hl => endsNumeral_of_isDelimiter (by simp [isDelimiter, hl]))
        ⟨rfl, rfl⟩ ⟨rfl, rfl⟩ ⟨rfl, rfl⟩ ⟨rfl, rfl⟩ ⟨rfl, rfl⟩ ⟨rfl, rfl⟩
    rw [← Numeral.text_append_of_split? hs, List.append_assoc]
    exact (Numeral.proper_of_split? hs).split?_text hends

/-- So does a name, unless a parenthesis follows. -/
theorem name_append {name : String} (h : Word s name t) (ht : (trim l t).head? ≠ some '(')
    (hv : ')' ∈ t ∨ Bounded l (t ++ v)) : Reads l (s ++ v) (.atom (.ident name)) (t ++ v) := by
  rcases hv with hv | hv
  · -- the parenthesis keeps what comes behind it away from the name
    have hne : t ≠ [] := List.ne_nil_of_mem hv
    have htrim : trim l t ≠ [] := List.ne_nil_of_mem (close_mem_trim hv)
    refine .name (word_append h ?_) ?_
    · rw [List.head?_append_of_ne_nil _ hne]
      exact h.ends
    · rwa [trim_append htrim, List.head?_append_of_ne_nil _ htrim]
  · refine .name (word_append h fun c hc => ?_) hv.no_call
    exact of_isBoundary (P := fun c => isWordChar c = false) (hv.ends c hc)
      (fun hl => isWordChar_of_isDelimiter (by simp [isDelimiter, hl])) rfl rfl rfl rfl rfl rfl

/-- Blanks do not matter for what may come behind them. -/
theorem bounded_of_trim (h : Bounded l (trim l t ++ v)) : Bounded l (t ++ v) := by
  constructor
  · intro c hc
    by_cases hl : isLayout c
    · exact isBoundary_of_isLayout hl
    · cases t with
      | nil => exact h.ends c hc
      | cons d t =>
        obtain rfl := Option.some.inj hc
        rw [trim_of_not_isLayout (Bool.eq_false_iff.mpr hl)] at h
        exact h.ends d hc
  · rw [← trim_append_trim]
    exact h.no_call

theorem isLayout_operator (h : isOperator c) : isLayout c = false := by
  rcases eq_of_isOperator h with rfl | rfl | rfl | rfl <;> rfl

/-- An operand ends in front of any operator. -/
theorem bounded_of_operator (h : isOperator c) : Bounded l (c :: t) where
  ends := by
    rintro d ⟨⟩
    rw [isBoundary, h, Bool.or_true]
  no_call := by
    rw [trim_of_head_eq rfl (isLayout_operator h)]
    rintro ⟨⟩
    exact absurd h (by decide)

/-- **A derivation holds in front of more text as well.** -/
theorem Reads.append (h : Reads l s p t) (v : List Char) (hv : p.Extends l t v) :
    Reads l (s ++ v) p (p.left l (t ++ v)) := by
  induction h with
  | number h => exact .number (number_append h hv)
  | name h ht => exact name_append h ht hv
  | @call l s name t u v' es h ht hfull hes ih =>
    have htrim : trim l t ≠ [] := by
      rw [ht]
      exact List.cons_ne_nil _ _
    have hargs : trim l.inGroup u ≠ [] := hes.ne_nil Nat.one_pos
    have hne : t ≠ [] := by
      rintro rfl
      exact htrim rfl
    refine .call (word_append h ?_) (u := u ++ v) ?_ hfull ?_
    · rw [List.head?_append_of_ne_nil _ hne]
      exact h.ends
    · rw [trim_append htrim, ht]
      rfl
    · rw [trim_append hargs]
      exact ih trivial
  | @group l s e t hfull he ih =>
    have hinner := ih (.inl List.mem_cons_self)
    refine .group hfull ?_
    rwa [Phrase.left, List.cons_append, trim_of_not_isLayout rfl] at hinner
  | @factor l s e t h ih =>
    have hatom := ih (by
      rcases hv with hv | hv
      · exact .inl ((List.dropWhile_suffix _).subset hv)
      · exact .inr (bounded_of_trim hv))
    have hleft : Phrase.left l (trim l t ++ v) (.factor e) = trim l (t ++ v) := trim_append_trim
    rw [hleft]
    refine .factor ?_
    rw [trim_append (h.ne_nil Nat.one_pos)]
    exact hatom
  | term _ ih => exact .term (ih hv)
  | @product l s left c t op right u hleft hop hright ih ihr =>
    have hop' : isOperator c := by simp [isOperator, hop]
    have hfirst := ih (.inr (bounded_of_operator hop'))
    rw [Phrase.left, List.cons_append, trim_of_head_eq rfl (isLayout_operator hop')] at hfirst
    exact .product hfirst hop (ihr hv)
  | expression hroom _ ih => exact .expression hroom (ih hv)
  | @sum l s left c t op right u hleft hop hright ih ihr =>
    have hop' : isOperator c := by simp [isOperator, hop]
    have hfirst := ih (.inr (bounded_of_operator hop'))
    rw [Phrase.left, List.cons_append, trim_of_head_eq rfl (isLayout_operator hop')] at hfirst
    exact .sum hfirst hop (ihr hv)
  | noArguments hroom => exact .noArguments hroom
  | @argument l s e t es u he ht hes ih ihs =>
    have hafter : afterComma l t ≠ [] := hes.ne_nil Nat.one_pos
    have hclose : ')' ∈ t := suffix_afterComma.subset hes.close_mem
    have hne : t ≠ [] := List.ne_nil_of_mem hclose
    have hfirst := ih (.inl hclose)
    have hrest : trim l (t ++ v) = t ++ v := by
      have htrim := he.trim_rest
      rw [trim_append (by rwa [htrim]), htrim]
    rw [Phrase.left, hrest] at hfirst
    refine .argument hfirst ?_ ?_
    · intro c hc
      rw [List.head?_append_of_ne_nil _ hne] at hc
      exact ht c hc
    · rw [afterComma_append hafter]
      exact ihs trivial
  | _ => exact hv.elim

end Planetarium.Grammar
