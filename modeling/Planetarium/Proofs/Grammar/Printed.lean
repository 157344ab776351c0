import Planetarium.Expr.Printer
import Planetarium.Proofs.Decimal.Written
import Planetarium.Proofs.Document.WellFormed
import Planetarium.Proofs.Grammar.Reads

/-!
# Expressions that are written are derived

The text of an expression is an atom of the grammar: a number, a name, a call, or a group around an
operation.  What comes after it only has to end the last token of the text and must not make a
call of a name (`Delimited`); a blank, a comma, a closing parenthesis or the end of the line will
do.  So the derivation is built by recursion on the expression, with any text behind it.
-/
namespace Planetarium.Grammar
open Parsing Text Decimal

/-- So many blocks and groups more may stand inside each other, and there is room for so many frames
more. -/
structure Fits (l : Level) (nesting frames : Nat) : Prop where
  depth : (l.depth + nesting : Nat) ≤ l.limits.depth
  room : ∀ room ∈ l.limits.room, l.frames + frames ≤ room

/-- The character ends every token. -/
def isDelimiter (c : Char) : Bool := isLayout c || c = ',' || c = ')'

/-- An expression may end here. -/
structure Delimited (l : Level) (t : List Char) : Prop where
  ends : ∀ c ∈ t.head?, isDelimiter c
  no_call : (trim l t).head? ≠ some '('

variable {l : Level} {s t : List Char} {c : Char} {e : Expr} {m n m' n' : Nat} {name : String}

/-! ## Room -/

/-- What fits leaves room for less. -/
theorem Fits.mono (h : Fits l m n) (hm : m' ≤ m) (hn : n' ≤ n) : Fits l m' n' where
  depth := by
    have := h.depth
    omega
  room := fun room hr => Nat.le_trans (Nat.add_le_add_left hn _) (h.room room hr)

/-- Where one more level fits the level is not full. -/
theorem Fits.isFull (h : Fits l (m + 1) n) : l.isFull = false := by
  have := h.depth
  rw [Level.isFull_eq_false]
  omega

theorem Fits.lacks (h : Fits l m n) (hn : n' ≤ n) : l.lacks n' = false :=
  Level.lacks_of_le hn (Level.lacks_eq_false.mpr h.room)

/-- What is taken of the room further in is taken of the room here. -/
theorem Fits.room_add (h : Fits l m (n + n')) :
    ∀ room ∈ l.limits.room, l.frames + n' + n ≤ room := by
  intro room hr
  have := h.room room hr
  omega

/-- What fits with a group around it fits inside the group. -/
theorem Fits.inGroup (h : Fits l (m + 1) (n + Level.expressionFrames)) : Fits l.inGroup m n where
  depth := by
    have := h.depth
    simp only [Level.inGroup]
    omega
  room := h.room_add

/-- What fits with a block around it fits inside the block. -/
theorem Fits.inBlock (h : Fits l (m + 1) (n + Level.commandFrames)) : Fits l.inBlock m n where
  depth := by
    have := h.depth
    simp only [Level.inBlock]
    omega
  room := h.room_add

/-- What fits with an assignment around it fits inside the assignment. -/
theorem Fits.inAssignment (h : Fits l m (n + Level.assignmentFrames)) :
    Fits l.inAssignment m n where
  depth := h.depth
  room := h.room_add

/-- Where an expression fits, there is room for the frames of one without nesting. -/
theorem Fits.lacks_expressionFrames (h : Fits l m (framesForNesting n)) :
    l.lacks Level.expressionFrames = false :=
  h.lacks (framesForNesting_mono (Nat.zero_le n))

/-! ## Tokens -/

theorem of_isDelimiter {P : Char → Prop} (h : isDelimiter c)
    (hlayout : isLayout c → P c) (hcomma : P ',') (hclose : P ')') : P c := by
  simp only [isDelimiter, Bool.or_eq_true, decide_eq_true_eq] at h
  rcases h with (h | rfl) | rfl
  · exact hlayout h
  · exact hcomma
  · exact hclose

theorem isWordChar_of_isDelimiter (h : isDelimiter c) : isWordChar c = false := by
  refine of_isDelimiter (P := fun c => isWordChar c = false) h (fun hl => ?_) rfl rfl
  exact of_isLayout (P := fun c => isWordChar c = false) hl rfl rfl rfl rfl

/-- A delimiter ends every numeral. -/
theorem endsNumeral_of_isDelimiter (h : isDelimiter c) :
    isRunChar c = false ∧ isPowerMark c = false := by
  refine of_isDelimiter (P := fun c => isRunChar c = false ∧ isPowerMark c = false) h
    (fun hl => ?_) ⟨rfl, rfl⟩ ⟨rfl, rfl⟩
  exact of_isLayout (P := fun c => isRunChar c = false ∧ isPowerMark c = false) hl
    ⟨rfl, rfl⟩ ⟨rfl, rfl⟩ ⟨rfl, rfl⟩ ⟨rfl, rfl⟩

/-- A name is a word, if the word ends there. -/
theorem word_of_isName (h : isName name.toList) (ht : ∀ c ∈ t.head?, isWordChar c = false) :
    Word (name.toList ++ t) name t :=
  ⟨rfl, h, ht⟩

theorem trim_of_not_isLayout (h : isLayout c = false) : trim l (c :: s) = c :: s :=
  trim_of_head_eq rfl h

theorem trim_space : trim l (' ' :: s) = trim l s := by
  refine List.dropWhile_cons_of_pos ?_
  split <;> rfl

theorem Reads.trim_atom (h : Reads l s (.atom e) t) : trim l s = s := by
  obtain ⟨c, hc, hs⟩ := h.edges
  exact trim_of_head_eq hc (not_isLayout_of_startsAtom hs)

theorem isLayout_symbol (op : Operator) : isLayout op.symbol = false := by
  cases op <;> rfl

/-! ## What may follow an expression -/

theorem delimited_of_head (hc : isDelimiter c) (hl : isLayout c = false) :
    Delimited l (c :: t) where
  ends := by
    rintro d ⟨⟩
    exact hc
  no_call := by
    rw [trim_of_not_isLayout hl]
    rintro ⟨⟩
    exact absurd hc (by decide)

/-- An operator after a blank ends the operand before it. -/
theorem delimited_operator (op : Operator) : Delimited l (' ' :: op.symbol :: t) where
  ends := by
    rintro d ⟨⟩
    rfl
  no_call := by
    rw [trim_space, trim_of_not_isLayout (isLayout_symbol op)]
    cases op <;> exact nofun

/-- So does the end of a line, outside parentheses. -/
theorem delimited_line (h : l.multiline = false) : Delimited l ('\n' :: t) where
  ends := by
    rintro d ⟨⟩
    rfl
  no_call := by
    rw [trim, h, dropWhile_of_head (by rintro d ⟨⟩; rfl)]
    simp

/-! ## Expressions -/

/-- Every operator belongs to one of the tiers. -/
theorem multiplicative?_or_additive? {op : Operator} (h : op ≠ .unspecified) :
    Operator.multiplicative? op.symbol = some op ∨ Operator.additive? op.symbol = some op := by
  cases op
  case unspecified => exact absurd rfl h
  all_goals first | exact .inl rfl | exact .inr rfl

theorem noOperator_of_isDelimiter (h : isDelimiter c) : NoOperator (c :: t) := by
  rintro d ⟨⟩
  refine of_isDelimiter (P := fun c => isOperator c = false) h (fun hl => ?_) rfl rfl
  exact of_isLayout (P := fun c => isOperator c = false) hl rfl rfl rfl rfl

/-- An operation between two atoms, with a blank on either side of its sign. -/
theorem reads_binary {left right : Expr} {op : Operator}
    (hroom : l.lacks Level.expressionFrames = false) (hop : op ≠ .unspecified)
    (hleft : Reads l s (.atom left) (' ' :: op.symbol :: ' ' :: t))
    {u : List Char} (hright : Reads l t (.atom right) u) :
    Reads l s (.expression (.binary op left right)) (trim l u) := by
  have hfirst : Reads l s (.factor left) (op.symbol :: ' ' :: t) := by
    have h := Reads.factor (hleft.trim_atom.symm ▸ hleft)
    rwa [trim_space, trim_of_not_isLayout (isLayout_symbol op)] at h
  have hsecond : Reads l (' ' :: t) (.factor right) (trim l u) := by
    refine .factor ?_
    rw [trim_space, hright.trim_atom]
    exact hright
  rcases multiplicative?_or_additive? hop with h | h
  · exact .expression hroom (.product (.term hfirst) h hsecond)
  · exact .sum (.expression hroom (.term hfirst)) h (.term hsecond)

/-- An atom is an expression on its own. -/
theorem Reads.expression_of_atom (h : Reads l s (.atom e) t)
    (hroom : l.lacks Level.expressionFrames = false) : Reads l s (.expression e) (trim l t) :=
  .expression hroom (.term (.factor (h.trim_atom.symm ▸ h)))

mutual
/-- The text of an expression is an atom. -/
theorem reads_chars (e : Expr) {l : Level} {t : List Char} (hw : e.wellFormed)
    (hfits : Fits l e.nesting e.readingFrames) (ht : Delimited l t) :
    Reads l (e.chars ++ t) (.atom e) t := by
  cases e with
  | ident name =>
    exact .name (word_of_isName hw fun c hc => isWordChar_of_isDelimiter (ht.ends c hc)) ht.no_call
  | number x =>
    exact .number (number_shortestText hw fun c hc => endsNumeral_of_isDelimiter (ht.ends c hc))
  | call function args =>
    rw [Expr.wellFormed, Bool.and_eq_true] at hw
    rw [Expr.readingFrames, Expr.nesting] at hfits
    obtain ⟨htrim, hargs⟩ := reads_charsAll args (t := t) hw.2 hfits.inGroup
    have hword : Word (function.toList ++ '(' :: (Expr.charsAll args ++ ')' :: t)) function
        ('(' :: (Expr.charsAll args ++ ')' :: t)) :=
      word_of_isName hw.1 (by rintro c ⟨⟩; rfl)
    simp only [Expr.chars, List.append_assoc, List.cons_append, List.nil_append]
    refine .call hword (trim_of_not_isLayout rfl) hfits.isFull ?_
    rw [htrim]
    exact hargs
  | binary op left right =>
    rw [Expr.wellFormed, Bool.and_eq_true, Bool.and_eq_true, bne_iff_ne] at hw
    rw [Expr.readingFrames, Expr.nesting] at hfits
    have hinner := hfits.inGroup
    -- the blank before the operator ends the left operand, the parenthesis the right one
    have hleft := reads_chars left hw.1.2
      (hinner.mono (Nat.le_max_left _ _) (framesForNesting_mono (Nat.le_max_left _ _)))
      (delimited_operator op (t := ' ' :: (right.chars ++ ')' :: t)))
    have hright := reads_chars right hw.2
      (hinner.mono (Nat.le_max_right _ _) (framesForNesting_mono (Nat.le_max_right _ _)))
      (delimited_of_head (c := ')') (t := t) rfl rfl)
    have hbinary := reads_binary hinner.lacks_expressionFrames hw.1.1 hleft hright
    rw [trim_of_not_isLayout rfl] at hbinary
    simp only [Expr.chars, List.cons_append, List.append_assoc, List.nil_append]
    exact .group hfits.isFull hbinary
  | stray word => contradiction

/-- The texts of expressions, with commas between them, are the arguments of a call, without blanks
before them. -/
theorem reads_charsAll (es : List Expr) {l : Level} {t : List Char} (hw : Expr.wellFormedAll es)
    (hfits : Fits l (Expr.nestingAll es) (framesForNesting (Expr.nestingAll es))) :
    trim l (Expr.charsAll es ++ ')' :: t) = Expr.charsAll es ++ ')' :: t ∧
      Reads l (Expr.charsAll es ++ ')' :: t) (.arguments es) t := by
  have hroom := hfits.lacks_expressionFrames
  cases es with
  | nil => exact ⟨trim_of_not_isLayout rfl, .noArguments hroom⟩
  | cons e es =>
    rw [Expr.wellFormedAll, Bool.and_eq_true] at hw
    rw [Expr.nestingAll] at hfits
    have hfit := hfits.mono (Nat.le_max_left _ _) (framesForNesting_mono (Nat.le_max_left _ _))
    obtain ⟨htrim, hrest⟩ := reads_charsAll es (t := t) hw.2
      (hfits.mono (Nat.le_max_right _ _) (framesForNesting_mono (Nat.le_max_right _ _)))
    cases es with
    | nil =>
      -- the last argument ends at the parenthesis
      have he := reads_chars e hw.1 hfit (delimited_of_head (c := ')') (t := t) rfl rfl)
      have hexpression := he.expression_of_atom hroom
      rw [trim_of_not_isLayout rfl] at hexpression
      refine ⟨he.trim_atom, .argument hexpression (noOperator_of_isDelimiter rfl) ?_⟩
      rw [afterComma, trim_of_not_isLayout rfl]
      · exact .noArguments hroom
      · exact nofun
    | cons e' es =>
      -- any other ends at its comma, and the next begins behind the blank after that
      have he := reads_chars e hw.1 hfit
        (delimited_of_head (c := ',') (t := ' ' :: (Expr.charsAll (e' :: es) ++ ')' :: t)) rfl rfl)
      have hexpression := he.expression_of_atom hroom
      rw [trim_of_not_isLayout rfl] at hexpression
      simp only [Expr.charsAll, List.append_assoc, List.cons_append] at *
      refine ⟨he.trim_atom, .argument hexpression (noOperator_of_isDelimiter rfl) ?_⟩
      rw [afterComma, trim_space, htrim]
      exact hrest
end

end Planetarium.Grammar
