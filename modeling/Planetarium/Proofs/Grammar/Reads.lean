import Planetarium.Grammar.Command
import Planetarium.Proofs.Parsing.Token

/-!
# What the grammar derives

`Reads level s p t` says that the text `s`, read at `level`, begins with the phrase `p` and goes
on with `t`.  Its rules are the productions of the grammar,

    document   := command*
    command    := definition | property | invocation
    definition := name ':=' expression
    property   := name ':' (quoted text | expression)
    invocation := (block | name)+
    block      := '{' command* '}'
    expression := expression ('+' | '-') term | term
    term       := term ('*' | '/') factor | factor
    factor     := number | call | name | '(' expression ')'
    call       := name '(' (expression ','?)* ')'

with operations gathered to the left.  Names, numbers and quoted texts are the longest tokens, and
the rules drop nothing from `s` but blanks: spaces and tabs, inside a group or a call line
breaks too, and any layout before a command and before a closing brace.  Where the productions
alone leave a choice, a rule says which: a name before a parenthesis is the head of a call, an
argument of a call is not followed by an operator, and an invocation takes the rest of its line.
What a block, a group or a call holds is read one level further in, and only where the limits
allow it; and an expression, a list of arguments or a list of commands is only read where there is
room for its frames.
-/
namespace Planetarium.Grammar
open Parsing Text Decimal

/-- The text without the blanks that a level allows before it. -/
def trim (l : Level) (s : List Char) : List Char :=
  s.dropWhile (if l.multiline then isLayout else isSpace)

/-- The character is an operator. -/
def isOperator (c : Char) : Bool :=
  (Operator.additive? c).isSome || (Operator.multiplicative? c).isSome

/-- No operator comes next. -/
def NoOperator (s : List Char) : Prop := ∀ c ∈ s.head?, isOperator c = false

/-- The line ends here, or the block or the text. -/
def EndsLine (s : List Char) : Prop := ∀ c ∈ s.head?, isBreak c ∨ c = '}'

/-- What comes after an argument of a call: a comma, if there is one, and blanks. -/
def afterComma (l : Level) : List Char → List Char
  | ',' :: s => trim l s
  | s => trim l s

/-- Something that a stretch of text may stand for. -/
inductive Phrase where
  /-- A number, a call, a name or a group. -/
  | atom (e : Expr)
  /-- An atom and the blanks around it. -/
  | factor (e : Expr)
  | term (e : Expr)
  | expression (e : Expr)
  /-- The arguments of a call, up to its closing parenthesis. -/
  | arguments (es : List Expr)
  | command (c : Command)
  /-- The arguments of an invocation, up to the end of the line. -/
  | args (as : List Arg)
  | commands (cs : List Command)

/-- The text begins with the phrase and goes on with the rest. -/
inductive Reads : Level → List Char → Phrase → List Char → Prop
  | number {l s x t} : Number s x t → Reads l s (.atom (.number x)) t
  | name {l s name t} : Word s name t → (trim l t).head? ≠ some '(' →
      Reads l s (.atom (.ident name)) t
  | call {l s name t u v es} : Word s name t → trim l t = '(' :: u → l.isFull = false →
      Reads l.inGroup (trim l.inGroup u) (.arguments es) v → Reads l s (.atom (.call name es)) v
  | group {l s e t} : l.isFull = false → Reads l.inGroup s (.expression e) (')' :: t) →
      Reads l ('(' :: s) (.atom e) t
  | factor {l s e t} : Reads l (trim l s) (.atom e) t → Reads l s (.factor e) (trim l t)
  | term {l s e t} : Reads l s (.factor e) t → Reads l s (.term e) t
  | product {l s left c t op right u} : Reads l s (.term left) (c :: t) →
      Operator.multiplicative? c = some op → Reads l t (.factor right) u →
      Reads l s (.term (.binary op left right)) u
  | expression {l s e t} : l.lacks Level.expressionFrames = false → Reads l s (.term e) t →
      Reads l s (.expression e) t
  | sum {l s left c t op right u} : Reads l s (.expression left) (c :: t) →
      Operator.additive? c = some op → Reads l t (.term right) u →
      Reads l s (.expression (.binary op left right)) u
  | noArguments {l t} : l.lacks Level.expressionFrames = false →
      Reads l (')' :: t) (.arguments []) t
  | argument {l s e t es u} : Reads l s (.expression e) t → NoOperator t →
      Reads l (afterComma l t) (.arguments es) u → Reads l s (.arguments (e :: es)) u
  | definition {l s name t u e v} : Word s name t → t.dropWhile isSpace = ':' :: '=' :: u →
      Reads l.inAssignment (u.dropWhile isSpace) (.expression e) v →
      Reads l s (.command (.definition name e)) v
  | property {l s name t u e v} : Word s name t → t.dropWhile isSpace = ':' :: u →
      Reads l.inAssignment (u.dropWhile isSpace) (.expression e) v →
      Reads l s (.command (.property name (.expr e))) v
  | text {l s name t u text v} : Word s name t → t.dropWhile isSpace = ':' :: u →
      Quotation (u.dropWhile isSpace) text v →
      Reads l s (.command (.property name (.text text))) (v.dropWhile isSpace)
  | invocation {l s a as t} : Reads l s (.args (a :: as)) t →
      Reads l s (.command (.invocation (a :: as))) t
  | noArgs {l s} : EndsLine s → Reads l s (.args []) s
  | word {l s name t as u} : Word s name t → Reads l (t.dropWhile isSpace) (.args as) u →
      Reads l s (.args (.word name :: as)) u
  | block {l s cs t u as v} : l.isFull = false → Reads l.inBlock s (.commands cs) t →
      t.dropWhile isLayout = '}' :: u → Reads l (u.dropWhile isSpace) (.args as) v →
      Reads l ('{' :: s) (.args (.block cs :: as)) v
  | noCommands {l s} : l.lacks Level.commandFrames = false → Reads l s (.commands []) s
  | commands {l s c t cs u} : Reads l (s.dropWhile isLayout) (.command c) t →
      Reads l t (.commands cs) u → Reads l s (.commands (c :: cs)) u

/-- The whole text is an expression, with line breaks as blanks. -/
def IsExpression (limits : Limits) (text : List Char) (e : Expr) : Prop :=
  Reads { limits, multiline := true } text (.expression e) []

/-- The whole text is a document. -/
def IsDocument (limits : Limits) (text : List Char) (cs : List Command) : Prop :=
  ∃ rest, Reads { limits } text (.commands cs) rest ∧ rest.dropWhile isLayout = []

variable {l : Level} {s t : List Char} {p : Phrase} {c : Char} {e : Expr} {f : Char → Bool}

/-! ## How much a phrase takes -/

theorem length_dropWhile_le : (s.dropWhile f).length ≤ s.length :=
  (List.dropWhile_suffix f).length_le

theorem length_trim_le : (trim l s).length ≤ s.length := length_dropWhile_le

theorem length_lt_of_dropWhile (h : s.dropWhile f = c :: t) : t.length + 1 ≤ s.length := by
  have := length_dropWhile_le (s := s) (f := f)
  rwa [h] at this

theorem length_lt_of_trim (h : trim l s = c :: t) : t.length + 1 ≤ s.length :=
  length_lt_of_dropWhile h

theorem length_afterComma_le : (afterComma l s).length ≤ s.length := by
  unfold afterComma
  split
  · exact Nat.le_trans length_trim_le (Nat.le_succ _)
  · exact length_trim_le

/-- A number of characters that a phrase takes at least. -/
def Phrase.least : Phrase → Nat
  | .args as => as.length
  | .commands cs => cs.length
  | _ => 1

/-- A phrase takes at least that many characters. -/
theorem Reads.length_add_least_le (h : Reads l s p t) : t.length + p.least ≤ s.length := by
  induction h with
  | number h => exact h.length_lt
  | name h _ => exact h.length_lt
  | @call l s name t u v es h ht _ _ ih =>
    have := h.length_lt
    have := length_lt_of_trim ht
    have := length_trim_le (l := l.inGroup) (s := u)
    simp only [Phrase.least] at ih ⊢
    omega
  | group _ _ ih =>
    simp only [Phrase.least, List.length_cons] at ih ⊢
    omega
  | @factor l s e t _ ih =>
    have := length_trim_le (l := l) (s := s)
    have := length_trim_le (l := l) (s := t)
    simp only [Phrase.least] at ih ⊢
    omega
  | term _ ih | expression _ _ ih => exact ih
  | product _ _ _ ih ihr | sum _ _ _ ih ihr =>
    simp only [Phrase.least, List.length_cons] at ih ihr ⊢
    omega
  | noArguments _ => exact Nat.le_refl _
  | @argument l s e t es u _ _ _ ih ihs =>
    have := length_afterComma_le (l := l) (s := t)
    simp only [Phrase.least] at ih ihs ⊢
    omega
  | @definition l s name t u e v h ht _ ih =>
    have := h.length_lt
    have := length_lt_of_dropWhile ht
    have := length_dropWhile_le (s := u) (f := isSpace)
    simp only [Phrase.least, List.length_cons] at *
    omega
  | @property l s name t u e v h ht _ ih =>
    have := h.length_lt
    have := length_lt_of_dropWhile ht
    have := length_dropWhile_le (s := u) (f := isSpace)
    simp only [Phrase.least] at ih ⊢
    omega
  | @text l s name t u text v h ht hq =>
    have := h.length_lt
    have := length_lt_of_dropWhile ht
    have := hq.length_lt
    have := length_dropWhile_le (s := u) (f := isSpace)
    have := length_dropWhile_le (s := v) (f := isSpace)
    simp only [Phrase.least]
    omega
  | invocation _ ih =>
    simp only [Phrase.least, List.length_cons] at ih ⊢
    omega
  | noArgs _ | noCommands _ => exact Nat.le_refl _
  | @word l s name t as u h _ ih =>
    have := h.length_lt
    have := length_dropWhile_le (s := t) (f := isSpace)
    simp only [Phrase.least, List.length_cons] at ih ⊢
    omega
  | @block l s cs t u as v _ _ ht _ ih ihs =>
    have := length_lt_of_dropWhile ht
    have := length_dropWhile_le (s := u) (f := isSpace)
    simp only [Phrase.least, List.length_cons] at ih ihs ⊢
    omega
  | @commands l s c t cs u _ _ ih ihs =>
    have := length_dropWhile_le (s := s) (f := isLayout)
    simp only [Phrase.least, List.length_cons] at ih ihs ⊢
    omega

/-- A phrase leaves no more than there was. -/
theorem Reads.length_le (h : Reads l s p t) : t.length ≤ s.length :=
  Nat.le_trans (Nat.le_add_right _ _) h.length_add_least_le

/-! ## The room that a phrase is read in -/

/-- The frames that are known to have room at the level of a phrase. -/
def Phrase.frames : Phrase → Nat
  | .expression _ | .arguments _ => Level.expressionFrames
  | .commands _ => Level.commandFrames
  | _ => 0

/-- An expression, a list of arguments or a list of commands is read where there is room for its
frames. -/
theorem Reads.room (h : Reads l s p t) (hp : p.frames ≠ 0) : l.lacks p.frames = false := by
  induction h with
  | expression hl _ _ | noArguments hl | noCommands hl => exact hl
  | sum _ _ _ ih _ => exact ih hp
  | argument _ _ _ _ ih => exact ih hp
  | commands _ _ _ ih => exact ih hp
  | _ => exact absurd rfl hp

/-- Where an expression is read there is room for one. -/
theorem Reads.room_expression {e : Expr} (h : Reads l s (.expression e) t) :
    l.lacks Level.expressionFrames = false := h.room (Nat.succ_ne_zero _)

/-- So there is where arguments are read. -/
theorem Reads.room_arguments {es : List Expr} (h : Reads l s (.arguments es) t) :
    l.lacks Level.expressionFrames = false := h.room (Nat.succ_ne_zero _)

/-- And for commands where they are read. -/
theorem Reads.room_commands {cs : List Command} (h : Reads l s (.commands cs) t) :
    l.lacks Level.commandFrames = false := h.room (Nat.succ_ne_zero _)

/-! ## What a phrase begins and ends with -/

theorem dropWhile_of_head_eq (hc : s.head? = some c) (h : f c = false) : s.dropWhile f = s := by
  refine dropWhile_of_head fun d hd => ?_
  rwa [← Option.some.inj (hc.symm.trans hd)]

/-- No level takes a character for a blank that is no layout. -/
theorem trim_of_head_eq (hc : s.head? = some c) (h : isLayout c = false) : trim l s = s := by
  refine dropWhile_of_head_eq hc ?_
  split
  · exact h
  · simp only [isLayout, Bool.or_eq_false_iff] at h
    exact h.1

theorem forall_head?_nil {P : Char → Prop} : ∀ c ∈ ([] : List Char).head?, P c := by simp

theorem trim_eq_dropWhile (hl : l.multiline = false) : trim l s = s.dropWhile isSpace := by
  rw [trim, hl]
  rfl

/-- Trimming twice is trimming once. -/
theorem trim_trim : trim l (trim l s) = trim l s := dropWhile_of_head (head_dropWhile _ _)

/-- The character may begin an atom. -/
def startsAtom (c : Char) : Bool := startsNumber c || isWordStart c || c = '('

/-- The character may begin a command. -/
def startsCommand (c : Char) : Bool := isWordStart c || c = '{'

/-- No atom begins with layout. -/
theorem not_isLayout_of_startsAtom (h : startsAtom c) : isLayout c = false :=
  not_isLayout_of h rfl rfl rfl rfl

/-- Nor does a command. -/
theorem not_isLayout_of_startsCommand (h : startsCommand c) : isLayout c = false :=
  not_isLayout_of h rfl rfl rfl rfl

/-- There are no blanks before a command. -/
theorem dropWhile_of_startsCommand (h : ∃ c ∈ s.head?, startsCommand c)
    (hf : ∀ c, f c → isLayout c) : s.dropWhile f = s := by
  obtain ⟨c, hc, hstart⟩ := h
  refine dropWhile_of_head_eq hc ?_
  rw [Bool.eq_false_iff]
  intro hfc
  have := not_isLayout_of_startsCommand hstart
  rw [hf _ hfc] at this
  contradiction

/-- What is known of the first characters of a phrase and of what comes after it. -/
def Phrase.Edges (l : Level) (s : List Char) : Phrase → List Char → Prop
  | .atom _, _ => ∃ c ∈ s.head?, startsAtom c
  | .factor _, t | .term _, t | .expression _, t =>
    (∃ c ∈ (trim l s).head?, startsAtom c) ∧ trim l t = t
  | .command _, _ => ∃ c ∈ s.head?, startsCommand c
  | .args as, _ => as = [] ∨ ∃ c ∈ s.head?, startsCommand c
  | .arguments _, _ | .commands _, _ => True

/-- Every phrase begins and ends as phrases of its sort do. -/
theorem Reads.edges (h : Reads l s p t) : p.Edges l s t := by
  induction h with
  | number h =>
    obtain ⟨numeral, hs, -⟩ := h
    obtain ⟨c, hc, hn⟩ := startsNumber_of_split? hs
    exact ⟨c, hc, by simp [startsAtom, hn]⟩
  | name h _ | call h _ _ _ _ =>
    obtain ⟨c, hc, hw⟩ := h.head_isWordStart
    exact ⟨c, hc, by simp [startsAtom, hw]⟩
  | group _ _ _ => exact ⟨'(', rfl, rfl⟩
  | factor _ ih => exact ⟨ih, trim_trim⟩
  | term _ ih | expression _ _ ih => exact ih
  | product _ _ _ ih ihr | sum _ _ _ ih ihr => exact ⟨ih.1, ihr.2⟩
  | noArguments _ | argument _ _ _ _ _ => trivial
  | definition h _ _ _ | property h _ _ _ | text h _ _ =>
    obtain ⟨c, hc, hw⟩ := h.head_isWordStart
    exact ⟨c, hc, by simp [startsCommand, hw]⟩
  | invocation _ ih => exact ih.resolve_left nofun
  | noArgs _ => exact .inl rfl
  | word h _ _ =>
    obtain ⟨c, hc, hw⟩ := h.head_isWordStart
    exact .inr ⟨c, hc, by simp [startsCommand, hw]⟩
  | block _ _ _ _ _ _ => exact .inr ⟨'{', rfl, rfl⟩
  | noCommands _ | commands _ _ _ _ => trivial

/-- An expression leaves no blanks behind. -/
theorem Reads.trim_rest (h : Reads l s (.expression e) t) : trim l t = t := h.edges.2

/-- An expression begins with an atom or with blanks. -/
theorem Reads.head_expression (h : Reads l s (.expression e) t) :
    ∀ c ∈ s.head?, startsAtom c ∨ isLayout c := by
  intro c hc
  by_cases hl : isLayout c
  · exact .inr hl
  · rw [Bool.not_eq_true] at hl
    obtain ⟨d, hd, ha⟩ := h.edges.1
    rw [trim_of_head_eq hc hl] at hd
    obtain rfl := Option.some.inj (hc.symm.trans hd)
    exact .inl ha

end Planetarium.Grammar
