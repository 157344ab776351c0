import Planetarium.Proofs.Grammar.Exact
import Planetarium.Proofs.Grammar.Inside
import Planetarium.Proofs.Grammar.OneLine
import Planetarium.Proofs.Grammar.Room

/-!
# Expressions put together

Texts of expressions, with operators between them or as the arguments of a call, make the text of an
expression, and its tree is put together from theirs.  Times and over bind more tightly than plus
and minus, and among operators of one kind the first goes first.  The tree is worked out from the
sequence alone: it is cut at plus and minus, and then every run of it is folded from the left.

A text that is an operation on its own has to be put in parentheses, which take one more of the
limits, as a call does.
-/
namespace Planetarium
open Parsing Text Grammar

/-- What is left of the limits inside one more group or call, if they allow it. -/
def Parsing.Limits.inside? (limits : Limits) : Option Limits :=
  if limits.depth ≤ 0 then none
  else some { depth := limits.depth - 1, room := limits.room.below Level.expressionFrames }

namespace Expr

/-! ## The tree of a sequence -/

/-- Plus and minus. -/
def isAdditive : Operator → Bool
  | .add | .sub => true
  | _ => false

/-- The operations one after another, the first one innermost. -/
def foldRun (first : Expr) (run : List (Operator × Expr)) : Expr :=
  run.foldl (fun left step => .binary step.1 left step.2) first

/-- A sequence cut at plus and minus: the run before the first of them, and each of them with the
operand and the run behind it. -/
def cut : List (Operator × Expr) →
    List (Operator × Expr) × List (Operator × Expr × List (Operator × Expr))
  | [] => ([], [])
  | (op, e) :: rest =>
    if isAdditive op then ([], (op, e, (cut rest).1) :: (cut rest).2)
    else ((op, e) :: (cut rest).1, (cut rest).2)

/-- The runs folded one by one, and then all of them. -/
def tiered (first : Expr) (steps : List (Operator × Expr)) : Expr :=
  foldRun (foldRun first (cut steps).1)
    ((cut steps).2.map fun run => (run.1, foldRun run.2.1 run.2.2))

/-- The expression is an operation. -/
def isBinary : Expr → Bool
  | .binary _ _ _ => true
  | _ => false

/-! ## The texts -/

/-- A text that may stand between operators: that of an expression that is no operation, or any in
parentheses. -/
inductive Operand (limits : Limits) : List Char → Expr → Prop
  | plain {text e} : ofChars limits text = .ok e → e.isBinary = false → Operand limits text e
  | group {inner text e} : limits.inside? = some inner → ofChars inner text = .ok e →
      Operand limits ('(' :: (text ++ [')'])) e

/-- An operator with white space around it, and the operand behind. -/
structure Link where
  before : List Char
  operator : Operator
  after : List Char
  text : List Char
  operand : Expr

/-- The text of a link. -/
def Link.chars (k : Link) : List Char :=
  k.before ++ k.operator.symbol :: (k.after ++ k.text)

/-- The link may be put behind an operand. -/
structure Link.Joins (limits : Limits) (k : Link) : Prop where
  before : k.before.all isLayout
  operator : k.operator ≠ .unspecified
  after : k.after.all isLayout
  operand : Operand limits k.text k.operand

/-- An argument of a call behind the first one. -/
structure Further where
  separator : List Char
  text : List Char
  argument : Expr

/-- The text of a further argument. -/
def Further.chars (a : Further) : List Char := a.separator ++ a.text

/-- The argument is set off from the one before it by a comma, or by white space if it begins like
a word or a numeral without a sign. -/
structure Further.Follows (inner : Limits) (a : Further) : Prop where
  separator : a.separator = [','] ∨ a.separator ≠ [] ∧ a.separator.all isLayout ∧
    ∃ c ∈ a.text.head?, isWordChar c ∨ c = '.'
  argument : ofChars inner a.text = .ok a.argument

end Expr

namespace Grammar
open Planetarium.Expr

variable {limits inner : Limits} {l : Level} {s t u v blank text : List Char} {e : Expr} {c : Char}

/-! ## White space -/

/-- Layout in front is trimmed. -/
theorem trim_blank (hl : l.multiline) (hb : blank.all isLayout) :
    trim l (blank ++ s) = trim l s := by
  rw [trim, if_pos hl, List.dropWhile_append_of_pos (List.all_eq_true.mp hb)]
  rw [trim, if_pos hl]

/-- An operand may begin with other blanks. -/
theorem Reads.factor_of_trim_eq (h : Reads l s (.factor e) t) (hs : trim l u = trim l s) :
    Reads l u (.factor e) t := by
  cases h with
  | factor h =>
    rw [← hs] at h
    exact .factor h

theorem bounded_blank (hb : blank.all isLayout) (hne : blank ≠ [])
    (hcall : (trim l (blank ++ s)).head? ≠ some '(') : Bounded l (blank ++ s) where
  ends := by
    obtain ⟨c, cs, rfl⟩ := List.exists_cons_of_ne_nil hne
    rintro d ⟨⟩
    exact isBoundary_of_isLayout (List.all_eq_true.mp hb _ List.mem_cons_self)
  no_call := hcall

/-! ## Operands -/

/-- Where an expression has been read, there was room for it. -/
theorem room_of_ofChars (h : ofChars limits text = .ok e) :
    Level.lacks { limits, multiline := true } Level.expressionFrames = false :=
  (ofChars_expression.mp h).room_expression

/-- Inside a group or a call there is left what the limits say, as far as that is enough for an
expression. -/
theorem spares_of_inside? (hin : limits.inside? = some inner)
    (hroom : Level.lacks { limits := inner, multiline := true } Level.expressionFrames = false) :
    ({ limits, multiline := true } : Level).isFull = false ∧
      Spares { limits := inner, multiline := true }
        ({ limits, multiline := true } : Level).inGroup := by
  obtain ⟨depth, room⟩ := limits
  simp only [Limits.inside?] at hin
  split at hin
  · contradiction
  · rename_i hdepth
    obtain rfl := Option.some.inj hin
    refine ⟨Level.isFull_eq_false.mpr (Int.not_le.mp hdepth), rfl, ?_, ?_⟩
    · simp only [Level.inGroup]
      omega
    · rintro room ⟨⟩
      -- less than the frames of the group is not enough for what it holds
      refine ⟨room - Level.expressionFrames, rfl, ?_⟩
      have hle := Level.lacks_eq_false.mp hroom (room - Level.expressionFrames) rfl
      simp only [Level.inGroup, Level.expressionFrames] at hle ⊢
      omega

/-- What is read on its own is read inside parentheses. -/
theorem reads_inside (hin : limits.inside? = some inner) (h : ofChars inner text = .ok e) :
    Reads ({ limits, multiline := true } : Level).inGroup text (.expression e) [] :=
  (ofChars_expression.mp h).of_spares (spares_of_inside? hin (room_of_ofChars h)).2

/-- Where there is room for a group or a call, there is room for the expression that it is. -/
theorem room_of_inGroup (h : l.inGroup.lacks Level.expressionFrames = false) :
    l.lacks Level.expressionFrames = false :=
  Level.lacks_of_le (Nat.le_add_right _ _) (Level.lacks_inGroup ▸ h)

theorem room_of_inside? (hin : limits.inside? = some inner) (h : ofChars inner text = .ok e) :
    Level.lacks { limits, multiline := true } Level.expressionFrames = false :=
  room_of_inGroup (reads_inside hin h).room_expression

theorem room_of_operand (h : Operand limits text e) :
    Level.lacks { limits, multiline := true } Level.expressionFrames = false := by
  cases h with
  | plain h _ => exact room_of_ofChars h
  | group hin h => exact room_of_inside? hin h

/-- An expression that is no operation is a factor. -/
theorem Reads.factor_of_not_binary (h : Reads l s (.expression e) t) (hb : e.isBinary = false) :
    Reads l s (.factor e) t := by
  cases h with
  | expression _ h =>
    cases h with
    | term h => exact h
    | product _ _ _ => contradiction
  | sum _ _ _ => contradiction

/-- An operand is a factor in front of whatever does not go on with it. -/
theorem reads_operand (h : Operand limits text e)
    (hv : Bounded { limits, multiline := true } v) :
    Reads { limits, multiline := true } (text ++ v) (.factor e)
      (trim { limits, multiline := true } v) := by
  cases h with
  | plain h hb => exact ((ofChars_expression.mp h).factor_of_not_binary hb).append v (.inr hv)
  | @group inner text e hin h =>
    obtain ⟨hfull, -⟩ := spares_of_inside? hin (room_of_ofChars h)
    have hclose : Bounded ({ limits, multiline := true } : Level).inGroup (')' :: v) :=
      ⟨by rintro c ⟨⟩; rfl, by rw [trim_of_not_isLayout rfl]; exact nofun⟩
    have hinner := (reads_inside hin h).append (')' :: v) (.inr hclose)
    rw [Phrase.left, List.nil_append, trim_of_not_isLayout rfl] at hinner
    have hatom : Reads { limits, multiline := true } ('(' :: (text ++ ')' :: v)) (.atom e) v :=
      .group hfull hinner
    have hfactor := Reads.factor (hatom.trim_atom.symm ▸ hatom)
    simpa using hfactor

/-! ## Sequences -/

theorem symbol_isOperator {op : Operator} (h : op ≠ .unspecified) : isOperator op.symbol := by
  cases op
  case unspecified => exact absurd rfl h
  all_goals rfl

/-- Behind an operand its operator comes next. -/
theorem trim_link (hl : l.multiline) {k : Link} {limits : Limits} (hk : k.Joins limits) :
    trim l (k.chars ++ s) = k.operator.symbol :: (k.after ++ (k.text ++ s)) := by
  rw [Link.chars, List.append_assoc, trim_blank hl hk.before, List.cons_append, List.append_assoc,
    trim_of_not_isLayout (isLayout_symbol _)]

/-- An operand ends where a link begins. -/
theorem bounded_links (hl : l.multiline) {links : List Link}
    (hlinks : ∀ k ∈ links, k.Joins limits) : Bounded l (links.flatMap Link.chars) := by
  cases links with
  | nil => exact ⟨nofun, nofun⟩
  | cons k links =>
    have hk := hlinks k List.mem_cons_self
    have hcall : (trim l ((k :: links).flatMap Link.chars)).head? ≠ some '(' := by
      rw [List.flatMap_cons, trim_link hl hk]
      intro h
      have hop := symbol_isOperator hk.operator
      rw [Option.some.inj h] at hop
      exact absurd hop (by decide)
    refine ⟨?_, hcall⟩
    -- the operator comes first, or the blanks before it do
    cases hbefore : k.before with
    | nil =>
      rw [List.flatMap_cons, Link.chars, hbefore]
      rintro c ⟨⟩
      rw [isBoundary, symbol_isOperator hk.operator, Bool.or_true]
    | cons b blank =>
      have hb := List.all_eq_true.mp hk.before b (by rw [hbefore]; exact List.mem_cons_self)
      rw [List.flatMap_cons, Link.chars, hbefore]
      rintro c ⟨⟩
      exact isBoundary_of_isLayout hb

theorem additive?_symbol {op : Operator} (h : isAdditive op) :
    Operator.additive? op.symbol = some op := by
  cases op <;> first | rfl | contradiction

theorem multiplicative?_symbol {op : Operator} (hop : op ≠ .unspecified)
    (h : isAdditive op = false) : Operator.multiplicative? op.symbol = some op := by
  cases op <;> first | rfl | contradiction

theorem foldRun_nil {first : Expr} : foldRun first [] = first := rfl

theorem foldRun_cons {first e : Expr} {op : Operator} {run : List (Operator × Expr)} :
    foldRun first ((op, e) :: run) = foldRun (.binary op first e) run := rfl

/-- A run that has been read up to here goes on with the links behind it. -/
theorem reads_links {links : List Link} (hlinks : ∀ k ∈ links, k.Joins limits)
    {left : Expr} {f : Expr → Expr}
    (hf : ∀ e t, Reads { limits, multiline := true } u (.term e) t →
      Reads { limits, multiline := true } s (.expression (f e)) t)
    (hleft : Reads { limits, multiline := true } u (.term left)
      (trim { limits, multiline := true } (links.flatMap Link.chars))) :
    Reads { limits, multiline := true } s
      (.expression (foldRun
        (f (foldRun left (cut (links.map fun k => (k.operator, k.operand))).1))
        ((cut (links.map fun k => (k.operator, k.operand))).2.map
          fun run => (run.1, foldRun run.2.1 run.2.2)))) [] := by
  induction links generalizing u left f with
  | nil => exact hf _ _ hleft
  | cons k links ih =>
    obtain ⟨hk, hlinks⟩ := List.forall_mem_cons.mp hlinks
    rw [List.flatMap_cons, trim_link rfl hk] at hleft
    have hoperand : Reads { limits, multiline := true } (k.after ++ (k.text ++ _))
        (.factor k.operand) _ :=
      (reads_operand hk.operand (bounded_links rfl hlinks)).factor_of_trim_eq
        (trim_blank rfl hk.after)
    cases hadd : isAdditive k.operator with
    | false =>
      -- the run goes on
      have hop := multiplicative?_symbol hk.operator hadd
      have hread := ih hlinks hf (.product hleft hop hoperand)
      simpa only [List.map_cons, cut, hadd, Bool.false_eq_true, if_false, foldRun_cons] using hread
    | true =>
      -- the run is over, and the next one begins with this operand
      have hread := ih hlinks (f := fun e => .binary k.operator (f left) e)
        (fun e t he => .sum (hf _ _ hleft) (additive?_symbol hadd) he) (.term hoperand)
      simpa only [List.map_cons, cut, hadd, if_true, foldRun_nil, foldRun_cons] using hread

/-! ## Calls -/

/-- What comes behind an argument does not go on with it. -/
theorem reads_argument (hin : limits.inside? = some inner) (h : ofChars inner text = .ok e)
    (hl : l = ({ limits, multiline := true } : Level).inGroup) (hv : Bounded l v)
    (hno : NoOperator (trim l v)) {es : List Expr}
    (hes : Reads l (afterComma l (trim l v)) (.arguments es) t) :
    Reads l (trim l (text ++ v)) (.arguments (e :: es)) t := by
  subst hl
  have he := (reads_inside hin h).append v (.inr hv)
  exact .argument he.trim_left hno hes

/-- An argument is read up to what delimits it. -/
theorem reads_argument_delimited (hin : limits.inside? = some inner)
    (h : ofChars inner text = .ok e) (hl : l = ({ limits, multiline := true } : Level).inGroup)
    (hc : isDelimiter c) (hlayout : isLayout c = false) {es : List Expr}
    (hes : Reads l (afterComma l (c :: s)) (.arguments es) t) :
    Reads l (trim l (text ++ c :: s)) (.arguments (e :: es)) t := by
  have hdelimited : Delimited l (c :: s) := delimited_of_head hc hlayout
  have htrim : trim l (c :: s) = c :: s := trim_of_not_isLayout hlayout
  refine reads_argument hin h hl ?_ ?_ (by rwa [htrim])
  · exact ⟨fun d hd => by rw [isBoundary, hdelimited.ends d hd, Bool.true_or], hdelimited.no_call⟩
  · rw [htrim]
    exact noOperator_of_isDelimiter hc

/-- What begins a word or a numeral without a sign is neither a blank nor any sign. -/
theorem apart_of_word (h : isWordChar c ∨ c = '.') :
    isLayout c = false ∧ isOperator c = false ∧ c ≠ ',' ∧ c ≠ '(' := by
  rcases h with h | rfl
  · refine ⟨not_isLayout_of h rfl rfl rfl rfl, ?_, ?_, ?_⟩
    · by_contra hop
      rw [Bool.not_eq_false] at hop
      rcases eq_of_isOperator hop with rfl | rfl | rfl | rfl <;> exact absurd h (by decide)
    · rintro rfl
      exact absurd h (by decide)
    · rintro rfl
      exact absurd h (by decide)
  · decide

/-- The texts of arguments, and the closing parenthesis, are read as the arguments of a call. -/
theorem reads_arguments (hin : limits.inside? = some inner) {further : List Further}
    (hfurther : ∀ a ∈ further, a.Follows inner) {comma : List Char}
    (hcomma : comma = [] ∨ comma = [',']) (h : ofChars inner text = .ok e)
    (hl : l = ({ limits, multiline := true } : Level).inGroup) :
    Reads l (trim l (text ++ (further.flatMap Further.chars ++ (comma ++ [')']))))
      (.arguments (e :: further.map Further.argument)) [] := by
  induction further generalizing text e with
  | nil =>
    have hclose : trim l [')'] = [')'] := trim_of_not_isLayout rfl
    have hroom : l.lacks Level.expressionFrames = false := hl ▸ (reads_inside hin h).room_expression
    rcases hcomma with rfl | rfl
    · refine reads_argument_delimited hin h hl rfl rfl ?_
      rw [afterComma_cons (by decide), hclose]
      exact .noArguments hroom
    · refine reads_argument_delimited hin h hl rfl rfl ?_
      show Reads l (trim l [')']) (.arguments []) []
      rw [hclose]
      exact .noArguments hroom
  | cons a further ih =>
    obtain ⟨ha, hfurther⟩ := List.forall_mem_cons.mp hfurther
    have hrest := ih hfurther ha.argument
    rw [List.flatMap_cons, Further.chars, List.append_assoc, List.append_assoc]
    rcases ha.separator with hsep | ⟨hne, hblank, c, hc, hword⟩
    · rw [hsep]
      exact reads_argument_delimited hin h hl rfl rfl hrest
    · obtain ⟨cs, hcs⟩ := List.head?_eq_some_iff.mp hc
      obtain ⟨hlayout, hoperator, hcomma', hopen⟩ := apart_of_word hword
      have htrim : ∀ s, trim l (a.separator ++ (a.text ++ s)) = c :: (cs ++ s) := by
        intro s
        rw [trim_blank (by rw [hl]; rfl) hblank, hcs, List.cons_append,
          trim_of_not_isLayout hlayout]
      refine reads_argument hin h hl (bounded_blank hblank hne ?_) ?_ ?_
      · rw [htrim]
        exact fun heq => hopen (Option.some.inj heq)
      · rw [htrim]
        rintro d ⟨⟩
        exact hoperator
      · rw [htrim, afterComma_cons hcomma']
        rwa [hcs] at hrest

/-- A name and arguments in parentheses are read as a call. -/
theorem reads_call (hfull : ({ limits, multiline := true } : Level).isFull = false)
    {function : String} (hname : isName function.toList) (hblank : blank.all isLayout)
    {es : List Expr}
    (hes : Reads ({ limits, multiline := true } : Level).inGroup
      (trim ({ limits, multiline := true } : Level).inGroup s) (.arguments es) []) :
    Reads { limits, multiline := true } (function.toList ++ (blank ++ '(' :: s))
      (.expression (.call function es)) [] := by
  have hword : Word (function.toList ++ (blank ++ '(' :: s)) function (blank ++ '(' :: s) := by
    refine word_of_isName hname fun c hc => ?_
    cases blank with
    | nil =>
      obtain rfl := Option.some.inj hc
      rfl
    | cons b blank =>
      obtain rfl := Option.some.inj hc
      exact isWordChar_of_isDelimiter (by
        simp [isDelimiter, List.all_eq_true.mp hblank b List.mem_cons_self])
  have hopen : trim { limits, multiline := true } (blank ++ '(' :: s) = '(' :: s := by
    rw [trim_blank rfl hblank, trim_of_not_isLayout rfl]
  exact (Reads.call hword hopen hfull hes).expression_of_atom (room_of_inGroup hes.room_arguments)

/-- More groups than there is room for are not read, whatever is in them. -/
theorem ofChars_of_deep {room m : Nat} (hroom : limits.room = some room)
    (hm : room < framesForNesting m) (hdepth : m ≤ limits.depth) :
    ∃ f, ofChars limits (List.replicate m '(' ++ s) = .error f := by
  have hout := runsOut_expression (l := { limits, multiline := true }) (s := s) (k := 0) room hroom
    (by simpa using hm) (by simpa using hdepth)
  simp only [ofChars, Cursor.start]
  generalize expression _ _ = a at hout ⊢
  obtain ⟨outcome, log⟩ := a
  obtain ⟨rfl, -⟩ : outcome = _ ∧ _ := hout
  exact ⟨_, rfl⟩

/-- A name on its own. -/
theorem ofChars_name {name : String} (hname : isName name.toList)
    (hroom : Level.lacks { limits, multiline := true } Level.expressionFrames = false) :
    ofChars limits name.toList = .ok (.ident name) := by
  have hword : Word (name.toList ++ []) name [] := word_of_isName hname (fun c hc => nomatch hc)
  rw [List.append_nil] at hword
  exact ofChars_expression.mpr ((Reads.name hword nofun).expression_of_atom hroom)

/-- A name in so many pairs of parentheses. -/
def parenthesized (m : Nat) : List Char := List.replicate m '(' ++ 'x' :: List.replicate m ')'

theorem parenthesized_succ {m : Nat} :
    parenthesized (m + 1) = '(' :: (parenthesized m ++ [')']) := by
  simp [parenthesized, List.replicate_succ, ← List.replicate_succ']

end Grammar

namespace Expr

/-- **Expressions are put together from their parts.** Operands with operators between them, and
white space around these, are read as the tree of their sequence; a name and the texts of arguments
in parentheses are read as a call of it.  What is put inside of parentheses has to do with what is
left of the limits there. -/
theorem ofChars_compositional (limits : Limits) :
    (∀ (text : List Char) (first : Expr) (links : List Link), Operand limits text first →
      (∀ k ∈ links, k.Joins limits) →
        ofChars limits (text ++ links.flatMap Link.chars) =
          .ok (tiered first (links.map fun k => (k.operator, k.operand)))) ∧
    ∀ inner, limits.inside? = some inner →
      ∀ (function : String) (blank text : List Char) (first : Expr) (further : List Further)
        (comma : List Char), isName function.toList → blank.all isLayout →
        ofChars inner text = .ok first → (∀ a ∈ further, a.Follows inner) →
        comma = [] ∨ comma = [','] →
          ofChars limits (function.toList ++ (blank ++ '(' ::
            (text ++ (further.flatMap Further.chars ++ (comma ++ [')']))))) =
            .ok (.call function (first :: further.map Further.argument)) := by
  constructor
  · intro text first links hfirst hlinks
    refine ofChars_expression.mpr ?_
    have hoperand := reads_operand hfirst (bounded_links rfl hlinks)
    exact reads_links hlinks (f := id) (fun _ _ he => .expression (room_of_operand hfirst) he)
      (.term hoperand)
  · intro inner hin function blank text first further comma hname hblank h hfurther hcomma
    refine ofChars_expression.mpr ?_
    exact reads_call (spares_of_inside? hin (room_of_ofChars h)).1 hname hblank
      (reads_arguments hin hfurther hcomma h rfl)

/-- A difference. -/
def sampleDifference : Link := ⟨[' '], .sub, [' '], "d".toList, .ident "d"⟩

/-- Some links behind an operand. -/
def sampleLinks : List Link := [
  ⟨[' '], .add, ['\n'], "b".toList, .ident "b"⟩,
  ⟨[], .mul, [], "(c - d)".toList, .binary .sub (.ident "c") (.ident "d")⟩,
  ⟨['\t'], .sub, [' '], "e".toList, .ident "e"⟩]

/-- Some arguments behind the first one. -/
def sampleFurther : List Further :=
  [⟨[','], "y".toList, .ident "y"⟩, ⟨[' '], "z".toList, .ident "z"⟩]

theorem ofChars_compositional_sample :
    ofChars { depth := 1 } "a +\nb*(c - d)\t- e".toList = .ok (.binary .sub
        (.binary .add (.ident "a") (.binary .mul (.ident "b")
          (.binary .sub (.ident "c") (.ident "d")))) (.ident "e")) ∧
      ofChars { depth := 1 } "max (x,y z,)".toList =
        .ok (.call "max" [.ident "x", .ident "y", .ident "z"]) := by
  have hin : ({ depth := 1 } : Limits).inside? = some { depth := 0, room := some 986 } := rfl
  obtain ⟨hjoined, hcalled⟩ := ofChars_compositional { depth := 1 }
  have hname : ∀ limits (name : String), isName name.toList →
      Level.lacks { limits, multiline := true } Level.expressionFrames = false →
      Operand limits name.toList (.ident name) :=
    fun limits name h hroom => .plain (ofChars_name h hroom) rfl
  have hdifference : ofChars { depth := 0, room := some 986 } "c - d".toList =
      .ok (.binary .sub (.ident "c") (.ident "d")) := by
    refine (ofChars_compositional _).1 "c".toList (.ident "c") [sampleDifference]
      (hname _ _ (by decide) (by decide)) ?_
    rw [List.forall_mem_singleton]
    exact ⟨by decide, by decide, by decide, hname _ _ (by decide) (by decide)⟩
  have hlinks : ∀ k ∈ sampleLinks, k.Joins { depth := 1 } := by
    simp only [sampleLinks, List.forall_mem_cons]
    exact ⟨⟨by decide, by decide, by decide, hname _ _ (by decide) (by decide)⟩,
      ⟨by decide, by decide, by decide, .group hin hdifference⟩,
      ⟨by decide, by decide, by decide, hname _ _ (by decide) (by decide)⟩, nofun⟩
  have hfurther : ∀ a ∈ sampleFurther, a.Follows { depth := 0, room := some 986 } := by
    simp only [sampleFurther, List.forall_mem_cons]
    exact ⟨⟨.inl rfl, ofChars_name (by decide) (by decide)⟩,
      ⟨.inr ⟨by decide, by decide, 'z', rfl, by decide⟩, ofChars_name (by decide) (by decide)⟩,
      nofun⟩
  constructor
  · exact hjoined "a".toList (.ident "a") sampleLinks (hname _ _ (by decide) (by decide)) hlinks
  · exact hcalled _ hin "max" [' '] "x".toList (.ident "x") sampleFurther [','] (by decide)
      (by decide) (ofChars_name (by decide) (by decide)) hfurther (.inr rfl)

/-- However deep an expression may be, in parentheses it can need more room than there is: else a
thousand pairs of them around a name were read. -/
theorem not_always_in_parentheses : ¬ ∀ (limits : Limits) (text : List Char) (e : Expr),
    1 ≤ limits.depth → ofChars { limits with depth := limits.depth - 1 } text = .ok e →
      ofChars limits ('(' :: (text ++ [')'])) = .ok e := by
  intro h
  have hread : ∀ m : Nat, ofChars { depth := m } (parenthesized m) = .ok (.ident "x") := by
    intro m
    induction m with
    | zero => exact @ofChars_name _ "x" (by decide) (by decide)
    | succ m ih =>
      rw [parenthesized_succ]
      exact h { depth := (m + 1 : Nat) } _ _ (by simp) (by simpa using ih)
  obtain ⟨f, hf⟩ : ∃ f, ofChars { depth := (1000 : Nat) } (parenthesized 1000) = .error f :=
    ofChars_of_deep rfl (by decide) (by decide)
  rw [hread] at hf
  contradiction

end Expr
end Planetarium
