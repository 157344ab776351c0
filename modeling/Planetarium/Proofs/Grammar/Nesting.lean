import Planetarium.Proofs.Grammar.CommandComplete
import Planetarium.Proofs.Parsing.Nesting

/-!
# The limits on the nesting

Every rule of the grammar does under limits what it does under greater ones, unless they do not
allow one more bracket or there is no room for it.  The rules that call themselves ask that of the
rule for what their brackets hold (`InnerCapped`, `BodyCapped`), where one bracket more is open.

The level is an argument of every rule, so what a rule opens in vain is not open for the next one
that is tried from the same place.
-/
namespace Planetarium.Grammar
open Parsing Text Attempt

variable {n b : Nat} {lim lim' : Limits} {s : Cursor} {l : Level} {P : Cursor → Prop}

/-! ## Expressions -/

theorem capped_chainRest {operator : Char → Option Operator} {operand operand' : Rule n}
    (hop : ∀ c, (operator c).isSome → isPlain c)
    (ho : ∀ t h, CappedAt lim l.depth t (operand t h) (operand' t h)) {left : Expr} {t : Cursor}
    {h : t.left < n} : CappedAt lim l.depth t (chainRest (l.limited lim) operator operand left t h)
      (chainRest (l.limited lim') operator operand' left t h) := by
  have := l.left_skip_le t
  rw [chainRest.eq_def (l.limited lim), chainRest.eq_def (l.limited lim')]
  refine Capped.branch (a := sign operator (l.skip t)) capped_sign (fun op u hu hspan => ?_) ?_
  · obtain ⟨c, _, hrest, hc⟩ := hspan
    have hplain : isPlain c := hop c (Option.isSome_of_eq_some hc)
    have hsign : Spans lim.depth.toNat l.depth t u := Level.spans_skip.trans
      (spans_of_isPlain (w := [c]) hrest (by simpa using hplain))
    -- without an operand the chain ends before the operator
    refine ((ho u _).from hsign).branch (fun right v hv hspan => ?_) (capped_accept .refl)
    exact (capped_chainRest hop ho).from hspan
  · exact (capped_accept .refl).since _
termination_by t.left

/-- A chain is read alike under both limits if its operands are. -/
theorem capped_chain {operator : Char → Option Operator} {operand operand' : Rule s.left}
    (hop : ∀ c, (operator c).isSome → isPlain c)
    (ho : ∀ t h, CappedAt lim l.depth t (operand t h) (operand' t h)) :
    CappedAt lim l.depth s (chain (l.limited lim) operator s operand)
      (chain (l.limited lim') operator s operand') :=
  (ho s _).andThen fun _ _ _ hspan => (capped_chainRest hop ho).from hspan

/-- A closing bracket ends what was opened. -/
theorem capped_close {α : Type} {v : α} {h : s.left ≤ n} (hp : ∀ t, s.rest = ')' :: t.rest → P t) :
    Capped lim b P (close v s h) (close v s h) :=
  capped_char.branch (fun _ _ _ ht => capped_accept (hp _ ht)) ((capped_stop rfl).since _)

/-- The rule for the inside of groups and calls is cut short by its limits only. -/
def InnerCapped (lim lim' : Limits) (inner : Inner n) : Prop :=
  ∀ (l : Level) (t : Cursor) h,
    CappedAt lim l.depth t (inner (l.limited lim) t h) (inner (l.limited lim') t h)

/-- So are arguments, if the expressions inside them are. -/
theorem capped_arguments {inner : Inner n} (hi : InnerCapped lim lim' inner) {function : String}
    {before : List Expr} {s : Cursor} {h : s.left < n} (hb : deepest false l.depth s.rest ≤ b)
    (hp : ∀ t u, Spans lim.depth.toNat l.depth s t → t.rest = ')' :: u.rest → P u) :
    Capped lim b P (arguments (l.limited lim) function inner before s h)
      (arguments (l.limited lim') function inner before s h) := by
  rw [arguments.eq_def (l.limited lim), arguments.eq_def (l.limited lim')]
  refine ((hi l s h).mono hb fun _ h => h).branch (fun arg t ht hspan => ?_)
    (capped_close fun u hu => hp s u .refl hu)
  have := l.left_skip_le t
  -- from here on what is read may be further arguments, with or without a comma before them
  have hmore : ∀ v : Cursor, ∀ hv : v.left < n, v.left < s.left →
      Spans lim.depth.toNat l.depth s v →
      Capped lim b P (arguments (l.limited lim) function inner (before ++ [arg]) v hv)
        (arguments (l.limited lim') function inner (before ++ [arg]) v hv) := fun v hv hlt hsv =>
    capped_arguments hi (Nat.le_trans hsv.deepest_le hb) fun t u ht hu => hp t u (hsv.trans ht) hu
  have hskip : Spans lim.depth.toNat l.depth s (l.skip t) := hspan.trans Level.spans_skip
  refine Capped.branch (a := char ',' (l.skip t)) capped_char (fun _ v hv hcomma => ?_) ?_
  · have := l.left_skip_le v
    have hcomma : Spans lim.depth.toNat l.depth (l.skip t) v :=
      spans_of_isPlain (w := [',']) hcomma rfl
    exact hmore _ _ (by simp only [Level.skip_limited]; omega)
      (hskip.trans (hcomma.trans Level.spans_skip))
  · exact hmore _ _ (by simp only [Level.skip_limited]; omega) hskip
termination_by s.left

section Atoms
variable {inner : Inner s.left} (hi : InnerCapped lim lim' inner) (hlim : lim.AtMost lim')
include hi hlim

theorem capped_call :
    CappedAt lim l.depth s (call (l.limited lim) s inner) (call (l.limited lim') s inner) := by
  refine capped_identifier.andThen fun function t ht hname => ?_
  refine Capped.from (t := l.skip t) ?_ (hname.trans Level.spans_skip)
  refine Capped.andThen (a := char '(' (l.skip t)) capped_char fun _ u hu hopen => ?_
  refine capped_enter hlim hopen rfl fun hdepth => ?_
  refine capped_arguments hi (l := l.inGroup) (Level.spans_skip (d := lim.depth.toNat)).deepest_le
    fun v w hspan hclose => ?_
  exact (Level.spans_skip.trans hspan).enclosed hopen rfl hclose rfl hdepth

theorem capped_group :
    CappedAt lim l.depth s (group (l.limited lim) s inner) (group (l.limited lim') s inner) := by
  refine Capped.andThen (a := char '(' s) capped_char fun _ t ht hopen => ?_
  refine capped_enter hlim hopen rfl fun hdepth => ?_
  refine Capped.andThen (hi l.inGroup t ht) fun e u hu hspan => ?_
  exact capped_close fun v hclose =>
    (hspan.trans Level.spans_skip).enclosed hopen rfl hclose rfl hdepth

theorem capped_alternatives : CappedAt lim l.depth s (alternatives (l.limited lim) s inner)
    (alternatives (l.limited lim') s inner) :=
  (capped_number.map _).orElse ((capped_call hi hlim).orElse ((capped_identifier.map _).orElse
    ((capped_group hi hlim).orElse capped_miss)))

end Atoms

theorem capped_factor (hi : InnerCapped lim lim' (expressionWithin s.left))
    (hlim : lim.AtMost lim') :
    CappedAt lim l.depth s (factor (l.limited lim) s (expressionWithin s.left))
      (factor (l.limited lim') s (expressionWithin s.left)) := by
  have hatom : CappedAt lim l.depth (l.skip s) (atom (l.limited lim) (l.skip s))
      (atom (l.limited lim') (l.skip s)) :=
    capped_alternatives (fun l' t h => hi l' t (Nat.lt_of_lt_of_le h (l.left_skip_le s))) hlim
  exact (Capped.from hatom Level.spans_skip).andThen fun e t ht hspan =>
    capped_accept (hspan.trans Level.spans_skip)

/-- **An expression is read alike under both limits,** or exceeds the lower one. -/
theorem capped_expression (hlim : lim.AtMost lim') {l : Level} {s : Cursor} :
    CappedAt lim l.depth s (expression (l.limited lim) s) (expression (l.limited lim') s) := by
  rw [expression_eq, expression_eq]
  refine capped_within hlim ?_
  -- no operator is a bracket
  refine capped_chain (fun c h => isPlain_of (f := fun c => (Operator.additive? c).isSome) h
    (by decide)) fun t ht => ?_
  refine capped_chain (fun c h => isPlain_of (f := fun c => (Operator.multiplicative? c).isSome) h
    (by decide)) fun u hu => ?_
  exact capped_factor (fun l v hv => capped_expression hlim) hlim
termination_by s.left

/-! ## Commands -/

theorem capped_head {word : List Char} {expected : Expected} (hw : word.all isPlain)
    {k : Nat} : CappedAt lim k s (head word expected s) (head word expected s) := by
  refine capped_identifier.branch (fun name t ht hname => ?_) capped_miss
  split
  · exact capped_miss
  · rename_i u hu
    exact capped_accept ((hname.trans spans_skip_isSpace).trans
      ((spans_after? hw hu).trans spans_skip_isSpace))

/-- The expression of a definition or a property has less room, but no bracket more around it. -/
theorem capped_assigned (hlim : lim.AtMost lim') : CappedAt lim l.depth s
    (expression (l.limited lim).inAssignment s) (expression (l.limited lim').inAssignment s) :=
  capped_expression hlim (l := l.inAssignment)

theorem capped_definition (hlim : lim.AtMost lim') :
    CappedAt lim l.depth s (definition (l.limited lim) s) (definition (l.limited lim') s) :=
  (capped_head rfl).andThen fun _ _ _ hhead =>
    ((capped_assigned hlim).from hhead).andThen fun _ _ _ hspan => capped_accept hspan

theorem capped_property (hlim : lim.AtMost lim') :
    CappedAt lim l.depth s (property (l.limited lim) s) (property (l.limited lim') s) := by
  refine (capped_head rfl).andThen fun name t ht hhead => ?_
  refine (capped_quotedString.from hhead).branch (fun text u hu hspan => ?_) ?_
  · exact capped_accept (hspan.trans spans_skip_isSpace)
  · exact ((capped_assigned hlim).from hhead).andThen fun _ _ _ hspan => capped_accept hspan

theorem capped_word {k : Nat} : CappedAt lim k s (word s) (word s) :=
  capped_identifier.branch (fun _ _ _ hspan => capped_accept hspan) capped_miss

/-- The rule for the inside of blocks is cut short by its limits only. -/
def BodyCapped (lim lim' : Limits) (body : Body n) : Prop :=
  ∀ (l : Level) (t : Cursor) h,
    CappedAt lim l.depth t (body (l.limited lim) t h) (body (l.limited lim') t h)

/-- A block is read alike if the commands inside it are. -/
theorem capped_block {body : Body s.left} (hb : BodyCapped lim lim' body) (hlim : lim.AtMost lim') :
    CappedAt lim l.depth s (block (l.limited lim) s body) (block (l.limited lim') s body) := by
  refine Capped.branch (a := char '{' s) capped_char (fun _ t ht hopen => ?_) capped_miss
  refine capped_enter hlim hopen rfl fun hdepth => ?_
  refine Capped.andThen (hb l.inBlock t ht) fun cs u hu hspan => ?_
  refine Capped.branch (a := char '}' (u.skip isLayout)) capped_char (fun _ v hv hclose => ?_) ?_
  · exact capped_accept
      ((hspan.trans spans_skip_isLayout).enclosed hopen rfl hclose rfl hdepth)
  · split
    · exact capped_stop rfl
    · exact capped_miss

theorem capped_argument {body : Body s.left} (hb : BodyCapped lim lim' body)
    (hlim : lim.AtMost lim') :
    CappedAt lim l.depth s ((block (l.limited lim) s body).orElse fun _ => word s)
      ((block (l.limited lim') s body).orElse fun _ => word s) :=
  (capped_block hb hlim).orElse capped_word

/-- So is a list of arguments. -/
theorem capped_args {body : Body n} (hb : BodyCapped lim lim' body) (hlim : lim.AtMost lim')
    {before : List Arg}
    {s : Cursor} {h : s.left ≤ n} : CappedAt lim l.depth s (args (l.limited lim) body before s h)
      (args (l.limited lim') body before s h) := by
  rw [args.eq_def (l.limited lim), args.eq_def (l.limited lim')]
  refine (capped_argument (fun l t ht => hb l t _) hlim).branch (fun arg t ht hspan => ?_)
    (capped_accept .refl)
  have := Cursor.left_skip_le (p := isSpace) (s := t)
  exact (capped_args hb hlim).from (hspan.trans spans_skip_isSpace)
termination_by s.left

theorem capped_invocation {body : Body s.left} (hb : BodyCapped lim lim' body)
    (hlim : lim.AtMost lim') :
    CappedAt lim l.depth s (invocation (l.limited lim) s body)
      (invocation (l.limited lim') s body) := by
  refine (capped_argument hb hlim).andThen fun arg t ht hspan => ?_
  refine Capped.andThen (Capped.from (capped_args ?_ hlim) (hspan.trans spans_skip_isSpace))
    fun as u hu hspan => capped_accept hspan
  exact fun l u hu => hb l u _

/-- The alternatives for a command. -/
theorem capped_line {body : Body s.left} (hb : BodyCapped lim lim' body) (hlim : lim.AtMost lim') :
    CappedAt lim l.depth s
      ((definition (l.limited lim) s).orElse fun _ =>
        (property (l.limited lim) s).orElse fun _ => invocation (l.limited lim) s body)
      ((definition (l.limited lim') s).orElse fun _ =>
        (property (l.limited lim') s).orElse fun _ => invocation (l.limited lim') s body) :=
  (capped_definition hlim).orElse ((capped_property hlim).orElse (capped_invocation hb hlim))

theorem capped_command {body : Body s.left} (hb : BodyCapped lim lim' body)
    (hlim : lim.AtMost lim') :
    CappedAt lim l.depth s (command (l.limited lim) s body) (command (l.limited lim') s body) := by
  have hinner : BodyCapped lim lim' fun l (t : Cursor) (ht : t.left < (s.skip isLayout).left) =>
      body l t (Nat.lt_of_lt_of_le ht Cursor.left_skip_le) := fun l t ht => hb l t _
  rw [command, command]
  exact capped_within hlim
    ((Capped.from (capped_line hinner hlim) spans_skip_isLayout).widen Cursor.left_skip_le)

/-- **Commands are read alike under both limits,** or exceed the lower one. -/
theorem capped_commands (hlim : lim.AtMost lim') {l : Level} {s : Cursor} :
    CappedAt lim l.depth s (commands (l.limited lim) s) (commands (l.limited lim') s) := by
  rw [commands_eq, commands_eq]
  refine (capped_command (fun l t h => capped_commands hlim) hlim).branch
    (fun first t ht hspan => ?_) (capped_accept .refl)
  exact ((capped_commands hlim).from hspan).andThen fun _ _ _ hspan => capped_accept hspan
termination_by s.left

end Planetarium.Grammar
