import Planetarium.Proofs.Grammar.CommandComplete
import Planetarium.Proofs.Parsing.Coupling

/-!
# The grammar side by side

Every rule of the grammar keeps two readings together.  A rule that is given another one for what
it holds asks that of the given one (`InnerCoupled`, `BodyCoupled`), and for the rules that call
themselves it comes from the text being shorter.

The trees that come out are the same, except that the texts between quotes may differ.  Where two
readings need not agree on every quoted text, it is enough that they do where one is looked for
(`Tries`).
-/
namespace Planetarium

/-- The value with `f` applied to its text. -/
def PropertyValue.mapTexts (f : String → String) : PropertyValue → PropertyValue
  | .text s => .text (f s)
  | .expr e => .expr e
  | .stray word => .stray word

mutual
/-- The argument with `f` applied to the text of every property in it. -/
def Arg.mapTexts (f : String → String) : Arg → Arg
  | .word text => .word text
  | .block commands => .block (Command.mapTextsAll f commands)

/-- The arguments with `f` applied to the text of every property in them. -/
def Arg.mapTextsAll (f : String → String) : List Arg → List Arg
  | [] => []
  | a :: as => a.mapTexts f :: Arg.mapTextsAll f as

/-- The command with `f` applied to the text of every property in it. -/
def Command.mapTexts (f : String → String) : Command → Command
  | .invocation args => .invocation (Arg.mapTextsAll f args)
  | .property name value => .property name (value.mapTexts f)
  | .definition name e => .definition name e
  | .stray word => .stray word

/-- The commands with `f` applied to the text of every property in them. -/
def Command.mapTextsAll (f : String → String) : List Command → List Command
  | [] => []
  | c :: cs => c.mapTexts f :: Command.mapTextsAll f cs
end

theorem Arg.mapTextsAll_append (f : String → String) (as bs : List Arg) :
    Arg.mapTextsAll f (as ++ bs) = Arg.mapTextsAll f as ++ Arg.mapTextsAll f bs := by
  induction as with
  | nil => rfl
  | cons a as ih => simp [Arg.mapTextsAll, ih]

namespace Grammar
open Parsing Text Attempt

variable {n n' k k' : Nat} {s s' t t' : Cursor} {l l' : Level}

/-! ## Expressions -/

section Expressions
variable {R : Coupling}

/-- What is left of a chain is coupled if its operands are. -/
theorem coupled_chainRest {operator : Char → Option Operator}
    (hop : ∀ c, isLayout c → operator c = none) {operand : Rule n} {operand' : Rule n'}
    (ho : ∀ t t' h h', R.place t t' → Coupled R id (operand t h) (operand' t' h'))
    (hl : R.level l l') {left : Expr} {t t' : Cursor} {h : t.left < n} {h' : t'.left < n'}
    (ht : R.place t t') : Coupled R id (chainRest l operator operand left t h)
      (chainRest l' operator operand' left t' h') := by
  have := l.left_skip_le t
  rw [chainRest.eq_def l operator operand, chainRest.eq_def l' operator operand']
  have hskip := R.skip hl ht
  refine (Coupling.sign hskip hop).branch (fun op u u' hu hu' hplace => ?_) ?_
  · refine (ho u u' _ _ hplace).branch (fun right v v' hv hv' hright => ?_)
      (coupled_accept ht rfl)
    exact coupled_chainRest hop ho hl hright
  · exact (coupled_accept ht rfl).since (.cons (R.missed _ hskip) .nil)
termination_by t.left

/-- So is a chain. -/
theorem coupled_chain {operator : Char → Option Operator}
    (hop : ∀ c, isLayout c → operator c = none) {operand : Rule s.left} {operand' : Rule s'.left}
    (ho : ∀ t t' h h', R.place t t' → Coupled R id (operand t h) (operand' t' h'))
    (hl : R.level l l') (hs : R.place s s') :
    Coupled R id (chain l operator s operand) (chain l' operator s' operand') :=
  (ho s s' _ _ hs).andThen fun _ _ _ _ _ ht => coupled_chainRest hop ho hl ht

theorem coupled_close {α α' : Type} {f : α → α'} {v : α} {h : s.left ≤ n} {h' : s'.left ≤ n'}
    (hs : R.place s s') : Coupled R f (close v s h) (close (f v) s' h') :=
  (Coupling.char hs rfl).branch (fun _ _ _ _ _ ht => coupled_accept ht rfl)
    (coupled_unexpected hs)

/-- The rules for the inside of groups and calls are coupled. -/
def InnerCoupled (R : Coupling) (inner : Inner n) (inner' : Inner n') : Prop :=
  ∀ l l' t t' h h', R.level l l' → R.place t t' → Coupled R id (inner l t h) (inner' l' t' h')

/-- Arguments are coupled if what is read inside the parentheses is. -/
theorem coupled_arguments {inner : Inner n} {inner' : Inner n'}
    (hi : InnerCoupled R inner inner') (hl : R.level l l') {function : String}
    {before : List Expr} {s s' : Cursor} {h : s.left < n} {h' : s'.left < n'}
    (hs : R.place s s') : Coupled R id (arguments l function inner before s h)
      (arguments l' function inner' before s' h') := by
  rw [arguments.eq_def l function inner, arguments.eq_def l' function inner']
  refine (hi l l' s s' h h' hl hs).branch (fun arg t t' ht ht' hplace => ?_)
    (coupled_close (f := id) hs)
  have := l.left_skip_le t
  have hskip := R.skip hl hplace
  refine (Coupling.char hskip rfl).branch (fun _ v v' hv hv' hcomma => ?_) ?_
  · have := l.left_skip_le v
    exact coupled_arguments hi hl (R.skip hl hcomma)
  · exact coupled_arguments hi hl hskip
termination_by s.left

section Atoms
variable {inner : Inner s.left} {inner' : Inner s'.left} (hi : InnerCoupled R inner inner')
  (hl : R.level l l') (hs : R.place s s')
include hi hl hs

theorem coupled_call : Coupled R id (call l s inner) (call l' s' inner') := by
  refine (Coupling.identifier hs).andThen fun function t t' ht ht' hname => ?_
  have hskip := R.skip hl hname
  refine (Coupling.char hskip rfl).andThen fun _ v v' hv hv' hopen => ?_
  have hl' := R.inGroup hl
  exact coupled_enter hl hskip fun _ => coupled_arguments hi hl' (R.skip hl' hopen)

theorem coupled_group : Coupled R id (group l s inner) (group l' s' inner') := by
  refine (Coupling.char hs rfl).andThen fun _ t t' ht ht' hopen => ?_
  have hl' := R.inGroup hl
  refine coupled_enter hl hs fun _ => ?_
  refine (hi _ _ t t' ht ht' hl' hopen).andThen fun e u u' hu hu' hplace => ?_
  exact coupled_close (f := id) (R.skip hl' hplace)

theorem coupled_alternatives :
    Coupled R id (alternatives l s inner) (alternatives l' s' inner') := by
  have hnumber := (Coupling.number hs).map (g := id) (k := Expr.number) fun _ => rfl
  have hident := (Coupling.identifier hs).map (g := id) (k := Expr.ident) fun _ => rfl
  exact hnumber.orElse ((coupled_call hi hl hs).orElse (hident.orElse
    ((coupled_group hi hl hs).orElse (coupled_miss hs))))

end Atoms

/-- A factor is coupled if the expressions inside it are. -/
theorem coupled_factor (hi : InnerCoupled R (expressionWithin s.left) (expressionWithin s'.left))
    (hl : R.level l l') (hs : R.place s s') :
    Coupled R id (factor l s (expressionWithin s.left))
      (factor l' s' (expressionWithin s'.left)) := by
  have hatom : Coupled R id (atom l (l.skip s)) (atom l' (l'.skip s')) := by
    refine coupled_alternatives (fun m m' t t' h h' => hi m m' t t' ?_ ?_) hl (R.skip hl hs)
    · exact Nat.lt_of_lt_of_le h (l.left_skip_le s)
    · exact Nat.lt_of_lt_of_le h' (l'.left_skip_le s')
  exact hatom.andThen fun e t t' ht ht' hplace => coupled_accept (R.skip hl hplace) rfl

/-- **Expressions at corresponding places are coupled.** -/
theorem coupled_expression {l l' : Level} {s s' : Cursor} (hl : R.level l l')
    (hs : R.place s s') : Coupled R id (expression l s) (expression l' s') := by
  rw [expression_eq, expression_eq]
  refine coupled_within hl fun _ => ?_
  -- no operator is a blank
  have hadditive : ∀ c, isLayout c → Operator.additive? c = none := fun c hc =>
    of_isLayout (P := fun c => Operator.additive? c = none) hc rfl rfl rfl rfl
  have hmultiplicative : ∀ c, isLayout c → Operator.multiplicative? c = none := fun c hc =>
    of_isLayout (P := fun c => Operator.multiplicative? c = none) hc rfl rfl rfl rfl
  refine coupled_chain hadditive (fun t t' ht ht' hplace => ?_) hl hs
  refine coupled_chain hmultiplicative (fun u u' hu hu' hplace => ?_) hl hplace
  exact coupled_factor (fun m m' v v' hv hv' => coupled_expression) hl hplace
termination_by s.left

end Expressions

/-! ## Commands -/

/-- The argument at a place, with commands inside. -/
def argumentAt (l : Level) (s : Cursor) : Attempt Arg s.left :=
  (block l s (commandsWithin s.left)).orElse fun _ => word s

/-- The places at which an invocation that begins at `s` looks for an argument. -/
inductive ArgumentPlace (l : Level) (s : Cursor) : Cursor → Prop
  | first : ArgumentPlace l s s
  | next {t u : Cursor} {arg : Arg} : ArgumentPlace l s t → (argumentAt l t).Gives arg u →
    ArgumentPlace l s (u.skip isSpace)

/-- Reading commands at `s` looks for a quoted text at `u`: as the value of a property, in a block,
or in a later command.  Whether the block or the property comes to anything does not matter. -/
inductive Tries : Level → Cursor → Cursor → Prop
  | value {l : Level} {s u : Cursor} {name : String} :
    (definition l (s.skip isLayout)).Fails →
    (head [':'] .colon (s.skip isLayout)).Gives name u → Tries l s u
  | block {l : Level} {s t v u : Cursor} :
    (definition l (s.skip isLayout)).Fails → (property l (s.skip isLayout)).Fails →
    ArgumentPlace l (s.skip isLayout) t → (char '{' t).Gives () v → l.isFull = false →
    Tries l.inBlock v u → Tries l s u
  | later {l : Level} {s t u : Cursor} {c : Command} :
    (command l s (commandsWithin s.left)).Gives c t → Tries l t u → Tries l s u

section Commands
variable {D : CommandCoupling}

/-- Heads of assignments are coupled. -/
theorem coupled_head {word : List Char} {expected : Expected}
    (hw : word.any isLayout = false) (hs : D.place s s') :
    Coupled D.toCoupling id (head word expected s) (head word expected s') := by
  refine (Coupling.identifier hs).branch (fun name t t' ht ht' hname => ?_) (coupled_miss hs)
  have hskip := D.skipSpace hname
  have hafter := Coupling.after? hskip fun c hc =>
    Bool.eq_false_iff.mpr (List.any_eq_false.mp hw c hc)
  -- the sign behind the name is found at both places or at neither
  split
  · rename_i hnone
    split
    · exact coupled_miss hskip
    · rename_i hsome
      rw [hnone, hsome] at hafter
      cases hafter
  · rename_i v hv
    split
    · rename_i hnone
      rw [hv, hnone] at hafter
      cases hafter
    · rename_i v' hv'
      rw [hv, hv'] at hafter
      cases hafter with
      | some hplace => exact coupled_accept (D.skipSpace hplace) rfl

/-- So are definitions. -/
theorem coupled_definition (hl : D.level l l') (hs : D.place s s') :
    Coupled D.toCoupling (Command.mapTexts D.text) (definition l s) (definition l' s') := by
  refine (coupled_head (by decide) hs).andThen fun name t t' ht ht' hhead => ?_
  exact (coupled_expression (D.inAssignment hl) hhead).andThen fun e u u' hu hu' hplace =>
    coupled_accept hplace rfl

/-- So are properties, if the strings that may follow are. -/
theorem coupled_property (hl : D.level l l') (hs : D.place s s')
    (hq : ∀ name t t', (head [':'] .colon s).Gives name t → D.place t t' →
      Coupled D.toCoupling D.text (quotedString t) (quotedString t')) :
    Coupled D.toCoupling (Command.mapTexts D.text) (property l s) (property l' s') := by
  refine (coupled_head (by decide) hs).andThen_of_gives fun name t t' ht ht' hgives hhead => ?_
  refine (hq name t t' hgives hhead).branch (fun text u u' hu hu' hquote => ?_) ?_
  · exact coupled_accept (D.skipSpace hquote) rfl
  · exact (coupled_expression (D.inAssignment hl) hhead).andThen fun e u u' hu hu' hplace =>
      coupled_accept hplace rfl

theorem coupled_word (hs : D.place s s') :
    Coupled D.toCoupling (Arg.mapTexts D.text) (word s) (word s') :=
  (Coupling.identifier hs).branch (fun _ _ _ _ _ ht => coupled_accept ht rfl) (coupled_miss hs)

/-- Commands in a block at `s` are coupled, if the block may be opened. -/
def BodyCoupled (D : CommandCoupling) (l l' : Level) (s : Cursor) : Prop :=
  ∀ t t', (char '{' s).Gives () t → l.isFull = false → D.place t t' →
    Coupled D.toCoupling (Command.mapTextsAll D.text) (commands l.inBlock t)
      (commands l'.inBlock t')

/-- Blocks are coupled if what is inside them is. -/
theorem coupled_block (hb : BodyCoupled D l l' s) (hl : D.level l l') (hs : D.place s s') :
    Coupled D.toCoupling (Arg.mapTexts D.text) (block l s (commandsWithin s.left))
      (block l' s' (commandsWithin s'.left)) := by
  refine (Coupling.char hs rfl).branch_of_outcome (fun _ t t' ht ht' hbrace hopen => ?_)
    fun _ => coupled_miss hs
  refine coupled_enter hl hs fun hfull => ?_
  refine (hb t t' hbrace hfull hopen).andThen fun cs u u' hu hu' hplace => ?_
  have hskip := D.skipLayout hplace
  refine (Coupling.char hskip rfl).branch (fun _ w w' hw hw' hclose => ?_) ?_
  · exact coupled_accept hclose rfl
  · -- the text ends before the brace on both sides or on neither
    simp only [Coupling.left_eq_zero hskip]
    split
    · exact coupled_fault hs
    · exact coupled_miss hskip

theorem coupled_argumentAt (hb : BodyCoupled D l l' s) (hl : D.level l l') (hs : D.place s s') :
    Coupled D.toCoupling (Arg.mapTexts D.text) (argumentAt l s) (argumentAt l' s') :=
  (coupled_block hb hl hs).orElse (coupled_word hs)

/-- Lists of arguments are coupled if the blocks at their places are. -/
theorem coupled_args {r : Cursor} (hb : ∀ t, ArgumentPlace l r t → BodyCoupled D l l' t)
    (hl : D.level l l') {before before' : List Arg}
    (hbefore : before' = Arg.mapTextsAll D.text before) {s s' : Cursor} {h : s.left ≤ n}
    {h' : s'.left ≤ n'} (hplace : ArgumentPlace l r s) (hs : D.place s s') :
    Coupled D.toCoupling (Arg.mapTextsAll D.text) (args l (commandsWithin n) before s h)
      (args l' (commandsWithin n') before' s' h') := by
  rw [args.eq_def l, args.eq_def l']
  refine (coupled_argumentAt (hb s hplace) hl hs).branch_of_outcome
    (fun arg t t' ht ht' hgives hnext => ?_) fun _ => coupled_accept hs hbefore
  have := Cursor.left_skip_le (p := isSpace) (s := t)
  refine coupled_args hb hl ?_ (hplace.next hgives) (D.skipSpace hnext)
  rw [hbefore, Arg.mapTextsAll_append]
  rfl
termination_by s.left

theorem coupled_invocation (hb : ∀ t, ArgumentPlace l s t → BodyCoupled D l l' t)
    (hl : D.level l l') (hs : D.place s s') :
    Coupled D.toCoupling (Command.mapTexts D.text) (invocation l s (commandsWithin s.left))
      (invocation l' s' (commandsWithin s'.left)) := by
  refine (coupled_argumentAt (hb s .first) hl hs).andThen_of_gives
    fun arg t t' ht ht' hgives hplace => ?_
  exact Coupled.andThen (coupled_args hb hl rfl (.next .first hgives) (D.skipSpace hplace))
    fun as u u' hu hu' hrest => coupled_accept hrest rfl

/-- The place of an argument is no further back than that of its invocation. -/
theorem ArgumentPlace.left_le (h : ArgumentPlace l s t) : t.left ≤ s.left := by
  induction h with
  | first => exact Nat.le_refl _
  | next _ hgives ih =>
    exact Nat.le_trans Cursor.left_skip_le (Nat.le_trans (Nat.le_of_lt hgives.progress) ih)

/-- Readings of commands are coupled if the quoted texts that are tried are. -/
theorem coupled_commands_of_tries {l l' : Level} {s s' : Cursor} (hl : D.level l l')
    (hs : D.place s s') (hq : ∀ u u', Tries l s u → D.place u u' →
      Coupled D.toCoupling D.text (quotedString u) (quotedString u')) :
    Coupled D.toCoupling (Command.mapTextsAll D.text) (commands l s) (commands l' s') := by
  rw [commands_eq, commands_eq]
  have hskip := D.skipLayout hs
  have hcommand : Coupled D.toCoupling (Command.mapTexts D.text)
      (command l s (commandsWithin s.left)) (command l' s' (commandsWithin s'.left)) := by
    rw [command, command]
    refine coupled_within hl fun _ => ?_
    refine Coupled.widen ?_ Cursor.left_skip_le Cursor.left_skip_le
    refine (coupled_definition hl hskip).branch_of_outcome
      (fun _ _ _ _ _ _ hplace => coupled_accept hplace rfl) fun hdefinition => ?_
    refine (coupled_property hl hskip fun name t t' hhead hplace =>
      hq t t' (.value hdefinition hhead) hplace).branch_of_outcome
      (fun _ _ _ _ _ _ hplace => coupled_accept hplace rfl) fun hproperty => ?_
    refine coupled_invocation (fun t ht v v' hbrace hfull hplace => ?_) hl hskip
    have := hbrace.progress
    have := ht.left_le
    have := Cursor.left_skip_le (p := isLayout) (s := s)
    exact coupled_commands_of_tries (D.inBlock hl) hplace fun u u' htries =>
      hq u u' (.block hdefinition hproperty ht hbrace hfull htries)
  refine hcommand.branch_of_outcome (fun first t t' ht ht' hgives hplace => ?_)
    fun _ => coupled_accept hs rfl
  have hrest := coupled_commands_of_tries hl hplace fun u u' htries =>
    hq u u' (.later hgives htries)
  exact hrest.andThen fun _ _ _ _ _ hrest => coupled_accept hrest rfl
termination_by s.left

end Commands

/-- **Commands at corresponding places are coupled.** -/
theorem coupled_commands {D : DocumentCoupling} {l l' : Level} {s s' : Cursor}
    (hl : D.level l l') (hs : D.place s s') :
    Coupled D.toCoupling (Command.mapTextsAll D.text) (commands l s) (commands l' s') :=
  coupled_commands_of_tries hl hs fun _ _ _ => D.quotedString

end Grammar
end Planetarium
