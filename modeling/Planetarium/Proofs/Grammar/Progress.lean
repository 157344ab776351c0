import Planetarium.Proofs.Grammar.ExpressionComplete
import Planetarium.Proofs.Grammar.Located
import Planetarium.Proofs.Parsing.Progress

/-!
# Every rule goes forward

A rule of the grammar uses the rule for what its brackets hold only behind the bracket that opens
them, and a loop goes on behind what it has read.  So a rule depends on another one at later places
only, which is shown rule by rule: two stand-ins that agree at the places of the text behind an
offset (`InnerAgrees`, `BodyAgrees`) make no difference to the rule.

Alternatives begin again at the place where an earlier one was given up.  That needs no measure of
its own, since what they read is behind their first character all the same.
-/
namespace Planetarium.Grammar
open Parsing Text Attempt

variable {text : List Char} {n k : Nat} {l : Level} {s : Cursor}

/-! ## Expressions -/

/-- The rules for the inside of groups and calls agree at the places of the text behind an
offset. -/
def InnerAgrees (text : List Char) (k : Nat) (inner inner' : Inner n) : Prop :=
  ∀ (l : Level) (t : Cursor) h, t.Within text → k < t.offset → inner l t h = inner' l t h

section Chains
variable {operator : Char → Option Operator}

/-- What is left of a chain only depends on its operands further on. -/
theorem chainRest_congr {operand operand' : Rule n}
    (ho : ∀ t h, t.Within text → Located text (operand' t h))
    (h : ∀ t ht, t.Within text → k ≤ t.offset → operand t ht = operand' t ht) {left : Expr}
    {t : Cursor} {ht : t.left < n} (hk : k ≤ t.offset) (hwithin : t.Within text) :
    chainRest l operator operand left t ht = chainRest l operator operand' left t ht := by
  rw [chainRest.eq_def l operator operand, chainRest.eq_def l operator operand']
  have hskip : (l.skip t).Within text := hwithin.skip
  have hle := l.offset_le_skip t
  refine branch_congr (fun op u hu => ?_) fun _ => rfl
  obtain ⟨hlt, hsign⟩ := (located_sign hskip).advances hskip _ _ hu
  rw [h u _ hsign (by omega)]
  refine branch_congr (fun right v hv => ?_) fun _ => rfl
  obtain ⟨hlt', hoperand⟩ := (ho u _ hsign).advances hsign _ _ hv
  have := hv.progress
  have := hu.progress
  have := l.left_skip_le t
  exact chainRest_congr ho h (by omega) hoperand
termination_by t.left

/-- So does a chain. -/
theorem chain_congr {operand operand' : Rule s.left}
    (ho : ∀ t h, t.Within text → Located text (operand' t h))
    (h : ∀ t ht, t.Within text → s.offset ≤ t.offset → operand t ht = operand' t ht)
    (hs : s.Within text) : chain l operator s operand = chain l operator s operand' := by
  unfold chain
  rw [h s _ hs (Nat.le_refl _)]
  refine andThen_congr fun first t ht => ?_
  obtain ⟨hlt, hfirst⟩ := (ho s _ hs).advances hs _ _ ht
  exact chainRest_congr ho h (Nat.le_of_lt hlt) hfirst

end Chains

/-- Arguments only depend on the expressions behind their parenthesis. -/
theorem arguments_congr {inner inner' : Inner n} (hi : InnerLocated text inner')
    (h : InnerAgrees text k inner inner') {function : String} {before : List Expr} {s : Cursor}
    {hn : s.left < n} (hk : k < s.offset) (hs : s.Within text) :
    arguments l function inner before s hn = arguments l function inner' before s hn := by
  rw [arguments.eq_def l function inner, arguments.eq_def l function inner', h l s hn hs hk]
  refine branch_congr (fun arg t ht => ?_) fun _ => rfl
  obtain ⟨hlt, harg⟩ := (hi l s hn hs).advances hs _ _ ht
  have := ht.progress
  have := l.left_skip_le t
  have hle := l.offset_le_skip t
  have hskip : (l.skip t).Within text := harg.skip
  refine branch_congr (fun _ u hu => ?_) fun _ => ?_
  · obtain ⟨hlt', hcomma⟩ := (located_char hskip).advances hskip _ _ hu
    have := hu.progress
    have := l.left_skip_le u
    have hle' := l.offset_le_skip u
    exact arguments_congr hi h (by omega) hcomma.skip
  · exact arguments_congr hi h (by omega) hskip
termination_by s.left

section Atoms
variable {inner inner' : Inner s.left} (hs : s.Within text)
include hs

/-- A call uses the rule for its arguments behind its opening parenthesis. -/
theorem call_congr (hi : InnerLocated text inner') (h : InnerAgrees text k inner inner')
    (hk : ∀ name t, (identifier s).Gives name t → k ≤ (l.skip t).offset) :
    call l s inner = call l s inner' := by
  refine andThen_congr fun name t ht => ?_
  have hskip : (l.skip t).Within text := ((located_identifier hs).within ht).skip
  refine andThen_congr fun _ u hu => ?_
  obtain ⟨hlt, hopen⟩ := (located_char hskip).advances hskip _ _ hu
  have hstart : (l.inGroup.skip u).Within text := hopen.skip
  have hle := l.inGroup.offset_le_skip u
  have hfirst := hk name t ht
  exact enter_congr (arguments_congr hi h (by omega) hstart)

/-- A group uses the rule for its inside behind its opening parenthesis. -/
theorem group_congr (h : InnerAgrees text s.offset inner inner') :
    group l s inner = group l s inner' := by
  refine andThen_congr fun _ t ht => ?_
  obtain ⟨hlt, hopen⟩ := (located_char hs).advances hs _ _ ht
  refine enter_congr ?_
  simp only [h l.inGroup t _ hopen hlt]

theorem alternatives_congr (hi : InnerLocated text inner')
    (h : InnerAgrees text s.offset inner inner') :
    alternatives l s inner = alternatives l s inner' := by
  have hcall : call l s inner = call l s inner' := by
    refine call_congr hs hi h fun name t ht => ?_
    have hlt := ((located_identifier hs).advances hs _ _ ht).1
    have hle := l.offset_le_skip t
    omega
  unfold alternatives
  rw [hcall, group_congr hs h]

/-- A factor only depends on the expressions inside its brackets. -/
theorem factor_congr (hi : InnerLocated text inner') (h : InnerAgrees text s.offset inner inner') :
    factor l s inner = factor l s inner' := by
  have hskip : (l.skip s).Within text := hs.skip
  have hle := l.offset_le_skip s
  refine congrArg (Attempt.andThen · _) (alternatives_congr hskip ?_ ?_)
  · exact fun l' t _ => hi l' t _
  · exact fun l' t _ ht hlt => h l' t _ ht (by omega)

end Atoms

theorem located_operandOfTerm {t : Cursor} (h : t.left ≤ n) (ht : t.Within text) :
    Located text (operandOfTerm l n t h) :=
  located_factor (fun _ _ _ => located_expression) ht

theorem located_product {t : Cursor} (ht : t.Within text) : Located text (product l t) :=
  located_chain (fun _ h => located_operandOfTerm h) ht

/-- One round of a chain, with `rest` for what comes behind the next operand. -/
def chainRound (l : Level) (operator : Char → Option Operator) (operand : Rule n)
    (rest : Expr × { t : Cursor // t.left < n } → Attempt Expr n)
    (i : Expr × { t : Cursor // t.left < n }) : Attempt Expr n :=
  have hn := i.2.2
  have hs := l.left_skip_le i.2
  (sign operator (l.skip i.2)).branch
    (fun op u hu =>
      (operand u (by omega)).branch
        (fun right v hv => rest (.binary op i.1 right, ⟨v, by omega⟩))
        (fun _ => .accept i.1 i.2 i.2.2))
    (fun _ => (Attempt.accept i.1 i.2 i.2.2).since [.missed (l.skip i.2).offset .operator])

/-- A chain recurs at the operand behind its operator. -/
theorem recurs_chain {operator : Char → Option Operator} {operand : Rule n}
    (ho : ∀ t h, t.Within text → Located text (operand t h)) :
    Recurs text (fun i => i.2.1) (chainRound l operator operand)
      fun i => chainRest l operator operand i.1 i.2 i.2.2 := by
  rintro ⟨left, t, ht⟩ rest hwithin hrest
  have hskip : (l.skip t).Within text := hwithin.skip
  have hle := l.offset_le_skip t
  change chainRound l operator operand rest (left, ⟨t, ht⟩) =
    chainRest l operator operand left t ht
  rw [chainRound, chainRest]
  refine branch_congr (fun op u hu => ?_) fun _ => rfl
  obtain ⟨hlt, hsign⟩ := (located_sign hskip).advances hskip _ _ hu
  refine branch_congr (fun right v hv => ?_) fun _ => rfl
  obtain ⟨hlt', hoperand⟩ := (ho u _ hsign).advances hsign _ _ hv
  exact hrest (.binary op left right, ⟨v, _⟩) hoperand (by simp only; omega)

/-- One round over the arguments of a call, with `rest` for what comes behind the next one. -/
def argumentsRound (l : Level) (function : String) (inner : Inner n)
    (rest : List Expr × { s : Cursor // s.left < n } → Attempt Expr n)
    (i : List Expr × { s : Cursor // s.left < n }) : Attempt Expr n :=
  (inner l i.2 i.2.2).branch
    (fun arg t ht =>
      have hs := i.2.2
      have hu := l.left_skip_le t
      (char ',' (l.skip t)).branch
        (fun _ v hv =>
          have hw := l.left_skip_le v
          rest (i.1 ++ [arg], ⟨l.skip v, by omega⟩))
        (fun _ => rest (i.1 ++ [arg], ⟨l.skip t, by omega⟩)))
    (fun _ => close (.call function i.1) i.2 (Nat.le_of_lt i.2.2))

/-- Arguments recur at the next one. -/
theorem recurs_arguments {function : String} {inner : Inner n} (hi : InnerLocated text inner) :
    Recurs text (fun i => i.2.1) (argumentsRound l function inner)
      fun i => arguments l function inner i.1 i.2 i.2.2 := by
  rintro ⟨before, s, hn⟩ rest hs hrest
  change argumentsRound l function inner rest (before, ⟨s, hn⟩) =
    arguments l function inner before s hn
  rw [argumentsRound, arguments]
  refine branch_congr (fun arg t ht => ?_) fun _ => rfl
  obtain ⟨hlt, harg⟩ := (hi l s hn hs).advances hs _ _ ht
  have hskip : (l.skip t).Within text := harg.skip
  have hle := l.offset_le_skip t
  refine branch_congr (fun _ u hu => ?_) fun _ => ?_
  · obtain ⟨hlt', hcomma⟩ := (located_char hskip).advances hskip _ _ hu
    have hle' := l.offset_le_skip u
    exact hrest (before ++ [arg], ⟨l.skip u, _⟩) hcomma.skip (by simp only; omega)
  · exact hrest (before ++ [arg], ⟨l.skip t, _⟩) hskip (by simp only; omega)

/-- An expression, with `rest` for the expressions in its groups and calls. -/
def expressionRound (rest : (i : Level × Cursor) → Attempt Expr i.2.left) (i : Level × Cursor) :
    Attempt Expr i.2.left :=
  i.1.within Level.expressionFrames fun _ =>
    chain i.1 Operator.additive? i.2 fun t _ =>
      chain i.1 Operator.multiplicative? t fun u _ => factor i.1 u fun inner v _ => rest (inner, v)

/-- An expression recurs at those inside its brackets. -/
theorem recurs_expression : Recurs text (fun i => i.2) expressionRound
    fun i => expression i.1 i.2 := by
  rintro ⟨l, s⟩ rest hs hrest
  simp only [expressionRound, expression_eq]
  refine within_congr ?_
  refine chain_congr (fun t _ => located_product) (fun t _ ht hst => ?_) hs
  refine chain_congr (fun u h => located_operandOfTerm h) (fun u _ hu htu => ?_) ht
  refine factor_congr hu (fun _ _ _ => located_expression) fun l' v _ hv huv => ?_
  exact hrest (l', v) hv (by simp only; omega)

/-! ## Commands -/

/-- The rules for the inside of blocks agree at the places of the text behind an offset. -/
def BodyAgrees (text : List Char) (k : Nat) (body body' : Body n) : Prop :=
  ∀ (l : Level) (t : Cursor) h, t.Within text → k < t.offset → body l t h = body' l t h

/-- A block uses the rule for its commands behind its opening brace. -/
theorem block_congr {body body' : Body s.left} (h : BodyAgrees text s.offset body body')
    (hs : s.Within text) : block l s body = block l s body' := by
  refine branch_congr (fun _ t ht => ?_) fun _ => rfl
  obtain ⟨hlt, hopen⟩ := (located_char hs).advances hs _ _ ht
  refine enter_congr ?_
  simp only [h l.inBlock t _ hopen hlt]

/-- Arguments only depend on the blocks further on. -/
theorem args_congr {body body' : Body n} (hb : BodyLocated text body')
    (h : BodyAgrees text k body body') {before : List Arg} {s : Cursor} {hn : s.left ≤ n}
    (hk : k ≤ s.offset) (hs : s.Within text) :
    args l body before s hn = args l body' before s hn := by
  rw [args.eq_def l body, args.eq_def l body']
  have hblock : block l s (fun l t ht => body l t (Nat.lt_of_lt_of_le ht hn)) =
      block l s fun l t ht => body' l t (Nat.lt_of_lt_of_le ht hn) :=
    block_congr (fun l' t _ ht hlt => h l' t _ ht (by omega)) hs
  rw [hblock]
  refine branch_congr (fun arg t ht => ?_) fun _ => rfl
  obtain ⟨hlt, harg⟩ := (located_argument (fun l' t _ => hb l' t _) hs).advances hs _ _ ht
  have := ht.progress
  have := Cursor.left_skip_le (p := isSpace) (s := t)
  have hle := t.offset_le_skip isSpace
  exact args_congr hb h (by omega) harg.skip
termination_by s.left

section Commands
variable {body body' : Body s.left} (hs : s.Within text) (hb : BodyLocated text body')
  (h : BodyAgrees text s.offset body body')
include hs hb h

theorem invocation_congr : invocation l s body = invocation l s body' := by
  unfold invocation
  rw [block_congr h hs]
  refine andThen_congr fun arg t ht => ?_
  obtain ⟨hlt, harg⟩ := (located_argument hb hs).advances hs _ _ ht
  have hle := t.offset_le_skip isSpace
  refine congrArg (Attempt.andThen · _) (args_congr (k := s.offset) ?_ ?_ (by omega) harg.skip)
  · exact fun l' u _ => hb l' u _
  · exact fun l' u _ hu hlt => h l' u _ hu hlt

theorem command_congr : command l s body = command l s body' := by
  have hskip : (s.skip isLayout).Within text := hs.skip
  have hle := s.offset_le_skip isLayout
  rw [command, command]
  refine within_congr (congrArg (Attempt.widen Cursor.left_skip_le) ?_)
  refine branch_congr (fun _ _ _ => rfl) fun _ => branch_congr (fun _ _ _ => rfl) fun _ => ?_
  refine invocation_congr hskip (fun l' t _ => hb l' t _) fun l' t _ ht hlt => ?_
  exact h l' t _ ht (by omega)

end Commands

/-- One round over the arguments of an invocation, with `rest` for what comes behind the next
one. -/
def argsRound (l : Level) (body : Body n)
    (rest : List Arg × { s : Cursor // s.left ≤ n } → Attempt (List Arg) (n + 1))
    (i : List Arg × { s : Cursor // s.left ≤ n }) : Attempt (List Arg) (n + 1) :=
  have hs := i.2.2
  ((block l i.2 fun l t ht => body l t (by omega)).orElse fun _ => word i.2).branch
    (fun arg t ht =>
      have hu := Cursor.left_skip_le (p := isSpace) (s := t)
      rest (i.1 ++ [arg], ⟨t.skip isSpace, by omega⟩))
    (fun _ => .accept i.1 i.2 (Nat.lt_succ_of_le hs))

/-- The arguments of an invocation recur at the next one. -/
theorem recurs_args {body : Body n} (hb : BodyLocated text body) :
    Recurs text (fun i => i.2.1) (argsRound l body) fun i => args l body i.1 i.2 i.2.2 := by
  rintro ⟨before, s, hn⟩ rest hs hrest
  change argsRound l body rest (before, ⟨s, hn⟩) = args l body before s hn
  rw [argsRound, args]
  refine branch_congr (fun arg t ht => ?_) fun _ => rfl
  obtain ⟨hlt, harg⟩ := (located_argument (fun l' t _ => hb l' t _) hs).advances hs _ _ ht
  have hle := t.offset_le_skip isSpace
  exact hrest (before ++ [arg], ⟨t.skip isSpace, _⟩) harg.skip (Nat.lt_of_lt_of_le hlt hle)

/-- A command, with `rest` for the commands in its blocks and for those after it. -/
def commandsRound (rest : (i : Level × Cursor) → Attempt (List Command) (i.2.left + 1))
    (i : Level × Cursor) : Attempt (List Command) (i.2.left + 1) :=
  (command i.1 i.2 fun inner t _ => rest (inner, t)).branch
    (fun first t ht =>
      (rest (i.1, t)).andThen fun rest u hu => .accept (first :: rest) u (by simp only at *; omega))
    (fun _ => .accept [] i.2 (Nat.lt_succ_self _))

/-- Commands recur at the next one and inside blocks. -/
theorem recurs_commands : Recurs text (fun i => i.2) commandsRound
    fun i => commands i.1 i.2 := by
  rintro ⟨l, s⟩ rest hs hrest
  have hbody : BodyLocated text (commandsWithin s.left) := fun _ _ _ => located_commands
  change commandsRound rest (l, s) = commands l s
  rw [commandsRound, commands_eq]
  rw [command_congr hs hbody fun l' t _ ht hlt => hrest (l', t) ht hlt]
  refine branch_congr (fun first t ht => ?_) fun _ => rfl
  obtain ⟨hlt, hfirst⟩ := (located_command hbody hs).advances hs _ _ ht
  rw [hrest (l, t) hfirst hlt]

/-! ## Whole texts -/

/-- Every rule that matches at a place of the text ends at a later one. -/
structure RulesAdvance (text : List Char) (l : Level) (s : Cursor) : Prop where
  expression : Advances text s (Grammar.expression l s)
  term : Advances text s (product l s)
  factor : Advances text s (Grammar.factor l s (expressionWithin s.left))
  number : Advances text s (Parsing.number s)
  call : Advances text s (Grammar.call l s (expressionWithin s.left))
  identifier : Advances text s (Parsing.identifier s)
  group : Advances text s (Grammar.group l s (expressionWithin s.left))
  command : Advances text s (Grammar.command l s (commandsWithin s.left))
  definition : Advances text s (Grammar.definition l s)
  property : Advances text s (Grammar.property l s)
  invocation : Advances text s (Grammar.invocation l s (commandsWithin s.left))
  block : Advances text s (Grammar.block l s (commandsWithin s.left))
  word : Advances text s (Grammar.word s)

/-- Every rule goes forward. -/
theorem rulesAdvance (l : Level) (hs : s.Within text) : RulesAdvance text l s := by
  have hinner : InnerLocated text (expressionWithin s.left) := fun _ _ _ => located_expression
  have hbody : BodyLocated text (commandsWithin s.left) := fun _ _ _ => located_commands
  exact {
    expression := (located_expression hs).advances hs
    term := (located_product hs).advances hs
    factor := (located_factor hinner hs).advances hs
    number := (located_number hs).advances hs
    call := (located_call hinner hs).advances hs
    identifier := (located_identifier hs).advances hs
    group := (located_group hinner hs).advances hs
    command := (located_command hbody hs).advances hs
    definition := (located_definition hs).advances hs
    property := (located_property hs).advances hs
    invocation := (located_invocation hbody hs).advances hs
    block := (located_block hbody hs).advances hs
    word := (located_word hs).advances hs }

/-- What is between brackets is read behind the bracket that opens it: before that, the rule for it
might be anything. -/
structure BracketsAdvance (text : List Char) (l : Level) (s : Cursor) : Prop where
  group : ∀ inner, InnerAgrees text s.offset inner (expressionWithin s.left) →
    Grammar.group l s inner = Grammar.group l s (expressionWithin s.left)
  call : ∀ inner name t, (identifier s).Gives name t →
    InnerAgrees text (l.skip t).offset inner (expressionWithin s.left) →
    Grammar.call l s inner = Grammar.call l s (expressionWithin s.left)
  block : ∀ body, BodyAgrees text s.offset body (commandsWithin s.left) →
    Grammar.block l s body = Grammar.block l s (commandsWithin s.left)

/-- Every bracket calls only what stands behind it. -/
theorem bracketsAdvance (l : Level) (hs : s.Within text) : BracketsAdvance text l s where
  group _ h := group_congr hs h
  call inner name t hname h := by
    refine call_congr hs (fun _ _ _ => located_expression) h fun name' t' hname' => ?_
    obtain ⟨-, rfl⟩ := hname.unique hname'
    exact Nat.le_refl _
  block _ h := block_congr h hs

/-- Every loop goes on at later places of the text and ends, and so do expressions and commands with
what is inside of them. -/
structure LoopsUnwind (text : List Char) : Prop where
  sums : ∀ l n, Unwinds text (fun i => i.2.1)
    (chainRound l Operator.additive? (operandOfSum l n))
    fun i => chainRest l Operator.additive? (operandOfSum l n) i.1 i.2 i.2.2
  products : ∀ l n, Unwinds text (fun i => i.2.1)
    (chainRound l Operator.multiplicative? (operandOfTerm l n))
    fun i => chainRest l Operator.multiplicative? (operandOfTerm l n) i.1 i.2 i.2.2
  arguments : ∀ l n function, Unwinds text (fun i => i.2.1)
    (argumentsRound l function (expressionWithin n))
    fun i => Grammar.arguments l function (expressionWithin n) i.1 i.2 i.2.2
  args : ∀ l n, Unwinds text (fun i => i.2.1) (argsRound l (commandsWithin n))
    fun i => Grammar.args l (commandsWithin n) i.1 i.2 i.2.2
  commands : Unwinds text (fun i => i.2) commandsRound fun i => Grammar.commands i.1 i.2
  expression : Unwinds text (fun i => i.2) expressionRound fun i => Grammar.expression i.1 i.2

/-- Every loop unwinds after as many rounds as there are characters. -/
theorem loopsUnwind (text : List Char) : LoopsUnwind text where
  sums _ _ := (recurs_chain fun _ _ => located_product).unwinds
  products _ _ := (recurs_chain fun _ h => located_operandOfTerm h).unwinds
  arguments _ _ _ := (recurs_arguments fun _ _ _ => located_expression).unwinds
  args _ _ := (recurs_args fun _ _ _ => located_commands).unwinds
  commands := recurs_commands.unwinds
  expression := recurs_expression.unwinds

/-- **Reading goes forward and ends.**  A rule that matches at a place of the text ends at a later
one, what is between brackets is read behind the opening one, and a loop goes on behind what it has
read.  So every text is read to a tree or an error.  A reading that would be broken off after more
rounds than the text has characters is the reading itself, whatever it would be broken off with. -/
theorem reading_goes_forward (text : String) (limits : Limits) :
    (∀ l s, s.Within text.toList →
      RulesAdvance text.toList l s ∧ BracketsAdvance text.toList l s) ∧
    LoopsUnwind text.toList ∧
    (∀ bottom k, text.toList.length < k →
      commandsRound^[k] bottom ({ limits }, .start text.toList) =
        commands { limits } (.start text.toList)) ∧
    (∀ bottom k, text.toList.length < k →
      expressionRound^[k] bottom ({ limits, multiline := true }, .start text.toList) =
        expression { limits, multiline := true } (.start text.toList)) ∧
    ((∃ cs, Document.parse text limits = .ok cs) ∨ ∃ e, Document.parse text limits = .error e) ∧
    ((∃ tree, Expr.parse text limits = .ok tree) ∨ ∃ e, Expr.parse text limits = .error e) := by
  have hloops := loopsUnwind text.toList
  have hstart : ∀ k, text.toList.length < k →
      text.toList.length < (Cursor.start text.toList).offset + k := by
    intro k hk
    simpa [Cursor.start] using hk
  refine ⟨fun l s hs => ⟨rulesAdvance l hs, bracketsAdvance l hs⟩, hloops,
    fun bottom k hk => hloops.commands.ends bottom k _ Cursor.within_start (hstart k hk),
    fun bottom k hk => hloops.expression.ends bottom k _ Cursor.within_start (hstart k hk), ?_, ?_⟩
  · cases Document.parse text limits with
    | ok cs => exact .inl ⟨cs, rfl⟩
    | error e => exact .inr ⟨e, rfl⟩
  · cases Expr.parse text limits with
    | ok tree => exact .inl ⟨tree, rfl⟩
    | error e => exact .inr ⟨e, rfl⟩

/-- A word that is the whole text: reading it goes to the end, and takes three rounds at most. -/
theorem reading_goes_forward_sample :
    (word (.start "ab".toList)).Gives (.word "ab") ⟨2, []⟩ ∧
    Cursor.Within "ab".toList ⟨2, []⟩ ∧
    ∀ bottom, commandsRound^[3] bottom ({ limits := {} }, .start "ab".toList) =
      commands { limits := {} } (.start "ab".toList) := by
  obtain ⟨hrules, -, hends, -⟩ := reading_goes_forward "ab" {}
  have hgives : (word (.start "ab".toList)).Gives (.word "ab") ⟨2, []⟩ := ⟨by decide, by rfl⟩
  have hadvances := (hrules { limits := {} } _ Cursor.within_start).1.word _ _ hgives
  exact ⟨hgives, hadvances.2, fun bottom => hends bottom 3 (by decide)⟩

end Planetarium.Grammar
