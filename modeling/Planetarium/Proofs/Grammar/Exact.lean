import Planetarium.Proofs.Grammar.CommandComplete

/-!
# The grammar and its reader

What the reader accepts is exactly what the grammar derives: the whole text, with nothing left out
but blanks, and with the very tree that the derivation builds.  Since the reader is a function, a
text has at most one derivation.
-/
namespace Planetarium.Grammar
open Parsing Text Decimal Attempt Cursor

variable {n : Nat} {l : Level} {s t : List Char} {p : Phrase} {e : Expr} {cs : List Command}

/-- What it means for the reader to follow a derivation.  A chain of operands is followed up to
the next operand, so it is left open what comes after it, and so are commands. -/
def IsRead (n : Nat) (l : Level) (s : List Char) : Phrase → List Char → Prop
  | .atom e, t => (atom l (facing n s)).Matches e (facing n t)
  | .factor e, t => (factor l (facing n s) (expressionWithin s.length)).Matches e (facing n t)
  | .term e, t => ∃ h, (product l (facing n s)).Resumes (facing n t).offset
      (moreFactors l e (facing n t) h)
  | .expression e, t => (∀ c ∈ t.head?, Operator.multiplicative? c = none) →
      ∃ h, (expression l (facing n s)).Resumes (facing n t).offset (moreTerms l e (facing n t) h)
  | .arguments es, t => ∀ function m before h, (arguments l function (expressionWithin m) before
      (facing n s) h).Matches (.call function (before ++ es)) (facing n t)
  | .command c, t => NoOperator t → (commandAt l (facing n s)).Matches c (facing n t)
  | .args as, t =>
    (∀ m before h, (args l (commandsWithin m) before (facing n s) h).Matches (before ++ as)
      (facing n t)) ∧
    (as ≠ [] → (invocation l (facing n s) (commandsWithin s.length)).Matches (.invocation as)
      (facing n t))
  | .commands cs, t => NoOperator t → ∃ h, (commands l (facing n s)).Resumes (facing n t).offset
      (prepend cs (commands l (facing n t)) h)

/-- A character is no operator if it belongs to neither tier. -/
theorem isOperator_eq_false_iff {c : Char} : isOperator c = false ↔
    Operator.additive? c = none ∧ Operator.multiplicative? c = none := by
  simp only [isOperator, Bool.or_eq_false_iff, Option.isSome_eq_false_iff,
    Option.isNone_iff_eq_none]

theorem additive?_of_noOperator (h : NoOperator t) :
    ∀ c ∈ t.head?, Operator.additive? c = none :=
  fun c hc => (isOperator_eq_false_iff.mp (h c hc)).1

theorem multiplicative?_of_noOperator (h : NoOperator t) :
    ∀ c ∈ t.head?, Operator.multiplicative? c = none :=
  fun c hc => (isOperator_eq_false_iff.mp (h c hc)).2

/-- No character belongs to both tiers. -/
theorem multiplicative?_of_additive? {c : Char} {op : Operator}
    (h : Operator.additive? c = some op) : Operator.multiplicative? c = none := by
  unfold Operator.additive? at h
  split at h
  · rfl
  · rfl
  · contradiction

/-- A term is read to its end where no operator of its tier comes next. -/
theorem matches_product (h : Reads l s (.term e) t) (hr : IsRead n l s (.term e) t)
    (hn : s.length ≤ n) (ht : ∀ c ∈ t.head?, Operator.multiplicative? c = none) :
    (product l (facing n s)).Matches e (facing n t) := by
  obtain ⟨_, hr⟩ := hr
  exact hr.matches (matches_chainRest_of_head h.edges.2 (Nat.le_trans h.length_le hn) ht)
    (Nat.le_refl _)

theorem matches_expression_of_isRead (h : Reads l s (.expression e) t)
    (hr : IsRead n l s (.expression e) t) (hn : s.length ≤ n) (ht : NoOperator t) :
    (expression l (facing n s)).Matches e (facing n t) := by
  obtain ⟨_, hr⟩ := hr (multiplicative?_of_noOperator ht)
  exact hr.matches (matches_chainRest_of_head h.trim_rest (Nat.le_trans h.length_le hn)
    (additive?_of_noOperator ht)) (Nat.le_refl _)

/-- A chain read up to an operator is read up to the next one. -/
theorem resumes_step {m : Nat} {operator : Char → Option Operator} {operand : Rule m} {c : Char}
    {op : Operator} {left right : Expr} {u : List Char} {a : Attempt Expr m}
    {hm : (facing n (c :: t)).left < m}
    (h : a.Resumes (facing n (c :: t)).offset (chainRest l operator operand left
      (facing n (c :: t)) hm))
    (htrim : trim l (c :: t) = c :: t) (hc : operator c = some op) (hn : (c :: t).length ≤ n)
    {ht : (facing n t).left ≤ m} (hright : (operand (facing n t) ht).Matches right (facing n u)) :
    ∃ hu, a.Resumes (facing n u).offset
      (chainRest l operator operand (.binary op left right) (facing n u) hu) := by
  have hut := hright.1.progress
  simp only [facing_left] at hut ht
  refine ⟨Nat.lt_of_lt_of_le hut ht, ?_⟩
  exact (h.mono (offset_facing_le (by simp only [List.length_cons]; omega))).trans
    (chainRest_resumes htrim hc hn hright)

/-- Between commands no operator comes next. -/
theorem noOperator_of_head (h : ∀ c ∈ (t.dropWhile isLayout).head?, ¬ isOperator c) :
    NoOperator t := by
  intro c hc
  by_cases hl : isLayout c
  · exact of_isLayout (P := fun c => isOperator c = false) hl rfl rfl rfl rfl
  · rw [dropWhile_of_head_eq hc (Bool.eq_false_iff.mpr hl)] at h
    exact Bool.eq_false_iff.mpr (h c hc)

theorem Reads.noOperator_of_commands {u : List Char} (h : Reads l t (.commands cs) u)
    (hu : NoOperator u) : NoOperator t := by
  cases h with
  | noCommands _ => exact hu
  | commands hc _ =>
    refine noOperator_of_head fun c hd hop => ?_
    obtain ⟨d, hd', hstart⟩ := hc.edges
    obtain rfl := Option.some.inj (hd.symm.trans hd')
    rcases eq_of_isOperator hop with rfl | rfl | rfl | rfl <;> exact absurd hstart (by decide)

/-- Commands are read up to the end of the text or a closing brace, and nothing is looked for
behind it. -/
theorem commands_gives_of_isRead (hroom : l.lacks Level.commandFrames = false)
    (hr : IsRead n l s (.commands cs) t) (hended : Ended t)
    (hn : t.length ≤ n) : (commands l (facing n s)).Gives cs (facing n t) ∧
      (commands l (facing n s)).Within (facing n (t.dropWhile isLayout)).offset := by
  have hno : NoOperator t := noOperator_of_head fun c hc hop => by
    rw [hended c hc] at hop
    exact absurd hop (by decide)
  have hstart : ∀ c ∈ (t.dropWhile isLayout).head?, ¬ startsCommand c := by
    intro c hc hstart
    rw [hended c hc] at hstart
    exact absurd hstart (by decide)
  -- no command begins there, so the commands come down to these
  obtain ⟨_, hresumes⟩ := hr hno
  obtain ⟨hnil, hlog⟩ := commands_gives_nil hroom hstart hn
  have hgives := gives_of_resumes (hresumes.mono (offset_facing_le length_dropWhile_le)) hnil hlog
  rwa [List.append_nil] at hgives

/-- The reader follows every derivation. -/
theorem Reads.isRead (h : Reads l s p t) (hn : s.length ≤ n) : IsRead n l s p t := by
  induction h with
  | number h => exact matches_atom_number h hn
  | name h ht => exact matches_atom_name h ht hn
  | @call l s name t u v es h ht hfull hes ih =>
    have := h.length_lt
    have := length_lt_of_trim ht
    have := length_trim_le (l := l.inGroup) (s := u)
    exact matches_atom_call h ht hfull hes.length_le
      (fun m h => ih (by omega) name m [] h) hn
  | group hfull he ih =>
    simp only [List.length_cons] at hn
    refine matches_atom_group hfull he ?_ (by simpa using hn)
    -- the closing parenthesis is no operator, so the expression is read up to it
    refine matches_expression_of_isRead he (ih (by omega)) (by omega) ?_
    rintro c ⟨⟩
    decide
  | factor h ih =>
    exact matches_factor (ih (Nat.le_trans length_trim_le hn))
      (Nat.le_trans h.length_le length_trim_le) hn
  | term _ ih => exact ⟨(ih hn).1.progress, product_resumes_of_factor (ih hn)⟩
  | @product l s left c t op right u h hop hright ih ihr =>
    have hlt := h.length_le
    simp only [List.length_cons] at hlt
    -- the term so far has come down to the chain from its operator on
    obtain ⟨_, hresumes⟩ := ih hn
    have hright : (operandOfTerm l s.length (facing n t) (Nat.le_of_lt hlt)).Matches right
      (facing n u) := ihr (by omega)
    exact resumes_step hresumes h.edges.2 hop (Nat.le_trans h.length_le hn) hright
  | expression hroom h ih =>
    intro ht
    have hproduct := matches_product h (ih hn) hn ht
    exact ⟨hproduct.1.progress, expression_resumes_of_product hroom hproduct⟩
  | @sum l s left c t op right u h hop hright ih ihr =>
    intro hu
    have hlt := h.length_le
    simp only [List.length_cons] at hlt
    -- an operator of the other tier ends the term before it
    obtain ⟨_, hresumes⟩ := ih hn (by rintro d ⟨⟩; exact multiplicative?_of_additive? hop)
    have hright : (operandOfSum l s.length (facing n t) (Nat.le_of_lt hlt)).Matches right
      (facing n u) := matches_product hright (ihr (by omega)) (by omega) hu
    exact resumes_step hresumes h.trim_rest hop (Nat.le_trans h.length_le hn) hright
  | noArguments hroom =>
    intro function m before h
    rw [List.append_nil]
    exact matches_arguments_nil hroom hn
  | @argument l s e t es u he ht hes ih ihs =>
    have hle := he.length_le
    have hafter := length_afterComma_le (l := l) (s := t)
    have hm := matches_expression_of_isRead he (ih hn) hn ht
    exact fun function m before h => matches_arguments_cons he hm hes.length_le
      (ihs (by omega) function) hn
  | @definition l s name t u e v h ht he ih =>
    intro hv
    have := h.length_lt
    have := length_lt_of_dropWhile ht
    have := length_dropWhile_le (s := u) (f := isSpace)
    simp only [List.length_cons] at *
    exact matches_definition h ht he (matches_expression_of_isRead he (ih (by omega)) (by omega) hv)
      hn
  | @property l s name t u e v h ht he ih =>
    intro hv
    have := h.length_lt
    have := length_lt_of_dropWhile ht
    have := length_dropWhile_le (s := u) (f := isSpace)
    exact matches_property h ht he (matches_expression_of_isRead he (ih (by omega)) (by omega) hv)
      hn
  | text h ht hq => exact fun _ => matches_text h ht hq hn
  | invocation h ih => exact fun _ => matches_commandAt_invocation h ((ih hn).2 nofun) hn
  | noArgs h =>
    refine ⟨fun m before h' => ?_, fun h' => absurd rfl h'⟩
    rw [List.append_nil]
    exact matches_args_nil h
  | @word l s name t as u h has ih =>
    have := h.length_lt
    have := length_dropWhile_le (s := t) (f := isSpace)
    have ha := matches_argument_word h hn (l := l)
    have hargs := ih (by omega)
    exact ⟨fun _ _ _ => matches_args_cons ha hargs.1 has.length_le hn,
      fun _ => matches_invocation ha hargs.1 has.length_le hn⟩
  | @block l s cs t u as v hfull hcs ht has ih ihs =>
    have hle := hcs.length_le
    have htu := length_lt_of_dropWhile ht
    have hu := length_dropWhile_le (s := u) (f := isSpace)
    simp only [List.length_cons] at hn
    have hended : Ended t := by
      rw [Ended, ht]
      rintro c ⟨⟩
      rfl
    -- the commands of the block are read up to its closing brace
    obtain ⟨hbody, hlog⟩ := commands_gives_of_isRead hcs.room_commands (ih (by omega)) hended
      (by omega)
    rw [ht] at hlog
    have ha := matches_argument_block hfull ht hbody (hlog.mono (offset_facing_le (by simp)))
      (by simpa using hn)
    have hargs := ihs (by omega)
    exact ⟨fun _ _ _ => matches_args_cons ha hargs.1 has.length_le (by simpa using hn),
      fun _ => matches_invocation ha hargs.1 has.length_le (by simpa using hn)⟩
  | noCommands _ => exact fun _ => ⟨Nat.le_refl _, by rw [prepend_nil]; exact .refl⟩
  | @commands l s c t cs u hc hcs ih ihs =>
    intro hu
    have hdrop := length_dropWhile_le (s := s) (f := isLayout)
    have htle := hc.length_le
    have hcommand := ih (by omega) (hcs.noOperator_of_commands hu)
    obtain ⟨hut, hresumes⟩ := ihs (by omega) hu
    have hts : (facing n t).left + 1 ≤ (facing n s).left + 1 := by
      simp only [facing_left]
      omega
    refine ⟨Nat.le_trans hut hts, ?_⟩
    -- the first command comes down to the others, and these to what is behind them
    have hfirst := (commands_resumes hcs.room_commands hcommand hn hts).mono
      (offset_facing_le hcs.length_le)
    have hrest : (prepend [c] (Grammar.commands l (facing n t)) hts).Resumes
        (facing n u).offset (prepend [c] (prepend cs (Grammar.commands l (facing n u)) hut) hts) :=
      prepend_resumes hresumes hts
    rw [prepend_prepend] at hrest
    exact hfirst.trans hrest

/-- **A derived expression is read,** if no operator follows. -/
theorem matches_expression (h : Reads l s (.expression e) t) (ht : NoOperator t)
    (hn : s.length ≤ n) : (expression l (facing n s)).Matches e (facing n t) :=
  matches_expression_of_isRead h (h.isRead hn) hn ht

/-- Reading a text that begins with commands comes down to reading what is after them. -/
theorem commands_resumes_of_reads (h : Reads l s (.commands cs) t) (ht : NoOperator t)
    (hn : s.length ≤ n) : ∃ hts, (commands l (facing n s)).Resumes (facing n t).offset
      (prepend cs (commands l (facing n t)) hts) :=
  h.isRead hn ht

/-- **Derived commands are read** up to their end. -/
theorem commands_gives_of_reads (h : Reads l s (.commands cs) t) (hended : Ended t)
    (hn : s.length ≤ n) : (commands l (facing n s)).Gives cs (facing n t) ∧
      (commands l (facing n s)).Within (facing n (t.dropWhile isLayout)).offset :=
  commands_gives_of_isRead h.room_commands (h.isRead hn) hended (Nat.le_trans h.length_le hn)

/-! ## Whole texts -/

section WholeTexts
variable {limits : Limits} {text : List Char}

theorem skip_left_eq_zero {f : Char → Bool} {u : Cursor} :
    (u.skip f).left = 0 ↔ u.rest.dropWhile f = [] :=
  List.length_eq_zero_iff

/-- A reading that gives something gives it at the place where it ends. -/
theorem exists_gives_matched {α : Type} {n : Nat} {v x : α} {u : Cursor} {h : u.left < n}
    {log : List Event} {p : Cursor → Prop} :
    (∃ t, (⟨.matched v u h, log⟩ : Attempt α n).Gives x t ∧ p t) ↔ v = x ∧ p u := by
  constructor
  · rintro ⟨t, ⟨ht, hm⟩, hp⟩
    simp only [Outcome.matched.injEq] at hm
    obtain ⟨rfl, rfl⟩ := hm
    exact ⟨rfl, hp⟩
  · rintro ⟨rfl, hp⟩
    exact ⟨u, ⟨h, rfl⟩, hp⟩

theorem ofChars_expression_iff_gives : Expr.ofChars limits text = .ok e ↔
    ∃ u, (expression { limits, multiline := true } (.start text)).Gives e u ∧
      u.rest.dropWhile isLayout = [] := by
  simp only [Expr.ofChars, skip_left_eq_zero]
  generalize expression { limits, multiline := true } (.start text) = a
  obtain ⟨outcome, log⟩ := a
  cases outcome with
  | matched v u h =>
    rw [exists_gives_matched]
    by_cases hend : u.rest.dropWhile isLayout = []
    · simp [hend]
    · simp [hend]
  | mismatched => simp [Gives]
  | stopped reason => simp [Gives]

theorem ofChars_document_iff_gives : Document.ofChars limits text = .ok cs ↔
    ∃ u, (commands { limits } (.start text)).Gives cs u ∧ u.rest.dropWhile isLayout = [] := by
  simp only [Document.ofChars, skip_left_eq_zero]
  generalize commands { limits } (.start text) = a
  obtain ⟨outcome, log⟩ := a
  cases outcome with
  | matched v u h =>
    rw [exists_gives_matched]
    by_cases hend : u.rest.dropWhile isLayout = []
    · simp [hend]
    · -- what is left is a stray brace or something unexpected
      simp only [hend, if_false, and_false, iff_false]
      split <;> simp
  | mismatched => simp [Gives]
  | stopped reason => simp [Gives]

/-- What is read as an expression is what is derived from the text. -/
theorem ofChars_expression : Expr.ofChars limits text = .ok e ↔ IsExpression limits text e := by
  rw [ofChars_expression_iff_gives]
  constructor
  · rintro ⟨u, hu, hend⟩
    have h := reads_of_expression hu
    have htrim : u.rest.dropWhile isLayout = u.rest := h.trim_rest
    rw [IsExpression, ← hend, htrim]
    exact h
  · intro h
    refine ⟨facing text.length [], ?_, rfl⟩
    rw [start_eq_facing]
    exact (matches_expression h forall_head?_nil (Nat.le_refl _)).1

/-- What is read as a document is what is derived from the text. -/
theorem ofChars_document : Document.ofChars limits text = .ok cs ↔ IsDocument limits text cs := by
  rw [ofChars_document_iff_gives]
  constructor
  · rintro ⟨u, hu, hend⟩
    exact ⟨u.rest, reads_of_commands hu (by rw [Ended, hend]; exact forall_head?_nil), hend⟩
  · rintro ⟨rest, h, hend⟩
    refine ⟨facing text.length rest, ?_, hend⟩
    have hended : Ended rest := by rw [Ended, hend]; exact forall_head?_nil
    rw [start_eq_facing]
    exact (commands_gives_of_reads h hended (Nat.le_refl _)).1

end WholeTexts

theorem mapError_eq_ok {ε ε' α : Type} {f : ε → ε'} {x : Except ε α} {v : α} :
    x.mapError f = .ok v ↔ x = .ok v := by
  cases x <;> simp [Except.mapError]

theorem mapError_eq_error {ε ε' α : Type} {f : ε → ε'} {x : Except ε α} {e : ε'} :
    x.mapError f = .error e ↔ ∃ reason, x = .error reason ∧ e = f reason := by
  cases x <;> simp [Except.mapError, eq_comm]

/-- What is parsed as a document is derived from the text. -/
theorem parse_document {limits : Limits} {text : String} {cs : List Command} :
    Document.parse text limits = .ok cs ↔ IsDocument limits text.toList cs :=
  mapError_eq_ok.trans ofChars_document

/-- **A text is accepted as a document, or as an expression, exactly if the whole of it is derived
as one, and the tree that comes out is the one of the derivation.** -/
theorem parse_ok_iff_derived (text : String) (limits : Limits) :
    (∀ cs, Document.parse text limits = .ok cs ↔ IsDocument limits text.toList cs) ∧
      ∀ e, Expr.parse text limits = .ok e ↔ IsExpression limits text.toList e :=
  ⟨fun _ => mapError_eq_ok.trans ofChars_document, fun _ => mapError_eq_ok.trans ofChars_expression⟩

end Planetarium.Grammar
