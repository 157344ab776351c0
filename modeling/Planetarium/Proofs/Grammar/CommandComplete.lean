import Planetarium.Proofs.Grammar.CommandSound
import Planetarium.Proofs.Grammar.ExpressionComplete

/-!
# What is derived as a document is read

As for expressions, one lemma for each production.  The alternatives before the one that matches
fail within its text: a property is not a definition because no expression begins with `=`, and an
invocation is neither because its first word is not followed by a colon.  Reading commands comes
down to reading the commands after them and putting these behind (`prepend`), so what is said here
also holds of the beginning of a document whose end is not read.
-/
namespace Planetarium.Grammar
open Parsing Text Decimal Attempt Cursor

variable {n m b : Nat} {l : Level} {s t u v : List Char} {e : Expr} {name : String}
  {word : List Char} {expected : Expected} {c : Command} {cs : List Command} {arg : Arg}
  {as : List Arg}

theorem skip_facing_isSpace (h : s.length ≤ n) :
    (facing n s).skip isSpace = facing n (s.dropWhile isSpace) :=
  skip_facing h

/-! ## Definitions and properties -/

theorem after?_append {k : Nat} :
    (⟨k, word ++ u⟩ : Cursor).after? word = some ⟨k + word.length, u⟩ := by
  induction word generalizing k with
  | nil => rfl
  | cons w ws ih =>
    simp only [List.cons_append, Cursor.after?, if_true, ih, List.length_cons, Option.some.injEq,
      Cursor.mk.injEq, and_true]
    omega

/-- A word and the sign of an assignment are read together. -/
theorem matches_head (h : Word s name t) (ht : t.dropWhile isSpace = word ++ u)
    (hn : s.length ≤ n) :
    (head word expected (facing n s)).Matches name (facing n (u.dropWhile isSpace)) := by
  have hlt := h.length_lt
  have hdrop := length_dropWhile_le (s := t) (f := isSpace)
  rw [ht, List.length_append] at hdrop
  have hafter : ((facing n t).skip isSpace).after? word = some (facing n u) := by
    rw [skip_facing_isSpace (by omega), ht, facing, after?_append]
    simp only [facing, List.length_append, Option.some.injEq, Cursor.mk.injEq, and_true]
    omega
  have hu := length_dropWhile_le (s := u) (f := isSpace)
  refine (matches_identifier h hn).branch ?_ (offset_facing_le (by omega))
  split
  · rename_i hnone
    rw [hafter] at hnone
    contradiction
  · rename_i v hv
    obtain rfl := Option.some.inj (hafter.symm.trans hv)
    exact matches_accept_of_eq (skip_facing_isSpace (by omega))

theorem failsWithin_head_of_name (h : (identifier (facing n s)).FailsWithin b)
    (hb : (facing n s).offset ≤ b) : (head word expected (facing n s)).FailsWithin b :=
  h.branch_fails (failsWithin_miss hb)

/-- A word without the sign behind it is no head. -/
theorem failsWithin_head_of_sign (h : Word s name t) (ht : ∀ u, t.dropWhile isSpace ≠ word ++ u)
    (hn : s.length ≤ n) (hb : (facing n (t.dropWhile isSpace)).offset ≤ b) :
    (head word expected (facing n s)).FailsWithin b := by
  have hlt := h.length_lt
  have hskip := skip_facing_isSpace (n := n) (s := t) (by omega)
  refine (matches_identifier h hn).branch_fails ?_
    (Nat.le_trans (offset_facing_le length_dropWhile_le) hb)
  split
  · exact failsWithin_miss (by rwa [hskip])
  · rename_i v hv
    have := (Cursor.after?_offset hv).2
    rw [hskip] at this
    exact absurd this (ht v.rest)

/-- The alternatives for a command, with commands inside its blocks. -/
def commandAt (l : Level) (s : Cursor) : Attempt Command s.left :=
  (definition l s).orElse fun _ =>
  (property l s).orElse fun _ =>
  invocation l s (commandsWithin s.left)

/-- A derived definition is read. -/
theorem matches_definition (h : Word s name t) (ht : t.dropWhile isSpace = ':' :: '=' :: u)
    (he : Reads l.inAssignment (u.dropWhile isSpace) (.expression e) v)
    (hm : (expression l.inAssignment (facing n (u.dropWhile isSpace))).Matches e (facing n v))
    (hn : s.length ≤ n) :
    (commandAt l (facing n s)).Matches (.definition name e) (facing n v) := by
  have hhead : (head [':', '='] .define (facing n s)).Matches name
      (facing n (u.dropWhile isSpace)) := matches_head h ht hn
  have hdefinition : (definition l (facing n s)).Matches (.definition name e) (facing n v) :=
    hhead.andThen (hm.andThen matches_accept (Nat.le_refl _)) (offset_facing_le he.length_le)
  exact hdefinition.orElse

/-- What is no definition, because no equals sign is behind the colon. -/
theorem failsWithin_definition (h : Word s name t) (ht : t.dropWhile isSpace = ':' :: u)
    (hu : u.head? ≠ some '=') (hn : s.length ≤ n) (hb : (facing n u).offset ≤ b) :
    (definition l (facing n s)).FailsWithin b := by
  have hle := length_lt_of_dropWhile ht
  refine (failsWithin_head_of_sign h (fun w hw => ?_) hn ?_).andThen
  · rw [ht] at hw
    exact hu (by rw [(List.cons.inj hw).2]; rfl)
  · rw [ht]
    exact Nat.le_trans (offset_facing_le (by simp)) hb

/-- So is a property with an expression. -/
theorem matches_property (h : Word s name t) (ht : t.dropWhile isSpace = ':' :: u)
    (he : Reads l.inAssignment (u.dropWhile isSpace) (.expression e) v)
    (hm : (expression l.inAssignment (facing n (u.dropWhile isSpace))).Matches e (facing n v))
    (hn : s.length ≤ n) :
    (commandAt l (facing n s)).Matches (.property name (.expr e)) (facing n v) := by
  have hvu := Nat.le_trans he.length_le (length_dropWhile_le (s := u) (f := isSpace))
  -- no expression begins with `=` or with a quote
  have hdefinition : (definition l (facing n s)).FailsWithin (facing n v).offset := by
    refine failsWithin_definition h ht (fun hu => ?_) hn (offset_facing_le hvu)
    obtain ⟨w, rfl⟩ := List.head?_eq_some_iff.mp hu
    exact absurd (he.head_expression '=' rfl) (by decide)
  have hquote : (quotedString (facing n (u.dropWhile isSpace))).FailsWithin
      (facing n v).offset := by
    refine failsWithin_quotedString fun hq => ?_
    exact absurd (he.head_expression '"' hq) (by decide)
  have hhead : (head [':'] .colon (facing n s)).Matches name
      (facing n (u.dropWhile isSpace)) := matches_head h ht hn
  have hproperty : (property l (facing n s)).Matches (.property name (.expr e)) (facing n v) :=
    hhead.andThen
      (hquote.branch (hm.andThen matches_accept (Nat.le_refl _)) (Nat.le_refl _))
      (offset_facing_le he.length_le)
  exact hdefinition.orElse hproperty.orElse (Nat.le_refl _)

/-- So is a property with a string. -/
theorem matches_text {text : String} (h : Word s name t) (ht : t.dropWhile isSpace = ':' :: u)
    (hq : Quotation (u.dropWhile isSpace) text v) (hn : s.length ≤ n) :
    (commandAt l (facing n s)).Matches (.property name (.text text))
      (facing n (v.dropWhile isSpace)) := by
  have hlt := h.length_lt
  have htu := length_lt_of_dropWhile ht
  have hul := length_dropWhile_le (s := u) (f := isSpace)
  have hqv := hq.length_lt
  have hvl := length_dropWhile_le (s := v) (f := isSpace)
  have hdefinition : (definition l (facing n s)).FailsWithin
      (facing n (v.dropWhile isSpace)).offset := by
    refine failsWithin_definition h ht (fun hu => ?_) hn (offset_facing_le (by omega))
    obtain ⟨w, rfl⟩ := List.head?_eq_some_iff.mp hu
    exact absurd (List.cons.inj hq.1).1 (by decide)
  have hhead : (head [':'] .colon (facing n s)).Matches name
      (facing n (u.dropWhile isSpace)) := matches_head h ht hn
  have hproperty : (property l (facing n s)).Matches (.property name (.text text))
      (facing n (v.dropWhile isSpace)) := by
    refine hhead.andThen ?_ (offset_facing_le (by omega))
    refine (matches_quotedString hq (by omega)).branch ?_ (offset_facing_le (by omega))
    exact matches_accept_of_eq (skip_facing_isSpace (by omega))
  exact hdefinition.orElse hproperty.orElse (Nat.le_refl _)

/-! ## Invocations -/

/-- The first of the arguments, a block or a word. -/
def argument (l : Level) (s : Cursor) : Attempt Arg s.left :=
  (block l s (commandsWithin s.left)).orElse fun _ => Grammar.word s

/-- A word is read as an argument. -/
theorem matches_argument_word (h : Word s name t) (hn : s.length ≤ n) :
    (argument l (facing n s)).Matches (.word name) (facing n t) := by
  have hlt := h.length_lt
  have hopen : (char '{' (facing n s)).FailsWithin (facing n t).offset := by
    refine failsWithin_char fun hc => ?_
    obtain ⟨d, hd, hw⟩ := h.head_isWordStart
    obtain rfl := Option.some.inj (hc.symm.trans hd)
    exact absurd hw (by decide)
  -- a word is tried as a block first
  have hblock : (block l (facing n s) (commandsWithin _)).FailsWithin (facing n t).offset :=
    hopen.branch_fails (failsWithin_miss (offset_facing_le (by omega)))
  exact hblock.orElse ((matches_identifier h hn).branch matches_accept (Nat.le_refl _))
    (Nat.le_refl _)

/-- A block is read as one if its commands are and its brace follows. -/
theorem matches_argument_block (hfull : l.isFull = false) (ht : t.dropWhile isLayout = '}' :: u)
    (hcs : (commands l.inBlock (facing n s)).Gives cs (facing n t))
    (hlog : (commands l.inBlock (facing n s)).Within (facing n u).offset)
    (hn : ('{' :: s).length ≤ n) :
    (argument l (facing n ('{' :: s))).Matches (.block cs) (facing n u) := by
  have hts := hcs.progress
  have htu := length_lt_of_dropWhile ht
  simp only [facing_left, List.length_cons] at hts hn
  have hskip : (facing n t).skip isLayout = facing n ('}' :: u) := by
    rw [skip_facing (by omega), ht]
  have hclose : (char '}' ((facing n t).skip isLayout)).Matches () (facing n u) := by
    rw [hskip]
    exact matches_char (by simp only [List.length_cons]; omega)
  have hblock : (block l (facing n ('{' :: s)) (commandsWithin _)).Matches (.block cs)
      (facing n u) := by
    refine (matches_char (by simpa using hn)).branch ?_ (offset_facing_le (by omega))
    refine (enter_resumes hfull).matches ?_ (Nat.le_refl _)
    refine (hcs.branch_resumes hlog).matches ?_ (Nat.le_refl _)
    exact hclose.branch matches_accept (Nat.le_refl _)
  exact hblock.orElse

/-- Where no command begins no name is read. -/
theorem failsWithin_identifier_of_start (h : ∀ c ∈ s.head?, ¬ startsCommand c) :
    (identifier (facing n s)).FailsWithin b := by
  refine failsWithin_identifier fun c hc => ?_
  have := h c hc
  simp only [startsCommand, Bool.or_eq_true, not_or] at this
  exact Bool.eq_false_iff.mpr this.1

/-- Nothing else is read as one. -/
theorem failsWithin_argument (h : ∀ c ∈ s.head?, ¬ startsCommand c) :
    (argument l (facing n s)).FailsWithin (facing n s).offset := by
  have hopen : (char '{' (facing n s)).FailsWithin (facing n s).offset :=
    failsWithin_char fun hc => h '{' hc rfl
  have hname : (identifier (facing n s)).FailsWithin (facing n s).offset :=
    failsWithin_identifier_of_start h
  have hmiss : ∀ {α : Type} {k : Nat} {e : Expected},
      (miss (facing n s).offset e : Attempt α k).FailsWithin (facing n s).offset :=
    failsWithin_miss (Nat.le_refl _)
  exact (hopen.branch_fails hmiss).orElse_fails (hname.branch_fails hmiss)

theorem not_startsCommand_of_endsLine (h : EndsLine s) : ∀ c ∈ s.head?, ¬ startsCommand c := by
  intro c hc hstart
  rcases h c hc with hb | rfl
  · simp only [isBreak, Bool.or_eq_true, decide_eq_true_eq] at hb
    rcases hb with rfl | rfl <;> exact absurd hstart (by decide)
  · exact absurd hstart (by decide)

/-- At the end of a line there are no more arguments. -/
theorem matches_args_nil {before : List Arg} (h : EndsLine s) {hm : (facing n s).left ≤ m} :
    (args l (commandsWithin m) before (facing n s) hm).Matches before (facing n s) := by
  rw [args]
  exact (failsWithin_argument (not_startsCommand_of_endsLine h)).branch matches_accept
    (Nat.le_refl _)

/-- Behind an argument blanks are skipped, and what is left then is no further back. -/
theorem behind_argument (ha : (argument l (facing n s)).Matches arg (facing n t))
    (hu : u.length ≤ (t.dropWhile isSpace).length) (hn : s.length ≤ n) :
    (facing n t).skip isSpace = facing n (t.dropWhile isSpace) ∧
      (facing n t).offset ≤ (facing n u).offset := by
  have hts := ha.1.progress
  simp only [facing_left] at hts
  have hle := length_dropWhile_le (s := t) (f := isSpace)
  exact ⟨skip_facing_isSpace (by omega), offset_facing_le (by omega)⟩

/-- An argument and those behind it are read one after the other. -/
theorem matches_args_cons {before : List Arg}
    (ha : (argument l (facing n s)).Matches arg (facing n t))
    (has : ∀ m before h, (args l (commandsWithin m) before (facing n (t.dropWhile isSpace))
      h).Matches (before ++ as) (facing n u))
    (hu : u.length ≤ (t.dropWhile isSpace).length) (hn : s.length ≤ n)
    {hm : (facing n s).left ≤ m} :
    (args l (commandsWithin m) before (facing n s) hm).Matches (before ++ arg :: as)
      (facing n u) := by
  obtain ⟨hskip, hoffset⟩ := behind_argument ha hu hn
  have happend : before ++ arg :: as = before ++ [arg] ++ as := by simp
  rw [happend, args]
  refine Matches.branch ha ?_ hoffset
  simp only [hskip]
  exact has _ _ _

/-- An invocation is read if its arguments are. -/
theorem matches_invocation (ha : (argument l (facing n s)).Matches arg (facing n t))
    (has : ∀ m before h, (args l (commandsWithin m) before (facing n (t.dropWhile isSpace))
      h).Matches (before ++ as) (facing n u))
    (hu : u.length ≤ (t.dropWhile isSpace).length) (hn : s.length ≤ n) :
    (invocation l (facing n s) (commandsWithin s.length)).Matches (.invocation (arg :: as))
      (facing n u) := by
  obtain ⟨hskip, hoffset⟩ := behind_argument ha hu hn
  have hargs : ∀ h, (args l (n := ((facing n t).skip isSpace).left) (commandsWithin _) [arg]
      ((facing n t).skip isSpace) h).Matches (arg :: as) (facing n u) := by
    rw [hskip]
    exact fun h => has _ [arg] h
  refine Matches.andThen ha ?_ hoffset
  exact (hargs _).andThen matches_accept (Nat.le_refl _)

/-- The arguments of an invocation do not go on with a colon. -/
theorem Reads.head_args (h : Reads l s (.args as) t) : s.head? ≠ some ':' := by
  intro hc
  rcases h.edges with rfl | ⟨d, hd, hstart⟩
  · cases h with
    | noArgs he => exact absurd (he ':' hc) (by decide)
  · obtain rfl := Option.some.inj (hc.symm.trans hd)
    exact absurd hstart (by decide)

/-- An invocation is no definition and no property. -/
theorem failsWithin_head_of_args {w : List Char} (h : Reads l s (.args (arg :: as)) t)
    (hn : s.length ≤ n) : (head (':' :: w) expected (facing n s)).FailsWithin
      (facing n t).offset := by
  cases h with
  | @word l s name r as u hname has =>
    -- behind the first word there is an argument or the end of the line
    refine failsWithin_head_of_sign hname (fun u hu => has.head_args ?_) hn
      (offset_facing_le has.length_le)
    rw [hu]
    rfl
  | block hfull hcs ht has =>
    refine failsWithin_head_of_name (failsWithin_identifier ?_) (offset_facing_le ?_)
    · rintro c ⟨⟩
      decide
    · exact (Reads.block hfull hcs ht has).length_le

/-- An invocation is neither taken for a definition nor for a property. -/
theorem matches_commandAt_invocation (h : Reads l s (.args (arg :: as)) t)
    (hm : (invocation l (facing n s) (commandsWithin s.length)).Matches
      (.invocation (arg :: as)) (facing n t)) (hn : s.length ≤ n) :
    (commandAt l (facing n s)).Matches (.invocation (arg :: as)) (facing n t) :=
  (FailsWithin.andThen (failsWithin_head_of_args h hn)).orElse
    ((FailsWithin.andThen (failsWithin_head_of_args h hn)).orElse hm (Nat.le_refl _))
    (Nat.le_refl _)

/-! ## Commands -/

/-- The commands that an attempt gives, behind some others. -/
def prepend (cs : List Command) (a : Attempt (List Command) m) (h : m ≤ n) :
    Attempt (List Command) n :=
  a.andThen fun rest u hu => .accept (cs ++ rest) u (Nat.lt_of_lt_of_le hu h)

theorem prepend_nil (a : Attempt (List Command) m) : prepend [] a (Nat.le_refl _) = a := by
  obtain ⟨_ | _ | _, log⟩ := a <;> simp [prepend, andThen, Attempt.branch, accept, since, mismatch]

theorem prepend_prepend {k : Nat} {ds : List Command} (a : Attempt (List Command) k)
    (h : k ≤ m) (h' : m ≤ n) :
    prepend cs (prepend ds a h) h' = prepend (cs ++ ds) a (Nat.le_trans h h') := by
  obtain ⟨_ | _ | _, log⟩ := a <;> simp [prepend, andThen, Attempt.branch, accept, since, mismatch]

/-- Commands may be put in front on both sides. -/
theorem prepend_resumes {a a' : Attempt (List Command) m} (h : a.Resumes b a') (hn : m ≤ n) :
    (prepend cs a hn).Resumes b (prepend cs a' hn) := by
  rw [prepend, andThen]
  exact h.branch

/-- Commands that come down to others end where these do. -/
theorem gives_of_resumes {ds : List Command} {a : Attempt (List Command) n}
    {a' : Attempt (List Command) m} {hn : m ≤ n} {t : Cursor} (h : a.Resumes b (prepend cs a' hn))
    (hg : a'.Gives ds t) (hw : a'.Within b) : a.Gives (cs ++ ds) t ∧ a.Within b := by
  obtain ⟨log, hlog, rfl⟩ := h
  have happly : prepend cs a' hn = (accept (cs ++ ds) t
      (Nat.lt_of_lt_of_le hg.progress hn)).since a'.log := by
    rw [prepend, andThen, branch_of_gives hg]
  rw [happly]
  exact ⟨gives_accept.mpr ⟨rfl, rfl⟩, within_since.mpr ⟨hlog, within_since.mpr ⟨hw, within_accept⟩⟩⟩

/-- A command is one of its alternatives, where there is room for it. -/
theorem command_eq (l : Level) (s : Cursor) :
    command l s (commandsWithin s.left) = l.within Level.commandFrames fun _ =>
      (commandAt l (s.skip isLayout)).widen left_skip_le := by
  rw [command]
  rfl

/-- After a command the list of commands goes on. -/
theorem commands_resumes (hroom : l.lacks Level.commandFrames = false)
    (hc : (commandAt l (facing n (s.dropWhile isLayout))).Matches c
    (facing n t)) (hn : s.length ≤ n) (h : (facing n t).left + 1 ≤ (facing n s).left + 1) :
    (commands l (facing n s)).Resumes (facing n t).offset
      (prepend [c] (commands l (facing n t)) h) := by
  have hcommand : (command l (facing n s) (commandsWithin (facing n s).left)).Matches c
      (facing n t) := by
    have hat : (commandAt l ((facing n s).skip isLayout)).Matches c (facing n t) := by
      rwa [skip_facing hn]
    rw [command_eq, Level.within_of_room hroom]
    exact hat.widen left_skip_le
  rw [commands_eq]
  exact hcommand.branch_resumes

/-- Where no command begins behind the layout, there are no more commands. -/
theorem commands_gives_nil (hroom : l.lacks Level.commandFrames = false)
    (h : ∀ c ∈ (s.dropWhile isLayout).head?, ¬ startsCommand c)
    (hn : s.length ≤ n) : (commands l (facing n s)).Gives [] (facing n s) ∧
      (commands l (facing n s)).Within (facing n (s.dropWhile isLayout)).offset := by
  have hskip : (facing n s).skip isLayout = facing n (s.dropWhile isLayout) := skip_facing hn
  have hname : (identifier (facing n (s.dropWhile isLayout))).FailsWithin
      (facing n (s.dropWhile isLayout)).offset := failsWithin_identifier_of_start h
  have hhead : ∀ {word : List Char} {expected : Expected},
      (head word expected (facing n (s.dropWhile isLayout))).FailsWithin
        (facing n (s.dropWhile isLayout)).offset :=
    failsWithin_head_of_name hname (Nat.le_refl _)
  have hat : (commandAt l ((facing n s).skip isLayout)).FailsWithin
      (facing n (s.dropWhile isLayout)).offset := by
    rw [hskip]
    exact (FailsWithin.andThen hhead).orElse_fails ((FailsWithin.andThen hhead).orElse_fails
      (FailsWithin.andThen (failsWithin_argument h)))
  have hcommand : (command l (facing n s) (commandsWithin (facing n s).left)).FailsWithin
      (facing n (s.dropWhile isLayout)).offset := by
    rw [command_eq, Level.within_of_room hroom]
    exact hat.andThen
  rw [commands_eq, branch_of_fails hcommand.1]
  exact ⟨gives_accept.mpr ⟨rfl, rfl⟩, within_since.mpr ⟨hcommand.2, within_accept⟩⟩

end Planetarium.Grammar
