import Planetarium.Proofs.Grammar.ExpressionSound

/-!
# What is read as a document is derived

A definition that fails is tried again as a property and then as an invocation, each time from
the name on.  An invocation takes its whole line because of what comes after it: words and blocks
stop at a character that begins neither, and unless that character ends the line no further command
begins there, so the commands around it stop there too and the document, or the block, is not
accepted (`Ended`).
-/
namespace Planetarium.Grammar
open Parsing Text Decimal Attempt

variable {n : Nat} {l : Level} {s t u : Cursor} {c : Command} {cs : List Command}

/-- Only layout is left, up to the end of the text or a closing brace. -/
def Ended (s : List Char) : Prop := ∀ c ∈ (s.dropWhile isLayout).head?, c = '}'

/-- The rule for commands, inside something with `n` characters. -/
def commandsWithin (n : Nat) : Body n := fun l t _ => commands l t

/-- Commands are a command and more commands, or none. -/
theorem commands_eq (l : Level) (s : Cursor) :
    commands l s = (command l s (commandsWithin s.left)).branch
      (fun first t ht => (commands l t).andThen fun rest u hu =>
        .accept (first :: rest) u (by omega))
      (fun _ => .accept [] s (Nat.lt_succ_self _)) := by
  rw [commands]
  rfl

/-! ## Definitions and properties -/

/-- What is read as a head is a word with the sign behind it. -/
theorem head_gives {word : List Char} {expected : Expected} {name : String}
    (hg : (head word expected s).Gives name t) :
    ∃ r v, Word s.rest name r ∧ r.dropWhile isSpace = word ++ v ∧ t.rest = v.dropWhile isSpace := by
  rcases gives_branch.mp hg with ⟨_, u, hu, hg⟩ | ⟨_, hg⟩
  · split at hg
    · exact absurd hg not_gives_miss
    · rename_i v hv
      obtain ⟨rfl, rfl⟩ := gives_accept.mp hg
      exact ⟨u.rest, v.rest, word_of_gives hu, (Cursor.after?_offset hv).2, rfl⟩
  · exact absurd hg not_gives_miss

/-- A definition that is read is derived. -/
theorem definition_gives (hg : (definition l s).Gives c t) :
    Reads l s.rest (.command c) t.rest := by
  obtain ⟨name, u, hu, hg⟩ := gives_andThen.mp hg
  obtain ⟨e, v, hv, hg⟩ := gives_andThen.mp hg
  obtain ⟨rfl, rfl⟩ := gives_accept.mp hg
  obtain ⟨r, w, hname, hsign, hrest⟩ := head_gives hu
  exact .definition hname hsign (hrest ▸ reads_of_expression hv)

/-- So is a property. -/
theorem property_gives (hg : (property l s).Gives c t) :
    Reads l s.rest (.command c) t.rest := by
  obtain ⟨name, u, hu, hg⟩ := gives_andThen.mp hg
  obtain ⟨r, w, hname, hsign, hrest⟩ := head_gives hu
  rcases gives_branch.mp hg with ⟨text, v, hv, hg⟩ | ⟨_, hg⟩
  · obtain ⟨rfl, rfl⟩ := gives_accept.mp hg
    exact .text hname hsign (hrest ▸ quotation_of_gives hv)
  · obtain ⟨e, v, hv, hg⟩ := gives_andThen.mp hg
    obtain ⟨rfl, rfl⟩ := gives_accept.mp hg
    exact .property hname hsign (hrest ▸ reads_of_expression hv)

/-! ## Invocations -/

/-- What is read as commands, with less than `n` characters left, is derived as such if it ends
properly. -/
def CommandsSound (n : Nat) : Prop :=
  ∀ ⦃l t cs u⦄, t.left < n → (commands l t).Gives cs u → Ended u.rest →
    Reads l t.rest (.commands cs) u.rest

/-- A block that is read has derived commands and a brace behind them. -/
theorem block_gives {arg : Arg} (hn : CommandsSound s.left)
    (hg : (block l s (commandsWithin s.left)).Gives arg t) :
    ∃ r cs v, s.rest = '{' :: r ∧ l.isFull = false ∧ arg = .block cs ∧
      Reads l.inBlock r (.commands cs) v ∧ v.dropWhile isLayout = '}' :: t.rest := by
  rcases gives_branch.mp hg with ⟨_, u, hu, hg⟩ | ⟨_, hg⟩
  · have hp := hu.progress
    obtain ⟨hfull, hg⟩ := gives_enter.mp hg
    obtain ⟨cs, v, hv, hg⟩ := gives_andThen.mp hg
    rcases gives_branch.mp hg with ⟨_, w, hw, hg⟩ | ⟨_, hg⟩
    · obtain ⟨rfl, rfl⟩ := gives_accept.mp hg
      have hclose : v.rest.dropWhile isLayout = '}' :: w.rest := char_of_gives hw
      -- the commands of a block end at its closing brace
      have hended : Ended v.rest := by
        rw [Ended, hclose]
        rintro c ⟨⟩
        rfl
      exact ⟨u.rest, cs, v.rest, char_of_gives hu, hfull, rfl, hn hp hv hended, hclose⟩
    · split at hg
      · exact absurd hg not_gives_fault
      · exact absurd hg not_gives_miss
  · exact absurd hg not_gives_miss

theorem word_gives {arg : Arg} (hg : (word s).Gives arg t) :
    ∃ name, arg = .word name ∧ Word s.rest name t.rest := by
  rcases gives_branch.mp hg with ⟨name, u, hu, hg⟩ | ⟨_, hg⟩
  · obtain ⟨rfl, rfl⟩ := gives_accept.mp hg
    exact ⟨name, rfl, word_of_gives hu⟩
  · exact absurd hg not_gives_miss

/-- A block or a word and the arguments after it are derived. -/
theorem argument_gives {arg : Arg} {as : List Arg} {r : List Char} (hn : CommandsSound s.left)
    (hg : ((block l s (commandsWithin s.left)).orElse fun _ => word s).Gives arg t)
    (has : Reads l (t.rest.dropWhile isSpace) (.args as) r) :
    Reads l s.rest (.args (arg :: as)) r := by
  rcases gives_orElse.mp hg with hg | ⟨_, hg⟩
  · obtain ⟨r, cs, v, hs, hfull, rfl, hcs, hclose⟩ := block_gives hn hg
    rw [hs]
    exact .block hfull hcs hclose has
  · obtain ⟨name, rfl, hname⟩ := word_gives hg
    exact .word hname has

/-- Neither a block nor a word begins here. -/
def NoArgument (l : Level) (s : Cursor) : Prop :=
  ((block l s (commandsWithin s.left)).orElse fun _ => word s).Fails

/-- The arguments that are read are derived, if the line ends behind them. -/
theorem args_gives {before as : List Arg} {s : Cursor} {h : s.left ≤ n}
    (hn : CommandsSound s.left) (hspace : s.rest.dropWhile isSpace = s.rest)
    (hg : (args l (commandsWithin n) before s h).Gives as t) :
    ∃ more, as = before ++ more ∧ (EndsLine t.rest → Reads l s.rest (.args more) t.rest) ∧
      NoArgument l t ∧ t.rest.dropWhile isSpace = t.rest ∧ t.left ≤ s.left := by
  rw [args] at hg
  rcases gives_branch.mp hg with ⟨arg, u, hu, hg⟩ | ⟨hf, hg⟩
  · have hp := hu.progress
    have hskip := Cursor.left_skip_le (p := isSpace) (s := u)
    obtain ⟨more, rfl, hmore, hno, hends, hle⟩ := args_gives
      (fun l t cs u ht => hn (by omega)) (dropWhile_of_head (head_dropWhile _ _)) hg
    exact ⟨arg :: more, by simp, fun he => argument_gives hn hu (hmore he), hno, hends, by omega⟩
  · obtain ⟨rfl, rfl⟩ := gives_accept.mp hg
    exact ⟨[], by simp, .noArgs, hf, hspace, Nat.le_refl _⟩
termination_by s.left

/-- So is an invocation. -/
theorem invocation_gives (hn : CommandsSound s.left)
    (hg : (invocation l s (commandsWithin s.left)).Gives c t) :
    (EndsLine t.rest → Reads l s.rest (.command c) t.rest) ∧
      NoArgument l t ∧ t.rest.dropWhile isSpace = t.rest := by
  obtain ⟨arg, u, hu, hg⟩ := gives_andThen.mp hg
  obtain ⟨as, v, hv, hg⟩ := gives_andThen.mp hg
  obtain ⟨rfl, rfl⟩ := gives_accept.mp hg
  have hp := hu.progress
  have hskip := Cursor.left_skip_le (p := isSpace) (s := u)
  obtain ⟨more, rfl, hmore, hno, hends, -⟩ := args_gives
    (fun l t cs u ht => hn (by omega)) (dropWhile_of_head (head_dropWhile _ _)) hv
  exact ⟨fun he => .invocation (argument_gives hn hu (hmore he)), hno, hends⟩

/-! ## Commands -/

theorem word_fails (hf : (word s).Fails) : (identifier s).Fails := by
  rcases fails_branch.mp hf with ⟨_, _, _, hf⟩ | ⟨hf, _⟩
  · exact absurd hf not_fails_accept
  · exact hf

theorem head_fails {word : List Char} {expected : Expected} (hf : (identifier s).Fails) :
    (head word expected s).Fails :=
  fails_branch.mpr (.inr ⟨hf, rfl⟩)

/-- Commands are looked for only where there is room for one. -/
theorem room_of_command {body : Body s.left} (h : (command l s body).Fails ∨
    ∃ c t, (command l s body).Gives c t) : l.lacks Level.commandFrames = false := by
  rcases h with h | ⟨c, t, h⟩
  · exact (fails_within.mp h).1
  · exact (gives_within.mp h).1

theorem room_of_commands (hg : (commands l s).Gives cs t) :
    l.lacks Level.commandFrames = false := by
  rw [commands_eq] at hg
  rcases gives_branch.mp hg with ⟨c, u, hc, _⟩ | ⟨hf, _⟩
  · exact room_of_command (.inr ⟨c, u, hc⟩)
  · exact room_of_command (.inl hf)

/-- Where no argument begins, no command does. -/
theorem command_fails (hroom : l.lacks Level.commandFrames = false) (hno : NoArgument l s)
    (hlayout : s.rest.dropWhile isLayout = s.rest) :
    (command l s (commandsWithin s.left)).Fails := by
  have hskip := Cursor.skip_eq_self hlayout
  have hname : (identifier (s.skip isLayout)).Fails := by
    rw [hskip]
    exact word_fails (fails_orElse.mp hno).2
  have hinvocation : NoArgument l (s.skip isLayout) := by rwa [hskip]
  rw [command, Level.within_of_room hroom, fails_widen]
  refine fails_orElse.mpr ⟨fails_andThen.mpr (.inr (head_fails hname)), ?_⟩
  refine fails_orElse.mpr ⟨fails_andThen.mpr (.inr (head_fails hname)), ?_⟩
  exact fails_andThen.mpr (.inr hinvocation)

/-- An invocation before commands that end properly takes its whole line. -/
theorem endsLine_of_ended (hno : NoArgument l t) (hspace : t.rest.dropWhile isSpace = t.rest)
    (hg : (commands l t).Gives cs u) (hended : Ended u.rest) : EndsLine t.rest := by
  intro d hd
  by_contra hc
  rw [not_or, Bool.not_eq_true] at hc
  have hlayout : t.rest.dropWhile isLayout = t.rest := by
    refine dropWhile_of_head_eq hd ?_
    have hs := head_dropWhile isSpace t.rest d (hspace.symm ▸ hd)
    rw [isLayout, hs, hc.1]
    rfl
  -- no command begins here, so the commands end where the invocation does
  have hroom := room_of_commands hg
  rw [commands_eq, branch_of_fails (command_fails hroom hno hlayout)] at hg
  obtain ⟨rfl, rfl⟩ := gives_accept.mp (gives_since.mp hg)
  rw [Ended, hlayout] at hended
  exact hc.2 (hended d hd)

/-- A command that is read is derived, if more commands or the end follow. -/
theorem command_gives (hn : CommandsSound s.left)
    (hg : (command l s (commandsWithin s.left)).Gives c t)
    (hnext : ∃ cs u, (commands l t).Gives cs u ∧ Ended u.rest) :
    Reads l (s.rest.dropWhile isLayout) (.command c) t.rest := by
  have hskip := Cursor.left_skip_le (p := isLayout) (s := s)
  obtain ⟨cs, u, hcs, hended⟩ := hnext
  rw [command, gives_within, gives_widen] at hg
  obtain ⟨_, hg⟩ := hg
  rcases gives_orElse.mp hg with hg | ⟨_, hg⟩
  · exact definition_gives hg
  rcases gives_orElse.mp hg with hg | ⟨_, hg⟩
  · exact property_gives hg
  · -- only an invocation needs to know what is read after it
    obtain ⟨hreads, hno, hspace⟩ := invocation_gives (fun l t cs u ht => hn (by omega)) hg
    exact hreads (endsLine_of_ended hno hspace hcs hended)

/-- What is read as commands is derived as such, if it ends properly. -/
theorem commandsSound (n : Nat) : CommandsSound n := by
  induction n with
  | zero => exact fun l t cs u h => absurd h (Nat.not_lt_zero _)
  | succ n ih =>
    intro l t cs u h hg hended
    have hn : CommandsSound t.left := fun l v cs w hv => ih (by omega)
    rw [commands_eq] at hg
    rcases gives_branch.mp hg with ⟨first, v, hv, hg⟩ | ⟨hf, hg⟩
    · have hp := hv.progress
      obtain ⟨rest, w, hw, hg⟩ := gives_andThen.mp hg
      obtain ⟨rfl, rfl⟩ := gives_accept.mp hg
      exact .commands (command_gives hn hv ⟨rest, w, hw, hended⟩) (hn hp hw hended)
    · obtain ⟨rfl, rfl⟩ := gives_accept.mp hg
      exact .noCommands (room_of_command (.inl hf))

/-- **Commands that are read up to their end are derived.** -/
theorem reads_of_commands (hg : (commands l s).Gives cs t) (hended : Ended t.rest) :
    Reads l s.rest (.commands cs) t.rest :=
  commandsSound (s.left + 1) (Nat.lt_succ_self _) hg hended

end Planetarium.Grammar
