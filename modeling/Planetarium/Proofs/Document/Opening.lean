import Planetarium.Proofs.Document.Append
import Planetarium.Proofs.Grammar.Opening
import Mathlib

/-!
# How often a document opens a block, a group or a call

A block that has been opened and given up is looked at again: an invocation ends before it, and
the next command begins with it.  There it is given up once more, and then the commands around it
end as well, so it is opened twice for each time that they are read.  Blocks inside each other
multiply this, which is where the power of two comes from.  It is all that happens, and where no
block is given up, nothing is opened twice.
-/
namespace Planetarium.Grammar
open Parsing Text Attempt Cursor

variable {text r : List Char} {n : Nat} {l : Level} {s t : Cursor} {arg : Arg} {c : Command}

/-- No command begins after the layout, and no command ends before it. -/
def Barred (r : List Char) : Prop :=
  ∃ c ∈ (r.dropWhile isLayout).head?, isOperator c ∨ c = ':'

/-- A block begins. -/
def AtBrace (r : List Char) : Prop := r.head? = some '{'

/-- After the layout nothing begins that could be a command, unless it is a block. -/
def Halts (r : List Char) : Prop := Barred r ∨ AtBrace (r.dropWhile isLayout)

theorem dropWhile_trim : (trim l r).dropWhile isLayout = r.dropWhile isLayout := by
  unfold trim
  split
  · exact dropWhile_of_head (head_dropWhile _ _)
  · induction r with
    | nil => rfl
    | cons c cs ih =>
      by_cases hc : isSpace c
      · have hlayout : isLayout c := by simp [isLayout, hc]
        rw [List.dropWhile_cons_of_pos hc, List.dropWhile_cons_of_pos hlayout, ih]
      · rw [List.dropWhile_cons_of_neg hc]

theorem barred_of_head (hc : r.head? = some ':') : Barred r :=
  ⟨':', by rw [dropWhile_of_head_eq hc rfl, hc]; rfl, .inr rfl⟩

theorem barred_of_stuck (h : Stuck l r) : Barred r := by
  obtain ⟨c, hc, hop⟩ := h
  have hlayout : isLayout c = false := by
    rcases eq_of_isOperator hop with rfl | rfl | rfl | rfl <;> rfl
  refine ⟨c, ?_, .inl hop⟩
  rw [← dropWhile_trim (l := l), dropWhile_of_head_eq hc hlayout]
  exact hc

/-! ## Blocks -/

theorem block_of_head {body : Body s.left} (h : ¬ AtBrace s.rest) :
    block l s body = .miss s.offset .openBrace := by
  rw [block, char_of_head h]
  rfl

/-- A block behind its opening brace. -/
def blockRest (l : Level) (k : Nat) (t : Cursor) (h : t.left < n) : Attempt Arg n :=
  if l.isFull then .fault (.nestedTooDeep l.limits.depth) k
  else (commands l.inBlock t).andThen fun commands u hu =>
    have hv := left_skip_le (p := isLayout) (s := u)
    (char '}' (u.skip isLayout)).branch
      (fun _ w hw => .accept (.block commands) w (by omega))
      (fun _ =>
        if (u.skip isLayout).left = 0 then .fault .unterminatedBlock k
        else .miss (u.skip isLayout).offset .closeBrace)

theorem block_of_open (hs : s.rest = '{' :: r) :
    ∃ h, block l s (commandsWithin s.left) =
      (blockRest l s.offset ⟨s.offset + 1, r⟩ h).since [.opened s.offset] := by
  obtain ⟨k, rest⟩ := s
  obtain rfl : rest = '{' :: r := hs
  exact ⟨Nat.lt_succ_self _, rfl⟩

/-- What is asked of the commands inside a block. -/
def BodyClimbs (text : List Char) (n : Nat) : Prop :=
  ∀ ⦃l t⦄, t.left < n → t.Within text → Climbs text t Halts (commands l t)

/-- Behind what its commands have opened a block ends at its brace, or is given up. -/
theorem climbs_blockRest (hb : BodyClimbs text n) {k : Nat} {ht : t.left < n}
    (hw : t.Within text) : Climbs text t (fun _ => False) (blockRest l k t ht) := by
  unfold blockRest
  split
  · exact climbs_stop
  · refine (hb ht hw).andThen fun cs u hu huw _ => ?_
    have huv := huw.offset_le huw.skip (left_skip_le (p := isLayout))
    have hclose := moves_char (c := '}') (huw.skip (p := isLayout))
    constructor
    · refine climbs_branch hclose.openings_eq (fun _ v hv => ?_) fun _ => ?_
      · exact climbs_accept (hclose.within hv)
          (Nat.le_trans huv (hclose.offset_le huw.skip hv))
      · split
        · exact climbs_stop
        · exact climbs_miss
    · -- where the commands have stopped short, no brace closes the block
      intro hhalts
      refine silent_branch hclose.openings_eq (fun _ v hv => ?_) fun _ => ?_
      · have hbrace : u.rest.dropWhile isLayout = '}' :: v.rest := char_of_gives hv
        rw [Halts, Barred, AtBrace, hbrace] at hhalts
        rcases hhalts with ⟨c, ⟨⟩, hop | heq⟩ | heq
        · exact absurd hop (by decide)
        · exact absurd heq (by decide)
        · exact absurd (Option.some.inj heq) (by decide)
      · split
        · exact silent_stop
        · exact silent_miss

/-- A block that does not match behind its opening brace is given up. -/
theorem rejects_of_blockRest_fails {k : Nat} {ht : t.left < n}
    (hf : (blockRest l k t ht).Fails) : (blockRest l k t ht).Rejects := by
  unfold blockRest at hf ⊢
  split at hf
  · exact absurd hf not_fails_fault
  · rename_i hfull
    rw [if_neg hfull]
    rcases fails_andThen.mp hf with ⟨cs, u, hu, hf⟩ | hf
    · rcases fails_branch.mp hf with ⟨_, _, _, hf⟩ | ⟨hclose, hf⟩
      · exact absurd hf not_fails_accept
      · split at hf
        · exact absurd hf not_fails_fault
        · rename_i hleft
          refine ⟨(u.skip isLayout).offset, ?_⟩
          rw [andThen, branch_of_gives hu, branch_of_fails hclose, if_neg hleft]
          simp [miss]
    · exact absurd hf Document.not_mismatched_commands

/-- A block climbs if the commands inside it do. -/
theorem climbs_block (hb : BodyClimbs text s.left) (hs : s.Within text) :
    Climbs text s (fun _ => False) (block l s (commandsWithin s.left)) := by
  by_cases hbrace : AtBrace s.rest
  · obtain ⟨r, hr⟩ := List.head?_eq_some_iff.mp hbrace
    obtain ⟨h, heq⟩ := block_of_open (l := l) hr
    rw [heq]
    exact (climbs_blockRest hb (hs.advance (w := ['{']) hr)).opened (Nat.lt_succ_self _)
      ⟨'{', hs.getElem?.trans hbrace, rfl⟩
  · rw [block_of_head hbrace]
    exact climbs_miss

/-- A block opens no offset more than half as often as its braces would allow. -/
theorem two_mul_count_block (hb : BodyClimbs text s.left) (hs : s.Within text) (k : Nat) :
    2 * (openings (block l s (commandsWithin s.left)).log).count k ≤
      2 ^ braces text s.offset k := by
  by_cases hbrace : AtBrace s.rest
  · obtain ⟨r, hr⟩ := List.head?_eq_some_iff.mp hbrace
    obtain ⟨h, heq⟩ := block_of_open (l := l) hr
    rw [heq]
    exact (climbs_blockRest hb (hs.advance (w := ['{']) hr)).two_mul_count_opened
      (Nat.lt_succ_self _) (hs.getElem?.trans hbrace) k
  · rw [block_of_head hbrace]
    exact Nat.zero_le _

theorem rejects_of_block_fails (hbrace : AtBrace s.rest)
    (hf : (block l s (commandsWithin s.left)).Fails) :
    (block l s (commandsWithin s.left)).Rejects := by
  obtain ⟨r, hr⟩ := List.head?_eq_some_iff.mp hbrace
  obtain ⟨h, heq⟩ := block_of_open (l := l) hr
  rw [heq] at hf ⊢
  exact (rejects_of_blockRest_fails hf).since

/-! ## Arguments -/

theorem word_of_head (h : ∀ c ∈ s.rest.head?, isWordStart c = false) :
    Grammar.word s = .miss s.offset .identifier := by
  rw [Grammar.word, identifier_of_head h]
  rfl

theorem silent_word (hs : s.Within text) : Silent text s (fun _ => True) (Grammar.word s) :=
  have hname := moves_identifier hs
  silent_branch hname.openings_eq
    (fun _ _ ht => silent_accept (hname.within ht) (hname.offset_le hs ht) trivial)
    fun _ => silent_miss

/-- An argument opens what its block opens. -/
theorem openings_argument (hs : s.Within text) :
    openings (argument l s).log = openings (block l s (commandsWithin s.left)).log :=
  openings_orElse fun _ => (silent_word hs).openings_eq

theorem climbs_argument (hb : BodyClimbs text s.left) (hs : s.Within text) :
    Climbs text s (fun _ => False) (argument l s) := by
  refine (climbs_block hb hs).orElse fun _ => ?_
  by_cases hbrace : AtBrace s.rest
  · have hword : ∀ c ∈ s.rest.head?, isWordStart c = false := by
      rw [hbrace]
      rintro c ⟨⟩
      rfl
    rw [word_of_head hword]
    exact .inr silent_miss
  · rw [block_of_head hbrace]
    exact .inl ⟨rfl, (silent_word hs).climbs⟩

/-- At a brace an argument does not match only if the block is given up. -/
theorem rejects_of_argument_fails (hbrace : AtBrace s.rest) (hf : (argument l s).Fails) :
    (argument l s).Rejects := by
  have hblock := (fails_orElse.mp hf).1
  obtain ⟨k, hk⟩ := rejects_of_block_fails hbrace hblock
  refine ⟨k, ?_⟩
  rw [argument, orElse, branch_of_fails hblock]
  exact List.mem_append_left _ hk

theorem openings_argument_of_head (hs : s.Within text) (h : ¬ AtBrace s.rest) :
    openings (argument l s).log = [] := by
  rw [openings_argument hs, block_of_head h]
  rfl

/-- Arguments climb and get stuck where no brace follows. -/
theorem climbs_args (hb : BodyClimbs text n) {before : List Arg} {s : Cursor} {h : s.left ≤ n}
    (hs : s.Within text) : Climbs text s AtBrace (args l (commandsWithin n) before s h) := by
  rw [args]
  have hbody : BodyClimbs text s.left := fun l t ht => hb (Nat.lt_of_lt_of_le ht h)
  refine Climbs.branch (a := argument l s) (climbs_argument hbody hs) (fun arg t ht hw _ => ?_)
    fun hf => ?_
  · have := ht.progress
    have := left_skip_le (p := isSpace) (s := t)
    refine ⟨?_, False.elim⟩
    exact (climbs_args hb hw.skip).mono (hw.offset_le hw.skip left_skip_le) fun _ hr => hr
  · by_cases hbrace : AtBrace s.rest
    · exact .inr (silent_accept hs (Nat.le_refl _) hbrace)
    · exact .inl ⟨openings_argument_of_head hs hbrace, climbs_accept hs (Nat.le_refl _)⟩
termination_by s.left

/-- From where the arguments end on, they have opened what one more argument opens. -/
theorem count_args (hb : BodyClimbs text n) {before as : List Arg} {s : Cursor} {h : s.left ≤ n}
    (hs : s.Within text) (hg : (args l (commandsWithin n) before s h).Gives as t) {k : Nat}
    (hk : t.offset ≤ k) :
    (openings (args l (commandsWithin n) before s h).log).count k ≤
      (openings (argument l t).log).count k := by
  have hbody : BodyClimbs text s.left := fun l t ht => hb (Nat.lt_of_lt_of_le ht h)
  rw [args] at hg ⊢
  rcases gives_branch.mp hg with ⟨arg, u, hu, hg⟩ | ⟨hf, hg⟩
  · have := hu.progress
    have := left_skip_le (p := isSpace) (s := u)
    have hargument : Climbs text s (fun _ => False) (argument l s) := climbs_argument hbody hs
    obtain ⟨hw, -, -⟩ := hargument.ends arg u hu
    have huv := hw.offset_le (hw.skip (p := isSpace)) left_skip_le
    obtain ⟨-, hvt, -⟩ := (climbs_args hb hw.skip).ends as t hg
    rw [branch_of_gives hu]
    exact Nat.le_trans (Nat.le_of_eq (hargument.count_since hu (by omega)))
      (count_args hb hw.skip hg hk)
  · obtain ⟨rfl, rfl⟩ := gives_accept.mp hg
    rw [branch_of_fails hf, log_since, openings_append]
    exact Nat.le_of_eq (congrArg _ (List.append_nil _))
termination_by s.left

theorem not_fails_args {before : List Arg} {s : Cursor} {h : s.left ≤ n} :
    ¬ (args l (commandsWithin n) before s h).Fails := by
  intro hf
  rw [args] at hf
  rcases fails_branch.mp hf with ⟨_, u, hu, hf⟩ | ⟨_, hf⟩
  · have := hu.progress
    have := left_skip_le (p := isSpace) (s := u)
    exact not_fails_args hf
  · exact not_fails_accept hf
termination_by s.left

/-! ## Invocations -/

/-- So does an invocation. -/
theorem climbs_invocation (hb : BodyClimbs text s.left) (hs : s.Within text) :
    Climbs text s AtBrace (invocation l s (commandsWithin s.left)) := by
  refine Climbs.andThen (a := argument l s) (climbs_argument hb hs) fun arg t ht hw _ => ?_
  refine ⟨?_, False.elim⟩
  have := ht.progress
  have := left_skip_le (p := isSpace) (s := t)
  have hbody : BodyClimbs text (t.skip isSpace).left := fun l u hu => hb (by omega)
  refine ((climbs_args hbody hw.skip).mono (hw.offset_le hw.skip left_skip_le)
    fun _ hr => hr).andThen fun as u hu huw _ => ?_
  exact ⟨climbs_accept huw (Nat.le_refl _), fun hhead => silent_accept huw (Nat.le_refl _) hhead⟩

theorem count_invocation (hb : BodyClimbs text s.left) (hs : s.Within text)
    (hg : (invocation l s (commandsWithin s.left)).Gives c t) {k : Nat} (hk : t.offset ≤ k) :
    (openings (invocation l s (commandsWithin s.left)).log).count k ≤
      (openings (argument l t).log).count k := by
  obtain ⟨arg, u, hu, hg⟩ := gives_andThen.mp hg
  obtain ⟨as, v, hv, hg⟩ := gives_andThen.mp hg
  obtain ⟨rfl, rfl⟩ := gives_accept.mp hg
  have := hu.progress
  have := left_skip_le (p := isSpace) (s := u)
  have hargument : Climbs text s (fun _ => False) (argument l s) := climbs_argument hb hs
  obtain ⟨hw, -, -⟩ := hargument.ends arg u hu
  have huv := hw.offset_le (hw.skip (p := isSpace)) left_skip_le
  have hbody : BodyClimbs text (u.skip isSpace).left := fun l t ht => hb (by omega)
  obtain ⟨-, hvt, -⟩ := (climbs_args hbody hw.skip).ends as v hv
  have hcount := count_args hbody hw.skip hv hk
  rw [invocation, andThen, branch_of_gives hu]
  refine Nat.le_trans (Nat.le_of_eq (hargument.count_since hu (by omega))) ?_
  rw [andThen, branch_of_gives hv, log_since, openings_append]
  exact Nat.le_trans (Nat.le_of_eq (congrArg _ (List.append_nil _))) hcount

/-! ## Definitions and properties -/

/-- What comes behind the word that begins here and the blanks after it. -/
def afterWord (r : List Char) : List Char := (r.dropWhile isWordChar).dropWhile isSpace

/-- The word that begins here is the name of a definition or a property. -/
def Heads (r : List Char) : Prop :=
  (∃ c ∈ r.head?, isWordStart c) ∧ (afterWord r).head? = some ':'

theorem not_heads_of_brace (h : AtBrace r) : ¬ Heads r := by
  rintro ⟨⟨c, hc, hstart⟩, -⟩
  obtain rfl := Option.some.inj (h.symm.trans hc)
  exact absurd hstart (by decide)

section Heads
variable {word : List Char} {expected : Expected} {name : String}

theorem afterWord_of_word {v : List Char} (h : Word r name v) :
    afterWord r = v.dropWhile isSpace := by
  have hdrop := (takeWhile_append_of_ends (all_isWordChar h.isName) h.ends).2
  rw [afterWord, h.1, hdrop]

theorem afterWord_of_head (hg : (head word expected s).Gives name t) :
    ∃ v, afterWord s.rest = word ++ v ∧ t.rest = v.dropWhile isSpace := by
  obtain ⟨r, v, hname, hsign, hrest⟩ := head_gives hg
  exact ⟨v, (afterWord_of_word hname).trans hsign, hrest⟩

theorem silent_head (hs : s.Within text) :
    Silent text s (fun _ => True) (head word expected s) := by
  have hname := moves_identifier hs
  refine silent_branch hname.openings_eq (fun name t ht => ?_) fun _ => silent_miss
  split
  · exact silent_miss
  · rename_i v hv
    have hskip : (t.skip isSpace).Within text := (hname.within ht).skip
    have hw : v.Within text := by
      have := hskip.advance (Cursor.after?_offset hv).2
      rwa [← (Cursor.after?_offset hv).1] at this
    refine silent_accept hw.skip (hs.offset_le hw.skip ?_) trivial
    have := ht.progress
    have := left_skip_le (p := isSpace) (s := t)
    have := left_after? hv
    have := left_skip_le (p := isSpace) (s := v)
    omega

theorem identifier_of_start (h : ∃ c ∈ s.rest.head?, isWordStart c) :
    ∃ name t, (identifier s).Gives name t := by
  obtain ⟨c, hc, hstart⟩ := h
  obtain ⟨k, rest⟩ := s
  obtain ⟨cs, rfl⟩ := List.head?_eq_some_iff.mp hc
  simp only [identifier, if_pos hstart]
  exact ⟨_, _, gives_accept.mpr ⟨rfl, rfl⟩⟩

theorem fails_head (h : (∃ c ∈ s.rest.head?, isWordStart c) → ∀ v, afterWord s.rest ≠ word ++ v) :
    (head word expected s).Fails := by
  by_cases hstart : ∃ c ∈ s.rest.head?, isWordStart c
  · obtain ⟨name, t, ht⟩ := identifier_of_start hstart
    refine fails_branch.mpr (.inl ⟨name, t, ht, ?_⟩)
    split
    · rfl
    · rename_i v hv
      have hsign := (Cursor.after?_offset hv).2
      exact absurd ((afterWord_of_word (word_of_gives ht)).trans hsign) (h hstart v.rest)
  · have hname : identifier s = .mismatch := identifier_of_head fun c hc =>
      Bool.eq_false_iff.mpr fun hw => hstart ⟨c, hc, hw⟩
    exact head_fails (by rw [hname]; rfl)

/-- A rule that begins with the name and the sign opens nothing where these do not match. -/
theorem fails_of_head {α : Type} {m : Nat} {f : (name : String) → (t : Cursor) → t.left < s.left →
    Attempt α m} (hs : s.Within text) (hf : (head word expected s).Fails) :
    ((head word expected s).andThen f).Fails ∧
      openings ((head word expected s).andThen f).log = [] := by
  have hfails : ((head word expected s).andThen f).Fails := fails_andThen.mpr (.inr hf)
  exact ⟨hfails, openings_andThen (silent_head hs).openings_eq hfails fun _ _ hg =>
    absurd hf hg.not_fails⟩

end Heads

/-- A definition climbs. -/
theorem climbs_definition (hs : s.Within text) : Climbs text s Barred (definition l s) := by
  refine climbs_andThen (silent_head hs).openings_eq fun name t ht => ?_
  obtain ⟨hw, hst, -⟩ := (silent_head hs).ends name t ht
  refine ((climbs_expression hw).andThen fun e u hu huw _ => ?_).mono hst fun _ hr => hr
  exact ⟨climbs_accept huw (Nat.le_refl _),
    fun hstuck => silent_accept huw (Nat.le_refl _) (barred_of_stuck hstuck)⟩

/-- So does a property. -/
theorem climbs_property (hs : s.Within text) : Climbs text s Barred (property l s) := by
  refine climbs_andThen (silent_head hs).openings_eq fun name t ht => ?_
  obtain ⟨hw, hst, -⟩ := (silent_head hs).ends name t ht
  have hquoted := moves_quotedString hw
  refine climbs_branch hquoted.openings_eq (fun _ u hu => ?_) fun _ => ?_
  · have huw := hquoted.within hu
    exact climbs_accept huw.skip (Nat.le_trans hst
      (Nat.le_trans (hquoted.offset_le hw hu) (huw.offset_le huw.skip left_skip_le)))
  · refine ((climbs_expression hw).andThen fun e u hu huw _ => ?_).mono hst fun _ hr => hr
    exact ⟨climbs_accept huw (Nat.le_refl _),
      fun hstuck => silent_accept huw (Nat.le_refl _) (barred_of_stuck hstuck)⟩

/-- The sign of a definition is not taken for the colon of a property. -/
theorem silent_property {u : List Char} (hs : s.Within text)
    (hsign : afterWord s.rest = ':' :: '=' :: u) : Silent text s Barred (property l s) := by
  refine silent_andThen (silent_head hs).openings_eq fun name t ht => ?_
  obtain ⟨v, hv, hrest⟩ := afterWord_of_head ht
  obtain rfl : v = '=' :: u := (List.cons.inj (hsign.symm.trans hv)).2.symm
  have hhead : t.rest.head? = some '=' := by rw [hrest]; rfl
  have hno : NoAtom (trim l t.rest) := by
    rw [trim_of_head_eq hhead rfl]
    exact noAtom_of_head hhead rfl
  obtain ⟨hnil, hnone⟩ := expression_of_noAtom (l := l.inAssignment) (s := t) hno
  rw [quotedString_of_head (by rw [hhead]; decide)]
  exact silent_andThen hnil fun e u hu => absurd hu (hnone e u)

/-- Neither a block nor a word begins with an operator or a colon. -/
theorem argument_of_head (h : ∃ c ∈ s.rest.head?, isOperator c ∨ c = ':') :
    (argument l s).Fails ∧ openings (argument l s).log = [] ∧ ¬ Heads s.rest := by
  obtain ⟨c, hc, hbar⟩ := h
  have hplain : c ≠ '{' ∧ isWordStart c = false := by
    rcases hbar with hop | rfl
    · rcases eq_of_isOperator hop with rfl | rfl | rfl | rfl <;> decide
    · decide
  have hblock : s.rest.head? ≠ some '{' := fun hhead =>
    hplain.1 (Option.some.inj (hc.symm.trans hhead))
  have hword : ∀ d ∈ s.rest.head?, isWordStart d = false := by
    intro d hd
    obtain rfl := Option.some.inj (hc.symm.trans hd)
    exact hplain.2
  refine ⟨?_, ?_, fun ⟨⟨d, hd, hstart⟩, _⟩ => absurd hstart (by rw [hword d hd]; decide)⟩
  all_goals
    rw [argument, block_of_head hblock, word_of_head hword]
    rfl

theorem argument_fails_of_invocation (hf : (invocation l s (commandsWithin s.left)).Fails) :
    (argument l s).Fails := by
  rcases fails_andThen.mp hf with ⟨_, u, _, hf⟩ | hf
  · rcases fails_andThen.mp hf with ⟨_, _, _, hf⟩ | hf
    · exact absurd hf not_fails_accept
    · exact absurd hf not_fails_args
  · exact hf

/-- In front of a colon an invocation is the word alone. -/
theorem silent_invocation (hs : s.Within text) (h : Heads s.rest) :
    Silent text s Barred (invocation l s (commandsWithin s.left)) ∧
      ¬ (invocation l s (commandsWithin s.left)).Fails := by
  obtain ⟨⟨c, hc, hstart⟩, hcolon⟩ := h
  obtain ⟨name, t, ht⟩ := identifier_of_start ⟨c, hc, hstart⟩
  have hblock : s.rest.head? ≠ some '{' := by
    intro hhead
    obtain rfl := Option.some.inj (hc.symm.trans hhead)
    exact absurd hstart (by decide)
  have hargument : (argument l s).Gives (.word name) t := by
    rw [argument, block_of_head hblock]
    refine gives_orElse.mpr (.inr ⟨rfl, gives_branch.mpr (.inl ⟨name, t, ht, ?_⟩)⟩)
    exact gives_accept.mpr ⟨rfl, rfl⟩
  refine ⟨?_, fun hf => hargument.not_fails (argument_fails_of_invocation hf)⟩
  have hnil : openings (argument l s).log = [] := by
    rw [openings_argument hs, block_of_head hblock]
    rfl
  refine silent_andThen (a := argument l s) hnil fun arg v hv => ?_
  obtain ⟨rfl, rfl⟩ := hargument.unique hv
  have hhead : (t.skip isSpace).rest.head? = some ':' := by
    rw [← hcolon, afterWord_of_word (word_of_gives ht)]
    rfl
  have hw := (moves_identifier hs).within ht
  have hst := hs.offset_le (hw.skip (p := isSpace))
    (Nat.le_trans left_skip_le (Nat.le_of_lt ht.progress))
  obtain ⟨hfails, hopens, -⟩ := argument_of_head (l := l) ⟨':', hhead, .inr rfl⟩
  have hargs : Silent text s Barred (args l (n := (t.skip isSpace).left)
      (commandsWithin _) [.word name] (t.skip isSpace) (Nat.le_refl _)) := by
    rw [args]
    exact silent_branch (a := argument l (t.skip isSpace)) hopens
      (fun _ _ hg => absurd hfails hg.not_fails)
      fun _ => silent_accept hw.skip hst (barred_of_head hhead)
  refine silent_andThen hargs.openings_eq fun as u hu => ?_
  obtain ⟨huw, hsu, hbarred⟩ := hargs.ends as u hu
  exact silent_accept huw hsu hbarred

/-! ## Commands -/

theorem definition_fails (hs : s.Within text) (h : ∀ u, afterWord s.rest ≠ ':' :: '=' :: u) :
    (definition l s).Fails ∧ openings (definition l s).log = [] :=
  fails_of_head hs (fails_head fun _ => h)

theorem climbs_commandAt_of_heads (hs : s.Within text) (h : Heads s.rest) :
    Climbs text s Barred (commandAt l s) ∧ ¬ (commandAt l s).Fails := by
  obtain ⟨hinvocation, hnot⟩ := silent_invocation (l := l) hs h
  refine ⟨?_, fun hf => hnot (fails_orElse.mp (fails_orElse.mp hf).2).2⟩
  refine (climbs_definition hs).orElse fun _ => ?_
  by_cases hsign : ∃ u, afterWord s.rest = ':' :: '=' :: u
  · obtain ⟨u, hu⟩ := hsign
    exact .inr ((silent_property hs hu).orElse fun _ => hinvocation)
  · have hdefinition := definition_fails (l := l) hs fun u hu => hsign ⟨u, hu⟩
    exact .inl ⟨hdefinition.2, (climbs_property hs).orElse fun _ => .inr hinvocation⟩

theorem commandAt_of_not_heads (hs : s.Within text) (h : ¬ Heads s.rest) :
    ∃ log, openings log = [] ∧
      commandAt l s = (invocation l s (commandsWithin s.left)).since log := by
  have hno : ∀ w, (∃ c ∈ s.rest.head?, isWordStart c) → ∀ v, afterWord s.rest ≠ ':' :: w ++ v :=
    fun w hstart v hv => h ⟨hstart, by rw [hv]; rfl⟩
  obtain ⟨hdefinition, hd⟩ : (definition l s).Fails ∧ openings (definition l s).log = [] :=
    fails_of_head hs (fails_head (hno ['=']))
  obtain ⟨hproperty, hp⟩ : (property l s).Fails ∧ openings (property l s).log = [] :=
    fails_of_head hs (fails_head (hno []))
  refine ⟨(definition l s).log ++ (property l s).log, ?_, ?_⟩
  · rw [openings_append, hd, hp]
    rfl
  · rw [commandAt, orElse, branch_of_fails hdefinition, orElse, branch_of_fails hproperty,
      since_since]

theorem invocation_fails (hf : (argument l s).Fails) :
    (invocation l s (commandsWithin s.left)).Fails ∧
      (invocation l s (commandsWithin s.left)).log = (argument l s).log :=
  ⟨fails_andThen.mpr (.inr hf),
    (congrArg Attempt.log (branch_of_fails hf)).trans (List.append_nil _)⟩

/-- Where there is room for a command, commands are one and the others behind it, or none. -/
theorem commands_of_room {r : Cursor} (hroom : l.lacks Level.commandFrames = false)
    (hr : r = s.skip isLayout) : ∃ h : r.left ≤ s.left, commands l s = (commandAt l r).branch
      (fun first t ht => prepend [first] (commands l t)
        (Nat.succ_le_succ (Nat.le_of_lt (Nat.lt_of_lt_of_le ht h))))
      (fun _ => .accept [] s (Nat.lt_succ_self _)) := by
  obtain ⟨h, heq⟩ := Document.commands_eq_commandAt (l := l) hr
  rw [Level.within_of_room hroom] at heq
  exact ⟨h, heq⟩

/-- Without room for them commands are not read. -/
theorem commands_of_lacks (hroom : l.lacks Level.commandFrames = true) :
    commands l s = stop .exhausted := by
  obtain ⟨_, heq⟩ := Document.commands_eq_commandAt (l := l) (s := s) rfl
  rw [heq, Level.within_of_lacks hroom]
  rfl

/-- Where no argument begins, there are no commands. -/
theorem commands_of_argument_fails {r : Cursor} (hroom : l.lacks Level.commandFrames = false)
    (hs : s.Within text) (hr : r = s.skip isLayout)
    (hf : (argument l r).Fails) (hheads : ¬ Heads r.rest) :
    ∃ log, openings log = [] ∧ commands l s =
      (accept [] s (Nat.lt_succ_self _)).since (log ++ (argument l r).log) := by
  obtain ⟨hle, heq⟩ := commands_of_room hroom hr
  have hrw : r.Within text := hr ▸ hs.skip
  obtain ⟨log, hnil, hat⟩ := commandAt_of_not_heads (l := l) hrw hheads
  obtain ⟨hinvocation, hlog⟩ := invocation_fails hf
  refine ⟨log, hnil, ?_⟩
  rw [heq, hat, branch_since, branch_of_fails hinvocation, hlog, since_since]

/-- Where nothing can be read commands open nothing. -/
theorem silent_commands (hs : s.Within text) (h : Barred s.rest) :
    Silent text s Halts (commands l s) := by
  obtain ⟨hf, hopens, hheads⟩ := argument_of_head (l := l) (s := s.skip isLayout) h
  cases hroom : l.lacks Level.commandFrames with
  | true =>
    rw [commands_of_lacks hroom]
    exact silent_stop
  | false =>
    obtain ⟨log, hnil, heq⟩ := commands_of_argument_fails hroom hs rfl hf hheads
    rw [heq]
    refine (silent_accept hs (Nat.le_refl _) (.inl h)).since_misses ?_
    rw [openings_append, hnil, hopens]
    rfl

theorem silent_prepend {cs : List Command} {m : Nat} {a : Attempt (List Command) m} (hm : m ≤ n)
    {halt : List Char → Prop} (ha : Silent text s halt a) :
    Silent text s halt (prepend cs a hm) := by
  refine silent_andThen ha.openings_eq fun rest t ht => ?_
  obtain ⟨hw, hst, hhalt⟩ := ha.ends rest t ht
  exact silent_accept hw hst hhalt

theorem climbs_prepend {cs : List Command} {m : Nat} {a : Attempt (List Command) m} (hm : m ≤ n)
    {halt : List Char → Prop} (ha : Climbs text s halt a) :
    Climbs text s halt (prepend cs a hm) :=
  ha.andThen fun _ _ _ hw _ => ⟨climbs_accept hw (Nat.le_refl _),
    fun hhalt => silent_accept hw (Nat.le_refl _) hhalt⟩

theorem prepend_since {cs ds : List Command} {m : Nat} {h : s.left < m} {hm : m ≤ n}
    {log : List Event} : prepend cs ((accept ds s h).since log) hm =
      (accept (cs ++ ds) s (Nat.lt_of_lt_of_le h hm)).since log := by
  rw [prepend, andThen, branch_since]
  rfl

/-- An invocation and the commands behind it open twice what the block between them does. -/
theorem climbs_prepend_again (hroom : l.lacks Level.commandFrames = false)
    (hb : BodyClimbs text s.left) (hs : s.Within text)
    (hg : (invocation l s (commandsWithin s.left)).Gives c t) (hbrace : AtBrace t.rest)
    (hm : t.left + 1 ≤ n) :
    Climbs text s Halts ((prepend [c] (commands l t) hm).since
      (invocation l s (commandsWithin s.left)).log) := by
  have hinvocation := climbs_invocation (l := l) hb hs
  obtain ⟨hw, hst, -⟩ := hinvocation.ends c t hg
  have hbody : BodyClimbs text t.left := fun l u hu => hb (Nat.lt_trans hu hg.progress)
  have hhalts : Halts t.rest := .inr (by rwa [dropWhile_of_head_eq hbrace rfl])
  have hfails : (argument l t).Fails := (invocation_gives (commandsSound s.left) hg).2.1
  have hskip : t = t.skip isLayout := (skip_eq_self (dropWhile_of_head_eq hbrace rfl)).symm
  obtain ⟨log, hnil, heq⟩ := commands_of_argument_fails hroom hw hskip hfails
    (not_heads_of_brace hbrace)
  rw [heq, prepend_since]
  have hopens : openings (log ++ (argument l t).log) = openings (argument l t).log := by
    rw [openings_append, hnil, List.nil_append]
  have hnext : openings ((accept ([c] ++ []) t (Nat.lt_of_lt_of_le (Nat.lt_succ_self _) hm)).since
      (log ++ (argument l t).log)).log = openings (argument l t).log := by
    rw [log_since, openings_append, hopens]
    exact List.append_nil _
  refine Climbs.since_again (t := t) ?_ hinvocation (fun k => ?_) (fun k hk => ?_) hst ?_
    fun v u hu => ?_
  · rw [← since_since]
    exact ((climbs_argument hbody hw).since_silent
      (silent_accept hw (Nat.le_refl _) hhalts)).since_misses hnil
  · rw [hnext, openings_argument hw]
    exact two_mul_count_block hbody hw k
  · rw [hnext]
    exact count_invocation hb hs hg hk
  · rw [← since_since]
    obtain ⟨k, hk⟩ := rejects_of_argument_fails hbrace hfails
    exact Rejects.since ⟨k, List.mem_append_left _ hk⟩
  · obtain ⟨-, rfl⟩ := gives_accept.mp hu
    exact hhalts

theorem climbs_commands_of_room (hroom : l.lacks Level.commandFrames = false)
    (hb : BodyClimbs text s.left) (hs : s.Within text) :
    Climbs text s Halts (commands l s) := by
  obtain ⟨hle, heq⟩ := commands_of_room (s := s) hroom rfl
  have hr : (s.skip isLayout).Within text := hs.skip
  have hsr : s.offset ≤ (s.skip isLayout).offset := hs.offset_le hr left_skip_le
  rw [heq]
  by_cases hheads : Heads (s.skip isLayout).rest
  · obtain ⟨hcommand, hnot⟩ := climbs_commandAt_of_heads (l := l) hr hheads
    refine (hcommand.mono hsr fun _ h => h).branch (fun c t ht hw _ => ?_)
      fun hf => absurd hf hnot
    have hlt := ht.progress
    exact ⟨climbs_prepend _ (hb (by omega) hw),
      fun hbarred => silent_prepend _ (silent_commands hw hbarred)⟩
  · obtain ⟨log, hnil, hat⟩ := commandAt_of_not_heads (l := l) hr hheads
    have hbody : BodyClimbs text (s.skip isLayout).left := fun l t ht => hb (by omega)
    have hinvocation := (climbs_invocation (l := l) hbody hr).mono hsr fun _ h => h
    rw [hat, branch_since]
    refine (hinvocation.branch_of (fun c t ht hw _ => ?_) fun hf => ?_).since_misses hnil
    · have hlt := ht.progress
      refine ⟨climbs_prepend _ (hb (by omega) hw), fun hbrace => ?_⟩
      exact (climbs_prepend_again hroom hbody hr ht hbrace _).mono hsr fun _ h => h
    · have hargument := argument_fails_of_invocation hf
      by_cases hbrace : AtBrace (s.skip isLayout).rest
      · exact hinvocation.since_silent (silent_accept hs (Nat.le_refl _) (.inr hbrace))
      · refine (climbs_accept hs (Nat.le_refl _)).since_misses ?_
        rw [(invocation_fails hargument).2]
        exact openings_argument_of_head hr hbrace

/-- Commands climb if those inside blocks do. -/
theorem climbs_commands_of (hb : BodyClimbs text s.left) (hs : s.Within text) :
    Climbs text s Halts (commands l s) := by
  cases hroom : l.lacks Level.commandFrames with
  | true =>
    rw [commands_of_lacks hroom]
    exact climbs_stop
  | false => exact climbs_commands_of_room hroom hb hs

theorem bodyClimbs (n : Nat) : BodyClimbs text n := by
  induction n with
  | zero => exact fun l t ht => absurd ht (Nat.not_lt_zero _)
  | succ n ih =>
    exact fun l t ht hw => climbs_commands_of (fun l u hu => ih (by omega)) hw

/-- Commands open an offset at most twice as often for each brace before it, and open further and
further on unless a block is given up. -/
theorem climbs_commands (hs : s.Within text) : Climbs text s Halts (commands l s) :=
  climbs_commands_of (bodyClimbs _) hs

/-! ## Blocks inside each other -/

/-- Words with blocks inside each other, the innermost of which ends at a colon. -/
def nested : Nat → List Char
  | 0 => [':']
  | n + 1 => 'a' :: ' ' :: '{' :: nested n

/-- A block whose commands end short of its brace is given up. -/
theorem argument_of_short {cs : List Command} (hs : s.Within text) (hopen : s.rest = '{' :: r)
    (hfull : l.isFull = false) (hg : (commands l.inBlock ⟨s.offset + 1, r⟩).Gives cs t)
    (hshort : AtBrace t.rest ∨ t.rest.head? = some ':') :
    (argument l s).Fails ∧ openings (argument l s).log =
      s.offset :: openings (commands l.inBlock ⟨s.offset + 1, r⟩).log := by
  obtain ⟨h, heq⟩ := block_of_open (l := l) hopen
  obtain ⟨c, hc, hlayout, hclose⟩ : ∃ c, t.rest.head? = some c ∧ isLayout c = false ∧ c ≠ '}' := by
    rcases hshort with hc | hc
    · exact ⟨_, hc, rfl, by decide⟩
    · exact ⟨_, hc, rfl, by decide⟩
  have hskip : t.skip isLayout = t := skip_eq_self (dropWhile_of_head_eq hc hlayout)
  have hleft : (t.skip isLayout).left ≠ 0 := by
    obtain ⟨cs, hcs⟩ := List.head?_eq_some_iff.mp hc
    rw [hskip, Cursor.left, hcs]
    exact Nat.succ_ne_zero _
  have hchar : char '}' (t.skip isLayout) = .mismatch := by
    rw [hskip]
    exact char_of_head fun heq => hclose (Option.some.inj (hc.symm.trans heq))
  have hrest : blockRest l s.offset ⟨s.offset + 1, r⟩ h =
      (miss (t.skip isLayout).offset .closeBrace).since
        (commands l.inBlock ⟨s.offset + 1, r⟩).log := by
    rw [blockRest, hfull, if_neg Bool.false_ne_true, andThen, branch_of_gives hg, hchar]
    exact congrArg _ (if_neg hleft)
  have hword : Grammar.word s = .miss s.offset .identifier :=
    word_of_head (by rw [hopen]; rintro c ⟨⟩; rfl)
  constructor
  · rw [argument, heq, hrest, hword]
    rfl
  · rw [openings_argument hs, heq, hrest, since_since, log_since, openings_append, openings_append]
    exact List.append_nil _

/-- After a word a block that is given up is opened again by the next command. -/
theorem commands_of_given_up {k : Nat} (hroom : l.lacks Level.commandFrames = false)
    (ht : Within text ⟨k + 2, '{' :: r⟩)
    (hf : (argument l ⟨k + 2, '{' :: r⟩).Fails) :
    (commands l ⟨k, 'a' :: ' ' :: '{' :: r⟩).Gives [.invocation [.word "a"]] ⟨k + 2, '{' :: r⟩ ∧
      openings (commands l ⟨k, 'a' :: ' ' :: '{' :: r⟩).log =
        openings (argument l ⟨k + 2, '{' :: r⟩).log ++
          openings (argument l ⟨k + 2, '{' :: r⟩).log := by
  have hargs : args l (commandsWithin (left ⟨k + 2, '{' :: r⟩)) [.word "a"] ⟨k + 2, '{' :: r⟩
      (Nat.le_refl _) = (accept [.word "a"] ⟨k + 2, '{' :: r⟩ (Nat.lt_succ_self _)).since
        (argument l ⟨k + 2, '{' :: r⟩).log := by
    rw [args]
    exact branch_of_fails hf
  have hlt : left ⟨k + 2, '{' :: r⟩ < left ⟨k, 'a' :: ' ' :: '{' :: r⟩ :=
    Nat.lt_succ_of_lt (Nat.lt_succ_self _)
  have hinvocation : invocation l ⟨k, 'a' :: ' ' :: '{' :: r⟩ (commandsWithin _) =
      ((args l (commandsWithin (left ⟨k + 2, '{' :: r⟩)) [.word "a"] ⟨k + 2, '{' :: r⟩
        (Nat.le_refl _)).andThen
          fun as u hu => accept (.invocation as) u (by omega)).since [.missed k .openBrace] := rfl
  have hcommand : commandAt l ⟨k, 'a' :: ' ' :: '{' :: r⟩ =
      (invocation l ⟨k, 'a' :: ' ' :: '{' :: r⟩ (commandsWithin _)).since
        [.missed (k + 2) .define, .missed (k + 2) .colon] := rfl
  obtain ⟨hle, heq⟩ := commands_of_room (s := ⟨k, 'a' :: ' ' :: '{' :: r⟩)
    (r := ⟨k, 'a' :: ' ' :: '{' :: r⟩) hroom rfl
  obtain ⟨log, hnil, hnext⟩ := commands_of_argument_fails hroom ht (skip_eq_self rfl).symm hf
    (not_heads_of_brace rfl)
  have hwhole : commands l ⟨k, 'a' :: ' ' :: '{' :: r⟩ =
      (((prepend [.invocation [.word "a"]] (commands l ⟨k + 2, '{' :: r⟩)
        (Nat.succ_le_succ (Nat.le_of_lt hlt))).since (argument l ⟨k + 2, '{' :: r⟩).log).since
          [.missed k .openBrace]).since [.missed (k + 2) .define, .missed (k + 2) .colon] := by
    rw [heq, hcommand, hinvocation, hargs, andThen]
    simp only [branch_since]
    rfl
  rw [hwhole, hnext, prepend_since]
  refine ⟨gives_accept.mpr ⟨rfl, rfl⟩, ?_⟩
  simp only [log_since, openings_append, hnil]
  exact congrArg (openings (argument l ⟨k + 2, '{' :: r⟩).log ++ ·) (List.append_nil _)

/-- The innermost block is opened twice as often for each word around it. -/
theorem count_nested (n : Nat) {l : Level} {s : Cursor} (hs : s.Within text)
    (hrest : s.rest = nested n) (hdepth : l.depth + n ≤ l.limits.depth)
    (hroom : l.lacks (Level.commandFrames * (n + 1)) = false) :
    (∃ cs t, (commands l s).Gives cs t ∧ (AtBrace t.rest ∨ t.rest.head? = some ':')) ∧
      ∀ m, n = m + 1 → (openings (commands l s).log).count (s.offset + 3 * m + 2) = 2 ^ n := by
  induction n generalizing l s with
  | zero =>
    have hhead : s.rest.head? = some ':' := by rw [hrest]; rfl
    have hskip : s = s.skip isLayout := (skip_eq_self (dropWhile_of_head_eq hhead rfl)).symm
    obtain ⟨hf, -, hheads⟩ := argument_of_head (l := l) ⟨':', hhead, .inr rfl⟩
    obtain ⟨log, -, heq⟩ := commands_of_argument_fails hroom hs hskip hf hheads
    exact ⟨⟨[], s, by rw [heq]; exact gives_accept.mpr ⟨rfl, rfl⟩, .inr hhead⟩, nofun⟩
  | succ n ih =>
    obtain ⟨k, rest⟩ := s
    obtain rfl : rest = 'a' :: ' ' :: '{' :: nested n := hrest
    have ht : Within text ⟨k + 2, '{' :: nested n⟩ := hs.advance (w := ['a', ' ']) rfl
    have hinner : Within text ⟨k + 3, nested n⟩ := hs.advance (w := ['a', ' ', '{']) rfl
    obtain ⟨⟨cs, u, hu, hshort⟩, hcount⟩ := ih (l := l.inBlock) hinner rfl
      (by simp only [Level.inBlock]; omega)
      (by rw [Level.lacks_inBlock, Nat.add_comm]; exact hroom)
    have hfull : l.isFull = false := Level.isFull_eq_false.mpr (by omega)
    have hcommand : l.lacks Level.commandFrames = false :=
      Level.lacks_of_le (Nat.le_mul_of_pos_right _ (Nat.succ_pos _)) hroom
    obtain ⟨hfails, hopenings⟩ := argument_of_short ht rfl hfull hu hshort
    obtain ⟨hgives, htwice⟩ := commands_of_given_up hcommand ht hfails
    refine ⟨⟨_, _, hgives, .inl rfl⟩, fun m hm => ?_⟩
    obtain rfl := Nat.succ.inj hm
    rw [htwice, hopenings, List.count_append, ← Nat.two_mul, Nat.pow_succ']
    refine congrArg (2 * ·) ?_
    cases n with
    | zero =>
      rw [List.count_cons_self, List.count_eq_zero_of_not_mem]
      exact fun hmem => Nat.lt_irrefl _ ((climbs_commands hinner).offset_le _ hmem)
    | succ n =>
      rw [List.count_cons_of_ne (by simp only; omega), ← hcount n rfl]
      exact congrArg (List.count · _) (by simp only; omega)

end Planetarium.Grammar

namespace Planetarium.Document
open Parsing Text Attempt Cursor

variable {limits : Limits} {text : List Char} {cs : List Command}

/-- The offsets at which a block, a group or a call is opened while a text is read as a document,
one after another. -/
def openingsOf (limits : Limits) (text : List Char) : List Nat :=
  openings (Grammar.commands { limits } (.start text)).log

/-- A block is given up while the text is read as a document. -/
def GivesUp (limits : Limits) (text : List Char) : Prop :=
  (Grammar.commands { limits } (.start text)).Rejects

/-- Only what can be opened is opened. -/
theorem mem_findIdxs_of_openingsOf {k : Nat} (h : k ∈ openingsOf limits text) :
    k ∈ text.findIdxs opens := by
  obtain ⟨c, hc, hopens⟩ := (Grammar.climbs_commands within_start).opens k h
  obtain ⟨hk, rfl⟩ := List.getElem?_eq_some_iff.mp hc
  exact (List.mem_findIdxs_iff_pos_getElem hk).mpr hopens

/-- Behind a document that is accepted nothing has been given up. -/
theorem pairwise_of_ok (h : ofChars limits text = .ok cs) :
    (openingsOf limits text).Pairwise (· < ·) := by
  obtain ⟨t, hgives, hend⟩ := Grammar.ofChars_document_iff_gives.mp h
  obtain ⟨-, -, ⟨hpairwise, -⟩ | hhalts⟩ := (Grammar.climbs_commands within_start).ends cs t hgives
  · exact hpairwise
  · rw [Grammar.Halts, Grammar.Barred, Grammar.AtBrace, hend] at hhalts
    simp at hhalts

/-- **Nothing is opened twice unless a block is given up.** Only braces and parentheses are opened,
and each of them at most twice as often for each opening brace up to it.  In a text that is
accepted, and in any text none of whose blocks is given up, each of them is opened once at most, so
no more is opened than there is to be opened. -/
theorem openings_bounded (limits : Limits) (text : List Char) :
    (∀ k ∈ openingsOf limits text, ∃ c ∈ text[k]?, opens c) ∧
      (∀ k, (openingsOf limits text).count k ≤ 2 ^ (text.take (k + 1)).count '{') ∧
      ((∃ cs, ofChars limits text = .ok cs) ∨ ¬ GivesUp limits text →
        (openingsOf limits text).Nodup ∧
          (openingsOf limits text).length ≤ text.countP opens) := by
  have hclimbs : Climbs text (.start text) Grammar.Halts
      (Grammar.commands { limits } (.start text)) := Grammar.climbs_commands within_start
  refine ⟨hclimbs.opens, fun k => ?_, fun h => ?_⟩
  · have := hclimbs.count_le k
    rwa [braces] at this
  · have hpairwise : (openingsOf limits text).Pairwise (· < ·) := by
      rcases h with ⟨cs, hok⟩ | hkept
      · exact pairwise_of_ok hok
      · exact hclimbs.rises.resolve_left hkept
    have hnodup : (openingsOf limits text).Nodup := hpairwise.imp Nat.ne_of_lt
    refine ⟨hnodup, ?_⟩
    rw [← List.length_findIdxs]
    exact (List.Nodup.subperm hnodup fun k hk => mem_findIdxs_of_openingsOf hk).length_le

theorem openings_bounded_sample :
    (∃ cs, ofChars {} "a \x7b b: f(x) \x7d".toList = .ok cs) ∧
      (openingsOf {} "a \x7b b: f(x) \x7d".toList).length ≤ 2 := by
  have hok : ∃ cs, ofChars {} "a \x7b b: f(x) \x7d".toList = .ok cs :=
    ⟨[.invocation [.word "a", .block [.property "b" (.expr (.call "f" [.ident "x"]))]]], by cbv⟩
  exact ⟨hok, ((openings_bounded {} "a \x7b b: f(x) \x7d".toList).2.2 (.inl hok)).2⟩

/-- Two openings for each word around it is what the innermost of some blocks takes, if the limits
allow them all. -/
theorem count_openingsOf_nested (n : Nat) (h : n + 1 ≤ limits.depth)
    (hroom : Level.lacks { limits } (Level.commandFrames * (n + 2)) = false) :
    (openingsOf limits (Grammar.nested (n + 1))).count (3 * n + 2) = 2 ^ (n + 1) := by
  have hs : (start (Grammar.nested (n + 1))).Within (Grammar.nested (n + 1)) := within_start
  have hcount :=
    (Grammar.count_nested (l := { limits }) (n + 1) hs rfl (by simpa using h) hroom).2 n
    rfl
  rwa [start, Nat.zero_add] at hcount

example : (openingsOf {} "a \x7b:".toList).count 2 = 2 := 
  count_openingsOf_nested 0 (by decide) (by decide)

end Planetarium.Document
