import Planetarium.Proofs.Document.WellFormed
import Planetarium.Proofs.Grammar.CommandComplete

/-!
# Running out of room

Nothing is missed between one opening parenthesis and the next.  Where more groups are opened
inside each other than there is room for, the reading therefore stops without having missed
anything since the first of them.
-/
namespace Planetarium.Parsing.Attempt
open Text

variable {α β : Type} {n m : Nat}

/-- The attempt stops for lack of room before anything is missed. -/
def RunsOut (a : Attempt α n) : Prop := a.outcome = .stopped .exhausted ∧ misses a.log = []

variable {a : Attempt α n} {v : α} {t : Cursor}
  {f : (value : α) → (next : Cursor) → next.left < n → Attempt β m} {g : Unit → Attempt β m}

/-- Events other than misses may come before. -/
theorem RunsOut.since (h : a.RunsOut) {log : List Event} (hlog : misses log = []) :
    (a.since log).RunsOut :=
  ⟨h.1, by rw [log_since, misses_append, hlog, h.2]; rfl⟩

/-- A branch runs out if its test does. -/
theorem RunsOut.branch (h : a.RunsOut) : (a.branch f g).RunsOut := by
  obtain ⟨_, log⟩ := a
  obtain ⟨rfl, hlog⟩ := h
  exact ⟨rfl, hlog⟩

/-- It runs out if its test gives something without a miss and its first way runs out. -/
theorem runsOut_of_gives (h : a.Gives v t) (hlog : misses a.log = [])
    (hf : (f v t h.progress).RunsOut) : (a.branch f g).RunsOut := by
  rw [branch_of_gives h]
  exact hf.since hlog

/-- It runs out if its test fails and its second way runs out. -/
theorem runsOut_of_fails (h : a.Fails) (hlog : misses a.log = []) (hg : (g ()).RunsOut) :
    (a.branch f g).RunsOut := by
  rw [branch_of_fails h]
  exact hg.since hlog

/-- Where there is no room for a rule, or the rule runs out of it, the room runs out. -/
theorem runsOut_within {l : Level} {k : Nat} {rule : Unit → Attempt α n}
    (h : l.lacks k = false → (rule ()).RunsOut) : (l.within k rule).RunsOut := by
  cases hl : l.lacks k with
  | true =>
    rw [Level.within_of_lacks hl]
    exact ⟨rfl, rfl⟩
  | false =>
    rw [Level.within_of_room hl]
    exact h hl

end Planetarium.Parsing.Attempt

namespace Planetarium.Grammar
open Parsing Text Decimal Attempt

variable {n k : Nat} {l : Level} {s : List Char}

theorem runsOut_orElse {α : Type} {a : Attempt α n} {o : Unit → Attempt α n}
    (h : a = .mismatch) (ho : (o ()).RunsOut) : (a.orElse o).RunsOut := by
  subst h
  exact runsOut_of_fails rfl rfl ho

/-- A group runs out of room if what it holds does. -/
theorem runsOut_group (hfull : l.isFull = false)
    (h : (expression l.inGroup ⟨k + 1, s⟩).RunsOut) :
    (expression l ⟨k, '(' :: s⟩).RunsOut := by
  have hopen : (char '(' ⟨k, '(' :: s⟩).Gives () ⟨k + 1, s⟩ := ⟨by simp, rfl⟩
  have hgroup : (group l ⟨k, '(' :: s⟩ (expressionWithin _)).RunsOut := by
    refine runsOut_of_gives hopen rfl ?_
    rw [Level.enter_of_not_isFull hfull]
    exact RunsOut.since (RunsOut.branch h) rfl
  have hskip : l.skip ⟨k, '(' :: s⟩ = ⟨k, '(' :: s⟩ :=
    Cursor.skip_eq_self (trim_of_head_eq rfl rfl)
  -- no alternative before the group begins with a parenthesis, and tokens record no miss
  have hnumber : number ⟨k, '(' :: s⟩ = .mismatch := by
    refine number_of_split? (split?_eq_none ?_)
    rintro c ⟨⟩
    decide
  have hname : identifier ⟨k, '(' :: s⟩ = .mismatch := by
    refine identifier_of_head ?_
    rintro c ⟨⟩
    decide
  have hatom : (atom l ⟨k, '(' :: s⟩).RunsOut := by
    refine runsOut_orElse (by rw [hnumber]; rfl) (runsOut_orElse ?_ (runsOut_orElse ?_ ?_))
    · rw [call, hname]
      rfl
    · rw [hname]
      rfl
    · exact hgroup.branch
  have hfactor : (factor l ⟨k, '(' :: s⟩ (expressionWithin _)).RunsOut := by
    have : (atom l (l.skip ⟨k, '(' :: s⟩)).RunsOut := by rwa [hskip]
    exact RunsOut.branch this
  have hproduct : (product l ⟨k, '(' :: s⟩).RunsOut := by
    rw [product, chain, andThen]
    exact hfactor.branch
  rw [expression_eq]
  exact runsOut_within fun _ => RunsOut.branch hproduct

/-- More opening parentheses than there is room for run out of it. -/
theorem runsOut_expression (room : Nat) (hroom : l.limits.room = some room) {m : Nat}
    (hm : room < l.frames + framesForNesting m) (hdepth : (l.depth + m : Nat) ≤ l.limits.depth) :
    (expression l ⟨k, List.replicate m '(' ++ s⟩).RunsOut := by
  induction m generalizing l k with
  | zero =>
    -- there is not even room for what the innermost group holds
    have hlacks : l.lacks Level.expressionFrames = true := by
      rw [Level.lacks, hroom]
      exact decide_eq_true hm
    rw [expression_eq]
    exact runsOut_within fun h => absurd hlacks (by simp [h])
  | succ m ih =>
    have hfull : l.isFull = false := by
      rw [Level.isFull_eq_false]
      omega
    rw [List.replicate_succ, List.cons_append]
    -- each parenthesis takes the room of one group
    rw [framesForNesting_succ] at hm
    refine runsOut_group hfull (ih hroom ?_ ?_)
    · simp only [Level.inGroup]
      omega
    · simp only [Level.inGroup]
      omega

/-- A head that is read is read without a miss. -/
theorem misses_head_of_gives {word : List Char} {expected : Expected} {p q : Cursor}
    {name : String} (h : (head word expected p).Gives name q) :
    misses (head word expected p).log = [] := by
  have hlog : ∀ p : Cursor, (identifier p).log = [] := by
    rintro ⟨k, _ | ⟨c, cs⟩⟩
    · rfl
    · simp only [identifier]
      split <;> rfl
  rcases gives_branch.mp h with ⟨_, t, ht, hg⟩ | ⟨_, hg⟩
  · rw [head, branch_of_gives ht, log_since, hlog]
    split at hg
    · exact absurd hg not_gives_miss
    · rfl
  · exact absurd hg not_gives_miss

/-- A document whose first definition runs out of room does. -/
theorem runsOut_commands {name : String} {t u : List Char} (h : Word s name t)
    (ht : t.dropWhile isSpace = ':' :: '=' :: u) (hs : s.dropWhile isLayout = s)
    (hn : s.length ≤ n)
    (he : (expression l.inAssignment (Cursor.facing n (u.dropWhile isSpace))).RunsOut) :
    (commands l (Cursor.facing n s)).RunsOut := by
  have hhead : (head [':', '='] .define (Cursor.facing n s)).Gives name
      (Cursor.facing n (u.dropWhile isSpace)) := (matches_head h ht hn).1
  have hdefinition : (definition l (Cursor.facing n s)).RunsOut :=
    runsOut_of_gives hhead (misses_head_of_gives hhead) he.branch
  have hcommand : (command l (Cursor.facing n s) (commandsWithin _)).RunsOut := by
    refine runsOut_within fun _ => ?_
    have : (commandAt l ((Cursor.facing n s).skip isLayout)).RunsOut := by
      rw [Cursor.skip_eq_self hs]
      exact hdefinition.branch
    exact this.branch
  rw [commands_eq]
  exact hcommand.branch

/-- The text of a definition that opens so many groups at once. -/
def deepDefinition (m : Nat) (s : List Char) : List Char :=
  "x := ".toList ++ (List.replicate m '(' ++ s)

/-- There is always a number of groups that is too much, however many are allowed. -/
theorem runsOut_deepDefinition {limits : Limits} (room : Nat) (hroom : limits.room = some room)
    {m : Nat} (hpos : 0 < m) (hm : room < framesForNesting m + Level.assignmentFrames)
    (hdepth : m ≤ limits.depth) :
    (commands { limits } (.start (deepDefinition m s))).RunsOut := by
  have hword : Word (deepDefinition m s) "x" (" := ".toList ++ (List.replicate m '(' ++ s)) := by
    refine ⟨rfl, by decide, ?_⟩
    rintro c ⟨⟩
    decide
  have hgroups : (' ' :: (List.replicate m '(' ++ s)).dropWhile isSpace =
      List.replicate m '(' ++ s := by
    obtain ⟨m, rfl⟩ : ∃ k, m = k + 1 := ⟨m - 1, by omega⟩
    rfl
  rw [Cursor.start_eq_facing]
  refine runsOut_commands hword (u := ' ' :: (List.replicate m '(' ++ s)) rfl rfl (Nat.le_refl _) ?_
  rw [hgroups]
  refine runsOut_expression room hroom ?_ (by simpa [Level.inAssignment] using hdepth)
  simp only [Level.inAssignment]
  omega

end Planetarium.Grammar
