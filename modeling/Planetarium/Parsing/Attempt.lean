import Planetarium.Parsing.Fault
import Planetarium.Text.Cursor

/-!
# Attempts at a rule

A grammar rule is tried at a cursor and matches, mismatches or stops the whole reading.  A match
consumes something: it carries a proof that fewer than `n` characters are left, where `n` is the
number left at the start, and that proof is what ends every recursion over the grammar.  After a
mismatch the next alternative is tried from the same place; a stop is final.

Next to its outcome an attempt keeps a log: the places where something was looked for in vain, and
the places where a block, group or call was opened, in the order in which they were met and over
all alternatives.  A rule never looks at the log of what went before, so an attempt depends on its
cursor alone.
-/
namespace Planetarium.Parsing
open Text

/-- Something that happened while a rule was tried. -/
inductive Event where
  /-- At the offset, something was looked for and not found. -/
  | missed (offset : Nat) (expected : Expected)
  /-- At the offset, a block, group or call was opened. -/
  | opened (offset : Nat)
deriving DecidableEq, Repr

/-- Why the reading as a whole stops. -/
inductive Stop where
  /-- The text cannot be used. -/
  | fault (fault : Fault)
  /-- Nothing that could follow follows; the log tells what. -/
  | unexpected
  /-- There is no room for the rules that come next. -/
  | exhausted
deriving DecidableEq, Repr

/-- What became of a rule. -/
inductive Outcome (α : Type) (n : Nat) where
  | matched (value : α) (next : Cursor) (progress : next.left < n)
  | mismatched
  | stopped (reason : Stop)

/-- What became of a rule, and what happened on the way. -/
structure Attempt (α : Type) (n : Nat) where
  outcome : Outcome α n
  log : List Event

namespace Attempt
variable {α β : Type} {n m : Nat}

/-- The rule matches up to `next`. -/
def accept (value : α) (next : Cursor) (progress : next.left < n) : Attempt α n :=
  ⟨.matched value next progress, []⟩

/-- The rule does not match. -/
def mismatch : Attempt α n := ⟨.mismatched, []⟩

/-- The rule does not match, because something is not there. -/
def miss (offset : Nat) (expected : Expected) : Attempt α n :=
  ⟨.mismatched, [.missed offset expected]⟩

/-- The reading stops. -/
def stop (reason : Stop) : Attempt α n := ⟨.stopped reason, []⟩

/-- The text cannot be used. -/
def fault (cause : Cause) (offset : Nat) : Attempt α n := stop (.fault ⟨cause, offset⟩)

/-- The attempt after some earlier events. -/
def since (log : List Event) (a : Attempt α n) : Attempt α n := ⟨a.outcome, log ++ a.log⟩

/-- Goes on after a match and after a mismatch; a stop stands. -/
def branch (a : Attempt α n)
    (matched : (value : α) → (next : Cursor) → next.left < n → Attempt β m)
    (mismatched : Unit → Attempt β m) : Attempt β m :=
  match a with
  | ⟨.matched value next progress, log⟩ => (matched value next progress).since log
  | ⟨.mismatched, log⟩ => (mismatched ()).since log
  | ⟨.stopped reason, log⟩ => ⟨.stopped reason, log⟩

/-- Goes on after a match. -/
def andThen (a : Attempt α n)
    (next : (value : α) → (next : Cursor) → next.left < n → Attempt β m) : Attempt β m :=
  a.branch next fun _ => mismatch

/-- Tries another rule after a mismatch. -/
def orElse (a : Attempt α n) (other : Unit → Attempt α n) : Attempt α n :=
  a.branch accept other

/-- The rule with its value changed. -/
def map (f : α → β) (a : Attempt α n) : Attempt β n :=
  a.andThen fun value next progress => accept (f value) next progress

/-- The rule seen from a place further back. -/
def widen (h : n ≤ m) (a : Attempt α n) : Attempt α m :=
  a.andThen fun value next progress => accept value next (Nat.lt_of_lt_of_le progress h)

/-- Events before an attempt are put in front of those before them. -/
@[simp] theorem since_since (l k : List Event) (a : Attempt α n) :
    (a.since k).since l = a.since (l ++ k) := by
  simp [since]

@[simp] theorem log_since (l : List Event) (a : Attempt α n) : (a.since l).log = l ++ a.log := rfl

/-- An attempt may be tried before or after the events that precede it are put in front. -/
theorem branch_since (l : List Event) (a : Attempt α n)
    (f : (value : α) → (next : Cursor) → next.left < n → Attempt β m) (g : Unit → Attempt β m) :
    (a.since l).branch f g = (a.branch f g).since l := by
  obtain ⟨_ | _ | _, log⟩ := a <;> simp [branch, since]

end Attempt
end Planetarium.Parsing
