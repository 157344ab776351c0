import Planetarium.Parsing.Attempt
import Planetarium.Stack

/-!
# Nesting, and the room for it

Blocks, groups and calls may stand inside each other up to a limit that the caller sets.  Besides,
every rule that is being tried takes a frame of the stack of whatever reads the text.
`Limits.room` is the number of frames there is for the rules, if it is bounded.  All rules share
it:

* an expression takes six frames down to what its groups and calls hold: one for itself and one for
  a term, one for the chain of each, one for the factor and one for the group or the call;
* commands take four frames down to what their blocks hold: one for all of them, one for the
  command, one for the invocation and one for the block;
* the expression of a definition or a property stands three frames below the commands around it:
  one for all of them, one for the command and one for the definition or the property.

So blocks, groups and calls use up the same room, though not the same share of it, and a document
has three frames less for an expression than there are where the expression is read on its own.
An expression or a command for whose frames there is no room is not tried at all: the reading
stops.  Only the rules of the grammar are counted.  The scanners that they call at the end and the
making of a fault take a frame or two more for a moment, and `room` is what is left beside these.

Inside a group or a call line breaks are blanks, and so they are everywhere in an expression that
is read on its own.
-/
namespace Planetarium.Parsing
open Text

/-- How deep a text may nest. -/
structure Limits where
  /-- The number of blocks, groups and calls inside each other that is allowed. -/
  depth : Int := 64
  /-- The number of frames that there is for the rules, if it is bounded. -/
  room : Room := .standard
deriving DecidableEq, Repr

/-- Where a rule stands: the limits, how much is open around it, how many frames the rules around
it take, and whether line breaks are blanks there. -/
structure Level where
  limits : Limits
  depth : Nat := 0
  frames : Nat := 0
  multiline : Bool := false
deriving DecidableEq, Repr

namespace Level
variable {α : Type} {n : Nat}

/-- The frames from an expression down to what a group or a call in it holds. -/
def expressionFrames : Nat := 6

/-- The frames from commands down to what a block among them holds. -/
def commandFrames : Nat := 4

/-- The frames from commands down to the expression of a definition or a property among them. -/
def assignmentFrames : Nat := 3

/-- The level inside a group or a call. -/
def inGroup (l : Level) : Level :=
  { l with depth := l.depth + 1, frames := l.frames + expressionFrames, multiline := true }

/-- The level inside a block. -/
def inBlock (l : Level) : Level :=
  { l with depth := l.depth + 1, frames := l.frames + commandFrames }

/-- The level of the expression of a definition or a property. -/
def inAssignment (l : Level) : Level := { l with frames := l.frames + assignmentFrames }

/-- Nothing more may be opened. -/
def isFull (l : Level) : Bool := l.limits.depth ≤ l.depth

/-- There is no room for so many frames more. -/
def lacks (l : Level) (frames : Nat) : Bool := l.limits.room.any (· < l.frames + frames)

/-- Opens a block, a group or a call at an offset, if the limit allows it, and goes on at the level
inside it. -/
def enter (l inside : Level) (offset : Nat) (body : Level → Attempt α n) : Attempt α n :=
  Attempt.since [.opened offset]
    (if l.isFull then .fault (.nestedTooDeep l.limits.depth) offset else body inside)

/-- Tries a rule that takes so many frames, if there is room for them. -/
def within (l : Level) (frames : Nat) (rule : Unit → Attempt α n) : Attempt α n :=
  if l.lacks frames then .stop .exhausted else rule ()

variable {l inside : Level} {offset frames frames' : Nat} {body : Level → Attempt α n}
  {rule : Unit → Attempt α n}

/-- A level is not full while its depth is below the limit. -/
theorem isFull_eq_false : l.isFull = false ↔ l.depth < l.limits.depth := by simp [isFull]

/-- There is room where the frames in use and those asked for are no more than there are. -/
theorem lacks_eq_false :
    l.lacks frames = false ↔ ∀ room ∈ l.limits.room, l.frames + frames ≤ room := by
  simp only [lacks, Option.any_eq_false, decide_eq_false_iff_not, Nat.not_lt]
  rfl

/-- Where there is room for some frames there is room for fewer. -/
theorem lacks_of_le (h : frames ≤ frames') (hroom : l.lacks frames' = false) :
    l.lacks frames = false :=
  lacks_eq_false.mpr fun room hr =>
    Nat.le_trans (Nat.add_le_add_left h _) (lacks_eq_false.mp hroom room hr)

/-- Inside a group there is room where there is room outside for its frames as well. -/
theorem lacks_inGroup : l.inGroup.lacks frames = l.lacks (expressionFrames + frames) := by
  simp only [lacks, inGroup, Nat.add_assoc]

/-- So it is inside a block. -/
theorem lacks_inBlock : l.inBlock.lacks frames = l.lacks (commandFrames + frames) := by
  simp only [lacks, inBlock, Nat.add_assoc]

/-- And in an assignment. -/
theorem lacks_inAssignment :
    l.inAssignment.lacks frames = l.lacks (assignmentFrames + frames) := by
  simp only [lacks, inAssignment, Nat.add_assoc]

/-- At a full level the bracket is opened and then a fault. -/
theorem enter_of_isFull (h : l.isFull = true) : l.enter inside offset body =
    Attempt.since [.opened offset] (.fault (.nestedTooDeep l.limits.depth) offset) := by
  rw [enter, if_pos h]

/-- Elsewhere it is opened and the inside is read. -/
theorem enter_of_not_isFull (h : l.isFull = false) :
    l.enter inside offset body = Attempt.since [.opened offset] (body inside) := by
  rw [enter, if_neg (by simp [h])]

/-- Without room a rule does not start. -/
theorem within_of_lacks (h : l.lacks frames = true) : l.within frames rule = .stop .exhausted :=
  if_pos h

/-- With room it is itself. -/
theorem within_of_room (h : l.lacks frames = false) : l.within frames rule = rule () :=
  if_neg (by simp [h])

end Level
end Planetarium.Parsing
