import Planetarium.Decimal.Binary
import Planetarium.Document.Basic
import Planetarium.Proofs.Parsing.Token

/-!
# Well-formed trees

A tree is well formed if it could have been read from a text: its names are names, its numbers are
finite, its texts hold no quote, its invocations have an argument, and no word stands where
something else is needed.  How deep a tree goes is counted twice: by `nesting`, the calls,
operations and blocks inside each other, and by `readingFrames`, what it takes of the stack to read
its text, where an operation stands in parentheses.
-/
namespace Planetarium
open Parsing

mutual
/-- Names are names, numbers are finite, and nothing is left open. -/
def Expr.wellFormed : Expr → Bool
  | .ident name => isName name.toList
  | .number value => Decimal.isFinite value
  | .call function args => isName function.toList && Expr.wellFormedAll args
  | .binary operator left right =>
    operator != .unspecified && left.wellFormed && right.wellFormed
  | .stray _ => false

/-- All of some expressions are well formed. -/
def Expr.wellFormedAll : List Expr → Bool
  | [] => true
  | e :: es => e.wellFormed && Expr.wellFormedAll es
end

/-- A text holds no quote, an expression is well formed. -/
def PropertyValue.wellFormed : PropertyValue → Bool
  | .text s => !s.toList.contains '"'
  | .expr e => e.wellFormed
  | .stray _ => false

mutual
/-- A word is a name, the commands of a block are well formed. -/
def Arg.wellFormed : Arg → Bool
  | .word text => isName text.toList
  | .block commands => Command.wellFormedAll commands

/-- All of some arguments are well formed. -/
def Arg.wellFormedAll : List Arg → Bool
  | [] => true
  | a :: as => a.wellFormed && Arg.wellFormedAll as

/-- Names are names, values and expressions are well formed, and an invocation has an argument. -/
def Command.wellFormed : Command → Bool
  | .invocation args => !args.isEmpty && Arg.wellFormedAll args
  | .property name value => isName name.toList && value.wellFormed
  | .definition name e => isName name.toList && e.wellFormed
  | .stray _ => false

/-- All of some commands are well formed. -/
def Command.wellFormedAll : List Command → Bool
  | [] => true
  | c :: cs => c.wellFormed && Command.wellFormedAll cs
end

mutual
/-- How many calls and operations stand inside each other. -/
def Expr.nesting : Expr → Nat
  | .ident _ | .number _ | .stray _ => 0
  | .call _ args => Expr.nestingAll args + 1
  | .binary _ left right => max left.nesting right.nesting + 1

/-- The greatest nesting of some expressions. -/
def Expr.nestingAll : List Expr → Nat
  | [] => 0
  | e :: es => max e.nesting (Expr.nestingAll es)
end

/-- The nesting of the expression, if there is one. -/
def PropertyValue.nesting : PropertyValue → Nat
  | .text _ | .stray _ => 0
  | .expr e => e.nesting

mutual
/-- The nesting of what is in a block, and the block itself. -/
def Arg.nesting : Arg → Nat
  | .word _ => 0
  | .block commands => Command.nestingAll commands + 1

/-- The greatest nesting of some arguments. -/
def Arg.nestingAll : List Arg → Nat
  | [] => 0
  | a :: as => max a.nesting (Arg.nestingAll as)

/-- How many calls, operations and blocks stand inside each other. -/
def Command.nesting : Command → Nat
  | .invocation args => Arg.nestingAll args
  | .property _ value => value.nesting
  | .definition _ e => e.nesting
  | .stray _ => 0

/-- The greatest nesting of some commands. -/
def Command.nestingAll : List Command → Nat
  | [] => 0
  | c :: cs => max c.nesting (Command.nestingAll cs)
end

/-! ## What reading takes of the stack -/

/-- The frames for reading an expression with so many groups and calls inside each other: those of
an expression for each of them, and for what the innermost holds. -/
def framesForNesting (n : Nat) : Nat := Level.expressionFrames * (n + 1)

theorem framesForNesting_succ (n : Nat) :
    framesForNesting (n + 1) = framesForNesting n + Level.expressionFrames := rfl

theorem framesForNesting_mono {m n : Nat} (h : m ≤ n) :
    framesForNesting m ≤ framesForNesting n :=
  Nat.mul_le_mul_left _ (Nat.succ_le_succ h)

/-- The frames for reading an expression. -/
def Expr.readingFrames (e : Expr) : Nat := framesForNesting e.nesting

/-- The frames for reading the value of a property, below the commands around it. -/
def PropertyValue.readingFrames : PropertyValue → Nat
  | .text _ | .stray _ => 0
  | .expr e => e.readingFrames + Level.assignmentFrames

mutual
/-- The frames for reading an argument, below the commands around it. -/
def Arg.readingFrames : Arg → Nat
  | .word _ => 0
  | .block commands => Command.readingFramesAll commands + Level.commandFrames

/-- The frames for reading some arguments. -/
def Arg.readingFramesAll : List Arg → Nat
  | [] => 0
  | a :: as => max a.readingFrames (Arg.readingFramesAll as)

/-- The frames for reading a command. -/
def Command.readingFrames : Command → Nat
  | .invocation args => Arg.readingFramesAll args
  | .property _ value => value.readingFrames
  | .definition _ e => e.readingFrames + Level.assignmentFrames
  | .stray _ => 0

/-- The frames for reading some commands.  To find that there are no more takes those of a command
as well. -/
def Command.readingFramesAll : List Command → Nat
  | [] => Level.commandFrames
  | c :: cs => max c.readingFrames (Command.readingFramesAll cs)
end

/-- The limits allow a document: its blocks, calls and operations do not go deeper than allowed,
and there is room for reading it. -/
def Parsing.Limits.Allow (limits : Limits) (cs : List Command) : Prop :=
  Command.nestingAll cs ≤ limits.depth ∧ ∀ room ∈ limits.room, Command.readingFramesAll cs ≤ room

instance (limits : Limits) (cs : List Command) : Decidable (limits.Allow cs) := by
  unfold Limits.Allow
  infer_instance

end Planetarium
