import Planetarium.Expr.Basic

/-!
# Documents

A document is a list of commands: invocations (words and blocks of further commands, whose meaning
belongs to whoever consumes them), properties with a text or an expression, and definitions of
variables.  As with expressions, a tree built by hand may have a bare word where a command should
stand; `misplaced` lists these words.
-/
namespace Planetarium

/-- The value of a property. -/
inductive PropertyValue where
  | text (text : String)
  | expr (expr : Expr)
  /-- A bare word where a value should stand. -/
  | stray (word : String)
deriving DecidableEq

mutual
/-- An argument of an invocation. -/
inductive Arg where
  | word (text : String)
  | block (commands : List Command)

/-- A command of a document. -/
inductive Command where
  | invocation (args : List Arg)
  | property (name : String) (value : PropertyValue)
  | definition (name : String) (expr : Expr)
  /-- A bare word where a command should stand. -/
  | stray (word : String)
end

instance : Inhabited Arg := ⟨.block []⟩

instance : Inhabited Command := ⟨.invocation []⟩

/-- The bare words in the value of a property. -/
def PropertyValue.misplaced : PropertyValue → List Misplaced
  | .text _ => []
  | .expr e => e.misplaced
  | .stray word => [.propertyValue word]

mutual
/-- The bare words in an argument, in order. -/
def Arg.misplaced : Arg → List Misplaced
  | .word _ => []
  | .block commands => Command.misplacedAll commands

/-- The bare words in some arguments, in order. -/
def Arg.misplacedAll : List Arg → List Misplaced
  | [] => []
  | a :: as => a.misplaced ++ Arg.misplacedAll as

/-- The bare words in a command, in order. -/
def Command.misplaced : Command → List Misplaced
  | .invocation args => Arg.misplacedAll args
  | .property _ value => value.misplaced
  | .definition _ e => e.misplaced
  | .stray word => [.command word]

/-- The bare words in some commands, in order. -/
def Command.misplacedAll : List Command → List Misplaced
  | [] => []
  | c :: cs => c.misplaced ++ Command.misplacedAll cs
end

end Planetarium
