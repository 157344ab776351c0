import Planetarium.Text.Quoted

/-!
# Expressions

An arithmetic expression: names, numbers, calls and the four operations.  Readers of texts only
build expressions of these; a program that builds trees by hand can also leave an operation open
or put a bare word where an expression should stand.  Such a tree can be shown to the extent that
its parts make sense, and `misplaced` lists the words that do not.
-/
namespace Planetarium
open Text

/-- An operation between two expressions. -/
inductive Operator where
  | add
  | sub
  | mul
  | div
  /-- Which operation is meant is left open. -/
  | unspecified
deriving DecidableEq, Repr

/-- The sign an operation is written with. -/
def Operator.symbol : Operator → Char
  | .add => '+'
  | .sub => '-'
  | .mul => '*'
  | .div => '/'
  | .unspecified => '?'

/-- The name of an operation in dumps. -/
def Operator.name : Operator → String
  | .add => "add"
  | .sub => "sub"
  | .mul => "mul"
  | .div => "div"
  | .unspecified => "binaryop"

/-- The operations of the lower tier. -/
def Operator.additive? : Char → Option Operator
  | '+' => some .add
  | '-' => some .sub
  | _ => none

/-- The operations of the higher tier. -/
def Operator.multiplicative? : Char → Option Operator
  | '*' => some .mul
  | '/' => some .div
  | _ => none

/-- An arithmetic expression. -/
inductive Expr where
  /-- A builtin constant or a variable. -/
  | ident (name : String)
  | number (value : Float)
  | call (function : String) (args : List Expr)
  | binary (operator : Operator) (left right : Expr)
  /-- A bare word where an expression should stand. -/
  | stray (word : String)
deriving Inhabited

namespace Expr

mutual
/-- Expressions can be compared, numbers by their bits. -/
protected def decEq : (a b : Expr) → Decidable (a = b)
  | .ident a, .ident b => decidable_of_iff (a = b) (by simp)
  | .number a, .number b => decidable_of_iff (a = b) (by simp)
  | .call f as, .call g bs =>
    have := Expr.decEqAll as bs
    decidable_of_iff (f = g ∧ as = bs) (by simp)
  | .binary o a b, .binary p c d =>
    have := Expr.decEq a c
    have := Expr.decEq b d
    decidable_of_iff (o = p ∧ a = c ∧ b = d) (by simp)
  | .stray a, .stray b => decidable_of_iff (a = b) (by simp)
  | .ident _, .number _ | .ident _, .call .. | .ident _, .binary .. | .ident _, .stray _
  | .number _, .ident _ | .number _, .call .. | .number _, .binary .. | .number _, .stray _
  | .call .., .ident _ | .call .., .number _ | .call .., .binary .. | .call .., .stray _
  | .binary .., .ident _ | .binary .., .number _ | .binary .., .call .. | .binary .., .stray _
  | .stray _, .ident _ | .stray _, .number _ | .stray _, .call .. | .stray _, .binary .. =>
    isFalse nofun

protected def decEqAll : (as bs : List Expr) → Decidable (as = bs)
  | [], [] => isTrue rfl
  | a :: as, b :: bs =>
    have := Expr.decEq a b
    have := Expr.decEqAll as bs
    decidable_of_iff (a = b ∧ as = bs) (by simp)
  | [], _ :: _ | _ :: _, [] => isFalse nofun
end

instance : DecidableEq Expr := Expr.decEq

end Expr

/-- A bare word that stands where something else is needed. -/
inductive Misplaced where
  | expression (word : String)
  | command (word : String)
  | propertyValue (word : String)
deriving DecidableEq, Repr

/-- What is wrong with the word, in words. -/
def Misplaced.message : Misplaced → String
  | .expression word => "Not an expression node: StringArg(text=" ++ quoted word ++ ")"
  | .command word => "Not a command node: StringArg(text=" ++ quoted word ++ ")"
  | .propertyValue word => "Not a property value: StringArg(text=" ++ quoted word ++ ")"

mutual
/-- The bare words in an expression, from left to right. -/
def Expr.misplaced : Expr → List Misplaced
  | .ident _ | .number _ => []
  | .call _ args => Expr.misplacedAll args
  | .binary _ left right => left.misplaced ++ right.misplaced
  | .stray word => [.expression word]

/-- The bare words in some expressions, from left to right. -/
def Expr.misplacedAll : List Expr → List Misplaced
  | [] => []
  | e :: es => e.misplaced ++ Expr.misplacedAll es
end

/-- Something that is made of nodes, if no bare word is among them; otherwise the first such
word. -/
def unlessMisplaced {α : Type} (words : List Misplaced) (value : α) : Except Misplaced α :=
  match words with
  | [] => .ok value
  | word :: _ => .error word

end Planetarium
