import Planetarium.Decimal.Notation
import Planetarium.Expr.Basic

/-!
# Expressions as text

An expression is written with a pair of parentheses around every operation, so the text can be
read back without knowing which operation binds more tightly.  Trees of every depth are written.
-/
namespace Planetarium
open Decimal

mutual
/-- The expression as text. -/
def Expr.chars : Expr → List Char
  | .ident name => name.toList
  | .number value => (shortestText value).toList
  | .call function args => function.toList ++ '(' :: Expr.charsAll args ++ [')']
  | .binary operator left right =>
    '(' :: left.chars ++ ' ' :: operator.symbol :: ' ' :: right.chars ++ [')']
  | .stray word => word.toList

/-- Expressions as text, separated by commas. -/
def Expr.charsAll : List Expr → List Char
  | [] => []
  | [e] => e.chars
  | e :: es => e.chars ++ ',' :: ' ' :: Expr.charsAll es
end

/-- The expression as text, unless a bare word is in it. -/
def Expr.format (e : Expr) : Except Misplaced String :=
  unlessMisplaced e.misplaced (String.ofList e.chars)

end Planetarium
