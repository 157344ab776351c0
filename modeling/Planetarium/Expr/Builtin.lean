import Planetarium.Table

/-!
# Builtin constants and functions

The one constant and the twelve functions that every expression can use.  All of them are total on
doubles: outside its domain a function gives an infinity or a NaN.  The sines, logarithms and powers
are those of the mathematical library of the platform, and nothing is assumed of their last digits.
-/
namespace Planetarium

/-- The builtin constants. -/
def builtinConstants : Table Float := .ofList [("pi", Float.ofBits 0x400921FB54442D18)]

/-- A builtin function by its number of operands. -/
inductive Rule where
  | unary (f : Float → Float)
  | binary (f : Float → Float → Float)

/-- The number of operands of a function. -/
def Rule.arity : Rule → Nat
  | .unary _ => 1
  | .binary _ => 2

/-- The value of a function; it is only asked for as many operands as the function has. -/
def Rule.apply : Rule → List Float → Float
  | .unary f, [x] => f x
  | .binary f, [x, y] => f x y
  | _, _ => 0 / 0

/-- The logarithm of `x` to the base `b`, as a quotient of natural logarithms. -/
def logarithm (x b : Float) : Float := x.log / b.log

/-- The power of `x` to the exponent `y`.  For the exponents -1, 0, 1/2, 1 and 2 it is what
division, the square root and multiplication give, so a square root of a negative zero is a negative
zero and one of a negative infinity is not a number. -/
def power (x y : Float) : Float :=
  if y == -1 then 1 / x
  else if y == 0 then 1
  else if y == 0.5 then x.sqrt
  else if y == 1 then x
  else if y == 2 then x * x
  else x.pow y

/-- The builtin functions in the order of their names. -/
def builtinFunctions : Table Rule := .ofList [
  ("acos", .unary Float.acos),
  ("asin", .unary Float.asin),
  ("atan", .unary Float.atan),
  ("atan2", .binary Float.atan2),
  ("cos", .unary Float.cos),
  ("exp", .unary Float.exp),
  ("log", .binary logarithm),
  ("log10", .unary Float.log10),
  ("pow", .binary power),
  ("sin", .unary Float.sin),
  ("sqrt", .unary Float.sqrt),
  ("tan", .unary Float.tan)]

end Planetarium
