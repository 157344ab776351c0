import Planetarium.Expr.Basic
import Planetarium.Parsing.Report
import Planetarium.Parsing.Token

/-!
# Reading expressions

The grammar of expressions:

    expression := term (('+' | '-') term)*
    term       := factor (('*' | '/') factor)*
    factor     := number | call | identifier | '(' expression ')'
    call       := identifier '(' (expression ','?)* ')'

Each rule is a definition of its own, with the rules it needs as arguments, and `expression` ties
the knot: what stands inside a group or a call has fewer characters left than the group.  Once the
opening parenthesis of a group or a call has matched, a missing closing one stops the reading.
Where there is no room for the frames of an expression, the reading stops before anything of it is
looked at.
-/
namespace Planetarium.Grammar
open Parsing Text

variable {n : Nat}

/-- A rule for an expression at any cursor with at most `n` characters left. -/
abbrev Rule (n : Nat) := (t : Cursor) → t.left ≤ n → Attempt Expr t.left

/-- A rule for what stands inside a group or a call, with fewer than `n` characters left. -/
abbrev Inner (n : Nat) := (level : Level) → (t : Cursor) → t.left < n → Attempt Expr t.left

/-- Operators and operands after a first operand, gathered to the left.  An operator without an
operand after it is left where it stands. -/
def chainRest (level : Level) (operator : Char → Option Operator) (operand : Rule n)
    (left : Expr) (t : Cursor) (h : t.left < n) : Attempt Expr n :=
  have hs := level.left_skip_le t
  (sign operator (level.skip t)).branch
    (fun op u hu =>
      (operand u (by omega)).branch
        (fun right v hv => chainRest level operator operand (.binary op left right) v (by omega))
        (fun _ => .accept left t h))
    (fun _ => (Attempt.accept left t h).since
      [.missed (level.skip t).offset .operator])
termination_by t.left

/-- Operands with operators between them. -/
def chain (level : Level) (operator : Char → Option Operator) (s : Cursor)
    (operand : Rule s.left) : Attempt Expr s.left :=
  (operand s (Nat.le_refl _)).andThen fun first t h =>
    chainRest level operator operand first t h

/-- The closing parenthesis of a group or a call. -/
def close {α : Type} (value : α) (s : Cursor) (h : s.left ≤ n) : Attempt α n :=
  (char ')' s).branch
    (fun _ t ht => .accept value t (Nat.lt_of_lt_of_le ht h))
    (fun _ => (Attempt.stop .unexpected).since [.missed s.offset .closeParen])

/-- The arguments of a call up to its closing parenthesis; commas between them may be left
out. -/
def arguments (level : Level) (function : String) (inner : Inner n) (before : List Expr)
    (s : Cursor) (h : s.left < n) : Attempt Expr n :=
  (inner level s h).branch
    (fun arg t ht =>
      have hu := level.left_skip_le t
      (char ',' (level.skip t)).branch
        (fun _ v hv =>
          have hw := level.left_skip_le v
          arguments level function inner (before ++ [arg]) (level.skip v) (by omega))
        (fun _ => arguments level function inner (before ++ [arg]) (level.skip t) (by omega)))
    (fun _ => close (.call function before) s (Nat.le_of_lt h))
termination_by s.left

/-- A call. -/
def call (level : Level) (s : Cursor) (inner : Inner s.left) : Attempt Expr s.left :=
  (identifier s).andThen fun function t ht =>
    have hu := level.left_skip_le t
    (char '(' (level.skip t)).andThen fun _ v hv =>
      level.enter level.inGroup (level.skip t).offset fun level =>
        have hw := level.left_skip_le v
        arguments level function inner [] (level.skip v) (by omega)

/-- A group. -/
def group (level : Level) (s : Cursor) (inner : Inner s.left) : Attempt Expr s.left :=
  (char '(' s).andThen fun _ t ht =>
    level.enter level.inGroup s.offset fun level =>
      (inner level t ht).andThen fun e u hu =>
        have hv := level.left_skip_le u
        close e (level.skip u) (by omega)

/-- A number, a call, a name or a group, whichever comes first. -/
def alternatives (level : Level) (s : Cursor) (inner : Inner s.left) : Attempt Expr s.left :=
  ((number s).map Expr.number).orElse fun _ =>
  (call level s inner).orElse fun _ =>
  ((identifier s).map Expr.ident).orElse fun _ =>
  (group level s inner).orElse fun _ =>
  .miss s.offset .expression

/-- A number, a call, a name or a group, with the blanks around it. -/
def factor (level : Level) (s : Cursor) (inner : Inner s.left) : Attempt Expr s.left :=
  have hs := level.left_skip_le s
  (alternatives level (level.skip s) fun level t ht => inner level t (by omega)).andThen
    fun e t ht =>
      have hu := level.left_skip_le t
      .accept e (level.skip t) (by omega)

/-- An expression. -/
def expression (level : Level) (s : Cursor) : Attempt Expr s.left :=
  level.within Level.expressionFrames fun _ =>
    chain level Operator.additive? s fun t _ht =>
      chain level Operator.multiplicative? t fun u _hu =>
        factor level u fun inner v _hv => expression inner v
termination_by s.left
decreasing_by exact Nat.lt_of_lt_of_le _hv (Nat.le_trans _hu _ht)

end Planetarium.Grammar

namespace Planetarium.Expr
open Parsing Text

/-- A whole text as an expression, with line breaks as blanks. -/
def ofChars (limits : Limits) (text : List Char) : Except Fault Expr :=
  let start := Cursor.start text
  match Grammar.expression { limits, multiline := true } start with
  | ⟨.stopped reason, log⟩ => .error (reason.toFault text limits.depth log)
  | ⟨.mismatched, log⟩ =>
    .error (unexpectedFault text (log ++ [.missed (start.skip isLayout).offset .expression]))
  | ⟨.matched e next _, log⟩ =>
    let last := next.skip isLayout
    if last.left = 0 then .ok e
    else .error (unexpectedFault text (log ++ [.missed last.offset .operator]))

/-- Reads a whole text as an expression. -/
def parse (text : String) (limits : Limits := {}) : Except ParseError Expr :=
  (ofChars limits text.toList).mapError (·.inText text.toList)

end Planetarium.Expr
