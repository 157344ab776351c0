import Planetarium.Expr.Basic
import Planetarium.Expr.Builtin
import Planetarium.Stack

/-!
# The value of an expression

Values are doubles and the operations are those of IEEE 754, so arithmetic never fails: only
names, functions and numbers of operands can be wrong.  The nodes are met in order, a node before
what stands below it and left before right, and the first one that is wrong decides.

`Expr.eval none` has no other limit.  In bounded room every node that is being evaluated takes its
frames: one for a number, a name or an operation, and three for a call, which is first looked up and
then has its operands evaluated in turn.  The first node for which there is no room fails, whatever
would be wrong below it.  `Expr.evaluate`, which takes a frame itself, is the evaluation in the room
of a call from outside; `eval_of_frames_le` says that the room makes no difference to an expression
that fits.
-/
namespace Planetarium
open Text

/-- The values of variables, in the order of their first definitions. -/
abbrev Environment := Table Float

/-- Why an expression has no value. -/
inductive EvalError where
  | unknownName (name : String)
  | unknownFunction (name : String)
  | arityMismatch (function : String) (expected got : Nat)
  /-- There is no room for all the nodes that are being evaluated. -/
  | nestedTooDeep
  /-- A bare word stands in the expression. -/
  | strayWord
  /-- An operation is left open. -/
  | unspecifiedOperator
deriving DecidableEq, Repr

/-- The reason in words. -/
def EvalError.message : EvalError → String
  | .unknownName name => "Unknown name " ++ quoted name
  | .unknownFunction name => "Unknown function " ++ quoted name
  | .arityMismatch function expected got =>
    "Function " ++ quoted function ++ " expects " ++ toString expected ++ " arguments, got " ++
      toString got
  | .nestedTooDeep => "Expression is nested too deeply to evaluate"
  | .strayWord => "Not an expression node: StringArg"
  | .unspecifiedOperator => "Not an expression node: BinaryOp"

/-- The operation on doubles, if it is not left open. -/
def Operator.apply? : Operator → Option (Float → Float → Float)
  | .add => some (· + ·)
  | .sub => some (· - ·)
  | .mul => some (· * ·)
  | .div => some (· / ·)
  | .unspecified => none

/-- The value of a name.  A builtin constant hides a variable of the same name. -/
def lookup (env : Environment) (name : String) : Except EvalError Float :=
  match builtinConstants.get? name with
  | some x => .ok x
  | none =>
    match env.get? name with
    | some x => .ok x
    | none => .error (.unknownName name)

/-- The function of a call, if it exists and takes that many operands. -/
def resolve (function : String) (count : Nat) : Except EvalError Rule :=
  match builtinFunctions.get? function with
  | none => .error (.unknownFunction function)
  | some rule =>
    if count = rule.arity then .ok rule
    else .error (.arityMismatch function rule.arity count)

/-- The room that so many frames leave, if there is room for them. -/
def takeRoom (frames : Nat) : Room → Except EvalError Room
  | none => .ok none
  | some n => if frames ≤ n then .ok (some (n - frames)) else .error .nestedTooDeep

@[simp] theorem takeRoom_none (frames : Nat) : takeRoom frames none = .ok none := rfl

/-- Where there is room for the frames they are taken. -/
theorem takeRoom_some {frames n : Nat} (h : frames ≤ n) :
    takeRoom frames (some n) = .ok (some (n - frames)) := if_pos h

namespace Expr

mutual
/-- The value of an expression in some room. -/
def eval (env : Environment) (room : Room) : Expr → Except EvalError Float
  | .ident name => do
    let _ ← takeRoom 1 room
    lookup env name
  | .number value => do
    let _ ← takeRoom 1 room
    return value
  | .call function args => do
    let room ← takeRoom 2 room
    let rule ← resolve function args.length
    let room ← takeRoom 1 room
    let values ← evalAll env room args
    return rule.apply values
  | .binary operator left right => do
    let room ← takeRoom 1 room
    match operator.apply? with
    | none => throw .unspecifiedOperator
    | some apply =>
      let x ← left.eval env room
      let y ← right.eval env room
      return apply x y
  | .stray _ => do
    let _ ← takeRoom 1 room
    throw .strayWord

/-- The values of expressions, from left to right. -/
def evalAll (env : Environment) (room : Room) : List Expr → Except EvalError (List Float)
  | [] => return []
  | e :: es => do
    let x ← e.eval env room
    let xs ← evalAll env room es
    return x :: xs
end

/-- The value of an expression, in the room for this call. -/
def evaluate (e : Expr) (env : Environment) (room : Room := .standard) : Except EvalError Float :=
  e.eval env (room.below 1)

mutual
/-- The frames that the evaluation of an expression takes. -/
def frames : Expr → Nat
  | .ident _ | .number _ | .stray _ => 1
  | .call _ args => framesAll args + 3
  | .binary _ left right => max left.frames right.frames + 1

/-- The most frames that the evaluation of one of some expressions takes. -/
def framesAll : List Expr → Nat
  | [] => 0
  | e :: es => max e.frames (framesAll es)
end

/-- There is room for the evaluation of the expression. -/
def FitsIn (e : Expr) (room : Room) : Prop := ∀ r ∈ room, e.frames ≤ r

mutual
/-- An expression that needs no more frames than there are has its value in unbounded room. -/
theorem eval_of_frames_le (env : Environment) {r : Nat} :
    (e : Expr) → e.frames ≤ r → e.eval env (some r) = e.eval env none
  | .ident _, h | .number _, h | .stray _, h => by
    simp only [frames] at h
    simp only [eval, takeRoom_some h, takeRoom_none, bind, Except.bind]
  | .call _ args, h => by
    simp only [frames] at h
    have h₁ : takeRoom 2 (some r) = .ok (some (r - 2)) := takeRoom_some (by omega)
    have h₂ : takeRoom 1 (some (r - 2)) = .ok (some (r - 3)) := takeRoom_some (by omega)
    have := evalAll_of_framesAll_le env (r := r - 3) args (by omega)
    simp only [eval, h₁, h₂, takeRoom_none, bind, Except.bind, this]
  | .binary _ left right, h => by
    simp only [frames] at h
    have hl := eval_of_frames_le env (r := r - 1) left (by omega)
    have hr := eval_of_frames_le env (r := r - 1) right (by omega)
    simp only [eval, takeRoom_some (show 1 ≤ r by omega), takeRoom_none, bind, Except.bind, hl, hr]

/-- So have the arguments of a call. -/
theorem evalAll_of_framesAll_le (env : Environment) {r : Nat} :
    (es : List Expr) → framesAll es ≤ r → evalAll env (some r) es = evalAll env none es
  | [], _ => rfl
  | e :: es, h => by
    simp only [framesAll] at h
    have h₁ := eval_of_frames_le env (r := r) e (by omega)
    have h₂ := evalAll_of_framesAll_le env (r := r) es (by omega)
    simp only [evalAll, h₁, h₂]
end

/-- The room makes no difference to an expression that fits. -/
theorem FitsIn.eval_eq {e : Expr} {room : Room} (h : e.FitsIn room) (env : Environment) :
    e.eval env room = e.eval env none := by
  cases room with
  | none => rfl
  | some r => exact eval_of_frames_le env e (h r rfl)

end Expr
end Planetarium
