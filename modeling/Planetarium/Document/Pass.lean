import Planetarium.Diagnostic.Policy
import Planetarium.Document.Basic
import Planetarium.Expr.Eval

/-!
# Going through a document

A pass over a document carries the environment and the warnings issued so far.  A definition is
evaluated when the pass reaches it and is visible from there on.  Definitions inside blocks are not
scoped to their block.  When a pass fails, the environment and the warnings stay as they were at
the failure, so a state is returned in either case.

Every function is given the room on the stack in which it is called.  A definition takes one frame
before its expression is evaluated, going through some commands takes two before a definition among
them, and a block takes one: what stands in a block has less room than what stands before it.
-/
namespace Planetarium
open Text

/-- A warning that was issued, and the variables at that moment. -/
structure Notice where
  warning : Warning
  env : Environment

/-- What a pass has done so far: the variables, and the warnings in order. -/
structure Journal where
  env : Environment := .empty
  notices : List Notice := []

/-- The warnings issued so far, in order. -/
def Journal.warnings (j : Journal) : List Warning := j.notices.map Notice.warning

/-- Why a declaration of a body is malformed. -/
inductive DeclarationError where
  | missingName
  | missingBlock (name : String)
deriving DecidableEq, Repr

/-- The reason in words. -/
def DeclarationError.message : DeclarationError → String
  | .missingName => "astro declaration is missing a body name"
  | .missingBlock name => "astro " ++ quoted name ++ " is missing its \x7b ... \x7d block"

/-- Why a pass fails. -/
inductive Failure where
  | evaluation (error : EvalError)
  | escalated (warning : Warning)
  | declaration (error : DeclarationError)
deriving DecidableEq, Repr

/-- The reason in words. -/
def Failure.message : Failure → String
  | .evaluation e => e.message
  | .escalated w => w.message
  | .declaration e => e.message

/-- A step of a pass. -/
abbrev Pass := ExceptT Failure (StateM Journal)

namespace Pass
variable {α β : Type}

/-- The step from a journal on: what it gives and the journal after it. -/
def go (step : Pass α) (journal : Journal) : Except Failure α × Journal := step.run journal

/-- Issues a warning, drops it or fails with it, as the policy says. -/
def emit (policy : Option Policy) (warning : Warning) : Pass Unit :=
  match verdict policy warning.code with
  | .issue => modify fun j => { j with notices := j.notices ++ [⟨warning, j.env⟩] }
  | .drop => pure ()
  | .escalate => throw (.escalated warning)

/-- The value of an expression at this point of the pass. -/
def value (e : Expr) (room : Room := .standard) : Pass Float := do
  match e.evaluate (← get).env room with
  | .ok x => return x
  | .error reason => throw (.evaluation reason)

/-- Binds a variable. -/
def bindVariable (name : String) (x : Float) : Pass Unit :=
  modify fun j => { j with env := j.env.insert name x }

/-- Evaluates a definition and binds its variable.  A definition of a builtin constant is never
used, which is worth a warning. -/
def define (policy : Option Policy) (name : String) (e : Expr) (room : Room := .standard) :
    Pass Float := do
  if (builtinConstants.get? name).isSome then
    emit policy ⟨.shadowedConstant,
      "definition of " ++ quoted name ++ " shadows a builtin constant and is never used"⟩
  let x ← value e (room.below 1)
  bindVariable name x
  return x

/-- Applies a command if it is a definition.  Blocks are not entered. -/
def visit (policy : Option Policy) (c : Command) (room : Room := .standard) : Pass Unit :=
  match c with
  | .definition name e => do
    let _ ← define policy name e (room.below 1)
  | _ => pure ()

@[simp] theorem go_pure (a : α) (j : Journal) : (pure a : Pass α).go j = (.ok a, j) := rfl

@[simp] theorem go_throw (f : Failure) (j : Journal) : (throw f : Pass α).go j = (.error f, j) :=
  rfl

/-- Of two steps the second one runs from what the first one leaves, unless that one fails. -/
theorem go_bind (step : Pass α) (next : α → Pass β) (j : Journal) :
    (step >>= next).go j = match step.go j with
      | (.ok a, k) => (next a).go k
      | (.error f, k) => (.error f, k) := by
  change (ExceptT.bind step next : StateM Journal _) j = _
  unfold ExceptT.bind ExceptT.mk ExceptT.bindCont go ExceptT.run
  simp only [bind, StateT.bind]
  rcases step j with ⟨_ | _, _⟩ <;> rfl

/-- Two steps succeed just if both of them do. -/
theorem go_bind_eq_ok {step : Pass α} {next : α → Pass β} {j k : Journal} {b : β} :
    (step >>= next).go j = (.ok b, k) ↔
      ∃ a i, step.go j = (.ok a, i) ∧ (next a).go i = (.ok b, k) := by
  rw [go_bind]
  rcases step.go j with ⟨f | a, i⟩
  · simp
  · constructor
    · exact fun h => ⟨a, i, rfl, h⟩
    · rintro ⟨_, _, hstep, h⟩
      cases hstep
      exact h

/-- A warning is noted with the environment of the moment, passed over, or a failure. -/
theorem go_emit (policy : Option Policy) (w : Warning) (j : Journal) :
    (emit policy w).go j = match verdict policy w.code with
      | .issue => (.ok (), { j with notices := j.notices ++ [⟨w, j.env⟩] })
      | .drop => (.ok (), j)
      | .escalate => (.error (.escalated w), j) := by
  unfold emit
  cases verdict policy w.code <;> rfl

/-- A value is worked out in the environment of the moment and leaves everything as it was. -/
theorem go_value (e : Expr) (room : Room) (j : Journal) :
    (value e room).go j = match e.evaluate j.env room with
      | .ok x => (.ok x, j)
      | .error reason => (.error (.evaluation reason), j) := by
  have hget : (get : Pass Journal).go j = (.ok j, j) := rfl
  rw [value, go_bind, hget]
  cases h : e.evaluate j.env room <;> simp only [h] <;> rfl

/-- A value that is worked out is that of the expression. -/
theorem go_value_eq_ok {e : Expr} {room : Room} {x : Float} {j k : Journal} :
    (value e room).go j = (.ok x, k) ↔ e.evaluate j.env room = .ok x ∧ j = k := by
  rw [go_value]
  cases e.evaluate j.env room with
  | ok y => simp
  | error reason => simp

@[simp] theorem go_bindVariable (name : String) (x : Float) (j : Journal) :
    (bindVariable name x).go j = (.ok (), { j with env := j.env.insert name x }) := rfl

end Pass

mutual
/-- Applies the definitions of a command and of all blocks inside it. -/
def Command.evaluate (policy : Option Policy) (c : Command) (room : Room := .standard) :
    Pass Unit :=
  match c with
  | .definition name e => do
    let _ ← Pass.define policy name e (room.below 2)
  | .invocation args => Arg.evaluateAll policy args room
  | .property _ _ | .stray _ => pure ()

/-- Applies the definitions of an argument. -/
def Arg.evaluate (policy : Option Policy) (a : Arg) (room : Room := .standard) : Pass Unit :=
  match a with
  | .word _ => pure ()
  | .block commands => Command.evaluateAll policy commands (room.below 1)

/-- Applies the definitions of some arguments in order. -/
def Arg.evaluateAll (policy : Option Policy) (args : List Arg) (room : Room := .standard) :
    Pass Unit :=
  match args with
  | [] => pure ()
  | a :: as => do
    a.evaluate policy room
    Arg.evaluateAll policy as room

/-- Applies the definitions of some commands in order. -/
def Command.evaluateAll (policy : Option Policy) (commands : List Command)
    (room : Room := .standard) : Pass Unit :=
  match commands with
  | [] => pure ()
  | c :: cs => do
    c.evaluate policy room
    Command.evaluateAll policy cs room
end

/-- The value of a property when it is reached: its text or a number. -/
inductive PropertyResult where
  | text (text : String)
  | number (value : Float)
deriving DecidableEq

/-- Why a property has no value. -/
inductive PropertyError where
  | evaluation (error : EvalError)
  | misplaced (word : Misplaced)
deriving DecidableEq, Repr

/-- The value of a property in an environment. -/
def PropertyValue.resolve (env : Environment) (value : PropertyValue) (room : Room := .standard) :
    Except PropertyError PropertyResult :=
  match value with
  | .text words => .ok (.text words)
  | .expr e => (e.evaluate env (room.below 1)).map .number |>.mapError .evaluation
  | .stray word => .error (.misplaced (.propertyValue word))

/-- A command as a pass meets it: the environment after it, and what it is worth if it is a
property. -/
structure Step where
  command : Command
  env : Environment
  result : Option (Except PropertyError PropertyResult)

/-- The step at which a pass meets a command. -/
def Step.at (env : Environment) (command : Command) (room : Room := .standard) : Step :=
  ⟨command, env, match command with
    | .property _ value => some (value.resolve env room)
    | _ => none⟩

/-- The steps of a pass over some commands, up to the first failure, and how the pass ends. -/
def trace (policy : Option Policy) (journal : Journal) (commands : List Command)
    (room : Room := .standard) : List Step × Except Failure Unit × Journal :=
  match commands with
  | [] => ([], .ok (), journal)
  | c :: cs =>
    match (Pass.visit policy c room).go journal with
    | (.error f, journal) => ([], .error f, journal)
    | (.ok (), journal) =>
      let (steps, result) := trace policy journal cs room
      (Step.at journal.env c room :: steps, result)

end Planetarium
