import Planetarium.Document.Basic
import Planetarium.Grammar.Expression

/-!
# Reading documents

The grammar of documents:

    document   := command*
    command    := definition | property | invocation
    definition := identifier ':=' expression
    property   := identifier ':' (string | expression)
    invocation := (block | identifier)+
    block      := '{' command* '}'

Spaces and tabs stand between words, line breaks between commands and around those of a block.
The alternatives of a command are tried in this order from the same place.  A block whose commands
end at something other than its closing brace does not match, and the invocation ends before it.
Where there is no room for the frames of a command, the reading stops before it is looked at.
-/
namespace Planetarium.Grammar
open Parsing Text

variable {n : Nat}

/-- A rule for commands at any cursor with fewer than `n` characters left, for use inside a
block. -/
abbrev Body (n : Nat) :=
  (level : Level) → (t : Cursor) → t.left < n → Attempt (List Command) (t.left + 1)

/-- The name of a definition or a property, its sign, and the blanks after it. -/
def head (word : List Char) (expected : Expected) (s : Cursor) : Attempt String s.left :=
  (identifier s).branch
    (fun name t ht =>
      have hu := Cursor.left_skip_le (p := isSpace) (s := t)
      match h : (t.skip isSpace).after? word with
      | none => .miss (t.skip isSpace).offset expected
      | some v =>
        have hv := Cursor.left_after? h
        have hw := Cursor.left_skip_le (p := isSpace) (s := v)
        .accept name (v.skip isSpace) (by omega))
    (fun _ => .miss s.offset .identifier)

/-- A definition. -/
def definition (level : Level) (s : Cursor) : Attempt Command s.left :=
  (head [':', '='] .define s).andThen fun name t ht =>
    (expression level.inAssignment t).andThen fun e u hu =>
      .accept (.definition name e) u (Nat.lt_trans hu ht)

/-- A property. -/
def property (level : Level) (s : Cursor) : Attempt Command s.left :=
  (head [':'] .colon s).andThen fun name t ht =>
    (quotedString t).branch
      (fun text u hu =>
        have hv := Cursor.left_skip_le (p := isSpace) (s := u)
        .accept (.property name (.text text)) (u.skip isSpace) (by omega))
      (fun _ =>
        (expression level.inAssignment t).andThen fun e u hu =>
          .accept (.property name (.expr e)) u (Nat.lt_trans hu ht))

/-- A block. -/
def block (level : Level) (s : Cursor) (body : Body s.left) : Attempt Arg s.left :=
  (char '{' s).branch
    (fun _ t ht =>
      level.enter level.inBlock s.offset fun level =>
        (body level t ht).andThen fun commands u hu =>
          have hv := Cursor.left_skip_le (p := isLayout) (s := u)
          (char '}' (u.skip isLayout)).branch
            (fun _ w hw => .accept (.block commands) w (by omega))
            (fun _ =>
              if (u.skip isLayout).left = 0 then .fault .unterminatedBlock s.offset
              else .miss (u.skip isLayout).offset .closeBrace))
    (fun _ => .miss s.offset .openBrace)

/-- A word. -/
def word (s : Cursor) : Attempt Arg s.left :=
  (identifier s).branch
    (fun text t ht => .accept (.word text) t ht)
    (fun _ => .miss s.offset .identifier)

/-- Arguments after those already read, and the blanks after them. -/
def args (level : Level) (body : Body n) (before : List Arg) (s : Cursor) (h : s.left ≤ n) :
    Attempt (List Arg) (n + 1) :=
  ((block level s fun level t ht => body level t (by omega)).orElse fun _ => word s).branch
    (fun arg t ht =>
      have hu := Cursor.left_skip_le (p := isSpace) (s := t)
      args level body (before ++ [arg]) (t.skip isSpace) (by omega))
    (fun _ => .accept before s (Nat.lt_succ_of_le h))
termination_by s.left

/-- An invocation. -/
def invocation (level : Level) (s : Cursor) (body : Body s.left) : Attempt Command s.left :=
  ((block level s body).orElse fun _ => word s).andThen fun arg t ht =>
    have hu := Cursor.left_skip_le (p := isSpace) (s := t)
    (args level (n := (t.skip isSpace).left) (fun level u hu => body level u (by omega)) [arg]
      (t.skip isSpace) (Nat.le_refl _)).andThen fun args u hu =>
        .accept (.invocation args) u (by omega)

/-- A command, after the blanks and line breaks before it. -/
def command (level : Level) (s : Cursor) (body : Body s.left) : Attempt Command s.left :=
  have hs := Cursor.left_skip_le (p := isLayout) (s := s)
  level.within Level.commandFrames fun _ =>
    Attempt.widen hs <|
      (definition level (s.skip isLayout)).orElse fun _ =>
      (property level (s.skip isLayout)).orElse fun _ =>
      invocation level (s.skip isLayout) fun level t ht => body level t (by omega)

/-- Commands, as many as there are. -/
def commands (level : Level) (s : Cursor) : Attempt (List Command) (s.left + 1) :=
  (command level s fun inner t _ht => commands inner t).branch
    (fun first t ht =>
      (commands level t).andThen fun rest u hu => .accept (first :: rest) u (by omega))
    (fun _ => .accept [] s (Nat.lt_succ_self _))
termination_by s.left

end Planetarium.Grammar

namespace Planetarium.Document
open Parsing Text

/-- A whole text as a document. -/
def ofChars (limits : Limits) (text : List Char) : Except Fault (List Command) :=
  match Grammar.commands { limits } (.start text) with
  | ⟨.stopped reason, log⟩ => .error (reason.toFault text limits.depth log)
  | ⟨.mismatched, log⟩ => .error (unexpectedFault text log)
  | ⟨.matched commands next _, log⟩ =>
    let last := next.skip isLayout
    if last.left = 0 then .ok commands
    else if last.peek? = some '}' && furthest log ≤ last.offset then
      .error ⟨.strayBrace, last.offset⟩
    else .error (unexpectedFault text (log ++ [.missed last.offset .command]))

/-- Reads a whole text as a document. -/
def parse (text : String) (limits : Limits := {}) : Except ParseError (List Command) :=
  (ofChars limits text.toList).mapError (·.inText text.toList)

end Planetarium.Document
