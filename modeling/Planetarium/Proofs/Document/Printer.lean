import Planetarium.Proofs.Document.Append
import Planetarium.Proofs.Document.Depth
import Planetarium.Proofs.Grammar.Printed

/-!
# Documents as text

A document is written with a command on each line, and the commands of a block between braces on
lines of their own.  Every command is then derived up to the end of its line, whatever follows, and
a list of commands from one line end to another: that is the form in which a block and a whole
document can both use it.  So what is written is read back, as long as the limits allow it.

Where they allow the nesting, the stack may still be too small.  A reading with room for everything
then says what the one in little room comes to (`parse_narrow`).
-/
namespace Planetarium

/-- The value of a property as text. -/
def PropertyValue.chars : PropertyValue → List Char
  | .text s => '"' :: s.toList ++ ['"']
  | .expr e => e.chars
  | .stray word => word.toList

mutual
/-- The argument as text. -/
def Arg.chars : Arg → List Char
  | .word text => text.toList
  | .block commands => '{' :: '\n' :: Command.charsAll commands ++ ['}']

/-- Arguments as text, separated by blanks. -/
def Arg.charsAll : List Arg → List Char
  | [] => []
  | [a] => a.chars
  | a :: as => a.chars ++ ' ' :: Arg.charsAll as

/-- The command as text. -/
def Command.chars : Command → List Char
  | .invocation args => Arg.charsAll args
  | .property name value => name.toList ++ ':' :: ' ' :: value.chars
  | .definition name e => name.toList ++ ' ' :: ':' :: '=' :: ' ' :: e.chars
  | .stray word => word.toList

/-- Commands as text, each on a line of its own. -/
def Command.charsAll : List Command → List Char
  | [] => []
  | c :: cs => c.chars ++ '\n' :: Command.charsAll cs
end

/-- A document as text. -/
def Document.print (cs : List Command) : String := String.ofList (Command.charsAll cs)

namespace Grammar
open Parsing Text

variable {l : Level} {s t : List Char} {e : Expr}

theorem dropWhile_line : ('\n' :: t).dropWhile isSpace = '\n' :: t :=
  List.dropWhile_cons_of_neg (by decide)

/-- The text of an expression up to the end of the line, with a blank before it. -/
theorem reads_chars_line (hw : e.wellFormed) (hfits : Fits l e.nesting e.readingFrames)
    (hl : l.multiline = false) :
    Reads l ((' ' :: (e.chars ++ '\n' :: t)).dropWhile isSpace) (.expression e) ('\n' :: t) := by
  have h := reads_chars e hw hfits (delimited_line hl (t := t))
  have hexpression := h.expression_of_atom hfits.lacks_expressionFrames
  rw [trim_eq_dropWhile hl, dropWhile_line] at hexpression
  rw [List.dropWhile_cons_of_pos rfl, ← trim_eq_dropWhile hl, h.trim_atom]
  exact hexpression

theorem reads_definition {name : String} (hname : isName name.toList) (hw : e.wellFormed)
    (hfits : Fits l (Command.definition name e).nesting (Command.definition name e).readingFrames)
    (hl : l.multiline = false) :
    Reads l ((Command.definition name e).chars ++ '\n' :: t) (.command (.definition name e))
      ('\n' :: t) := by
  simp only [Command.chars, List.append_assoc, List.cons_append]
  refine .definition (word_of_isName hname ?_) (List.dropWhile_cons_of_pos rfl)
    (reads_chars_line hw hfits.inAssignment hl)
  rintro c ⟨⟩
  rfl

theorem reads_property {name : String} {value : PropertyValue} (hname : isName name.toList)
    (hw : value.wellFormed) (hfits : Fits l value.nesting value.readingFrames)
    (hl : l.multiline = false) :
    Reads l ((Command.property name value).chars ++ '\n' :: t) (.command (.property name value))
      ('\n' :: t) := by
  simp only [Command.chars, List.append_assoc, List.cons_append]
  have hword : Word (name.toList ++ ':' :: ' ' :: (value.chars ++ '\n' :: t)) name
      (':' :: ' ' :: (value.chars ++ '\n' :: t)) :=
    word_of_isName hname (by rintro c ⟨⟩; rfl)
  have hcolon : (':' :: ' ' :: (value.chars ++ '\n' :: t)).dropWhile isSpace =
      ':' :: ' ' :: (value.chars ++ '\n' :: t) := List.dropWhile_cons_of_neg (by decide)
  cases value with
  | text s =>
    have hquote : Quotation ((' ' :: ((PropertyValue.text s).chars ++ '\n' :: t)).dropWhile isSpace)
        s ('\n' :: t) := by
      refine ⟨?_, ?_⟩
      · simp [PropertyValue.chars, isSpace]
      · rw [PropertyValue.wellFormed, Bool.not_eq_true'] at hw
        simpa using hw
    have h := Reads.text (l := l) hword hcolon hquote
    rwa [dropWhile_line] at h
  | expr e => exact .property hword hcolon (reads_chars_line hw hfits.inAssignment hl)
  | stray word => contradiction

/-- What follows an argument. -/
theorem exists_after_arg (a : Arg) (as : List Arg) (t : List Char) :
    ∃ rest, Arg.charsAll (a :: as) ++ '\n' :: t = a.chars ++ rest ∧
      rest.dropWhile isSpace = (Arg.charsAll as ++ '\n' :: t).dropWhile isSpace ∧
      ∀ c ∈ rest.head?, isWordChar c = false := by
  cases as with
  | nil =>
    refine ⟨'\n' :: t, by rw [Arg.charsAll], rfl, ?_⟩
    rintro c ⟨⟩
    rfl
  | cons b as =>
    refine ⟨' ' :: (Arg.charsAll (b :: as) ++ '\n' :: t), by simp [Arg.charsAll], ?_, ?_⟩
    · exact List.dropWhile_cons_of_pos rfl
    · rintro c ⟨⟩
      rfl

mutual
/-- The text of a command is that command, up to the end of its line. -/
theorem reads_command (c : Command) {l : Level} {t : List Char} (hw : c.wellFormed)
    (hfits : Fits l c.nesting c.readingFrames) (hl : l.multiline = false) :
    Reads l (c.chars ++ '\n' :: t) (.command c) ('\n' :: t) := by
  cases c with
  | invocation args =>
    rw [Command.wellFormed, Bool.and_eq_true] at hw
    have h := reads_args args (t := t) hw.2 hfits hl
    cases args with
    | nil => exact absurd hw.1 (by decide)
    | cons a as => exact .invocation h
  | property name value =>
    rw [Command.wellFormed, Bool.and_eq_true] at hw
    exact reads_property hw.1 hw.2 hfits hl
  | definition name e =>
    rw [Command.wellFormed, Bool.and_eq_true] at hw
    exact reads_definition hw.1 hw.2 hfits hl
  | stray word => contradiction

/-- The texts of arguments are these arguments, up to the end of the line. -/
theorem reads_args (as : List Arg) {l : Level} {t : List Char} (hw : Arg.wellFormedAll as)
    (hfits : Fits l (Arg.nestingAll as) (Arg.readingFramesAll as)) (hl : l.multiline = false) :
    Reads l (Arg.charsAll as ++ '\n' :: t) (.args as) ('\n' :: t) := by
  cases as with
  | nil =>
    refine .noArgs ?_
    rintro c ⟨⟩
    exact .inl rfl
  | cons a as =>
    rw [Arg.wellFormedAll, Bool.and_eq_true] at hw
    rw [Arg.nestingAll, Arg.readingFramesAll] at hfits
    have hfit := hfits.mono (Nat.le_max_left _ _) (Nat.le_max_left _ _)
    have has := reads_args as (t := t) hw.2
      (hfits.mono (Nat.le_max_right _ _) (Nat.le_max_right _ _)) hl
    obtain ⟨rest, htext, hrest, hend⟩ := exists_after_arg a as t
    -- neither an argument nor the end of the line begins with a blank
    have hstart : (Arg.charsAll as ++ '\n' :: t).dropWhile isSpace =
        Arg.charsAll as ++ '\n' :: t := by
      rcases has.edges with rfl | h
      · exact dropWhile_line
      · exact dropWhile_of_startsCommand h fun c hc => by simp [isLayout, hc]
    rw [htext]
    rw [← hstart, ← hrest] at has
    cases a with
    | word name => exact .word (word_of_isName hw.1 hend) has
    | block cs =>
      have hcs := reads_commands cs (t := '}' :: rest) hw.1 hfit.inBlock hl
      simp only [Arg.chars, List.cons_append, List.append_assoc, List.nil_append]
      exact .block hfit.isFull hcs rfl has

/-- The texts of commands are these commands, from the end of a line to the end of a line. -/
theorem reads_commands (cs : List Command) {l : Level} {t : List Char}
    (hw : Command.wellFormedAll cs)
    (hfits : Fits l (Command.nestingAll cs) (Command.readingFramesAll cs))
    (hl : l.multiline = false) :
    Reads l ('\n' :: (Command.charsAll cs ++ t)) (.commands cs) ('\n' :: t) := by
  cases cs with
  | nil => exact .noCommands (hfits.lacks (Nat.le_refl _))
  | cons c cs =>
    rw [Command.wellFormedAll, Bool.and_eq_true] at hw
    rw [Command.nestingAll, Command.readingFramesAll] at hfits
    have hc := reads_command c (t := Command.charsAll cs ++ t) hw.1
      (hfits.mono (Nat.le_max_left _ _) (Nat.le_max_left _ _)) hl
    have hcs := reads_commands cs (t := t) hw.2
      (hfits.mono (Nat.le_max_right _ _) (Nat.le_max_right _ _)) hl
    rw [Command.charsAll, List.append_assoc, List.cons_append]
    refine .commands ?_ hcs
    rw [List.dropWhile_cons_of_pos rfl, dropWhile_of_startsCommand hc.edges fun c hc => hc]
    exact hc
end

/-- The line end before commands may be left out. -/
theorem Reads.of_line {c : Command} {cs : List Command}
    (h : Reads l ('\n' :: s) (.commands (c :: cs)) t) : Reads l s (.commands (c :: cs)) t := by
  cases h with
  | commands hc hcs =>
    rw [List.dropWhile_cons_of_pos rfl] at hc
    exact .commands hc hcs

/-- What is written of a well-formed document derives it. -/
theorem isDocument_charsAll {limits : Limits} {cs : List Command}
    (hw : Command.wellFormedAll cs) (hlimits : limits.Allow cs) :
    IsDocument limits (Command.charsAll cs) cs := by
  have hfits : Fits { limits } (Command.nestingAll cs) (Command.readingFramesAll cs) :=
    ⟨by simpa using hlimits.1, by simpa using hlimits.2⟩
  have h := reads_commands cs (t := []) hw hfits rfl
  rw [List.append_nil] at h
  cases cs with
  | nil => exact ⟨[], .noCommands (hfits.lacks (Nat.le_refl _)), rfl⟩
  | cons c cs => exact ⟨['\n'], h.of_line, rfl⟩

end Grammar

namespace Document
open Parsing Grammar

/-- **A well-formed document that is written is read back as it was,** if the limits allow its
nesting and there is room for its blocks, calls and operations.  If they allow the nesting and there
is not, it may be rejected for want of room and for nothing else. -/
theorem parse_print (limits : Limits) (cs : List Command) (hw : Command.wellFormedAll cs) :
    (limits.Allow cs → parse (print cs) limits = .ok cs) ∧
    (Command.nestingAll cs ≤ limits.depth → parse (print cs) limits = .ok cs ∨
      ∃ error, parse (print cs) limits = .error error ∧
        error.fault.cause = .stackExhausted limits.depth) := by
  have hread : ∀ limits : Limits, limits.Allow cs → parse (print cs) limits = .ok cs := by
    intro limits hlimits
    refine mapError_eq_ok.mpr (ofChars_document.mpr ?_)
    rw [print, String.toList_ofList]
    exact isDocument_charsAll hw hlimits
  refine ⟨hread limits, fun hdepth => ?_⟩
  have hwide := hread { limits with room := none } ⟨hdepth, nofun⟩
  exact parse_narrow hwide rfl Room.atMost_none

/-- A block in an invocation, with a definition and two properties in it. -/
def sample : List Command :=
  [.invocation [.word "astro", .word "sun", .block [
    .definition "r" (.binary .mul (.call "sqrt" [.ident "pi", .number (-2.5)]) (.number 1e22)),
    .property "radius" (.expr (.binary .sub (.ident "r") (.number 0.1))),
    .property "texture" (.text "sun.png")]]]

theorem parse_print_sample : Command.wellFormedAll sample ∧ ({ depth := 3 } : Limits).Allow sample ∧
    parse (print sample) { depth := 3 } = .ok sample :=
  have hw : Command.wellFormedAll sample := by decide
  have hlimits : ({ depth := 3 } : Limits).Allow sample := by decide
  ⟨hw, hlimits, (parse_print { depth := 3 } sample hw).1 hlimits⟩

/-- A sum of names, gathered to the left. -/
def leftSum : Nat → Expr
  | 0 => .ident "a"
  | n + 1 => .binary .add (leftSum n) (.ident "a")

theorem leftSum_wellFormed (n : Nat) : (leftSum n).wellFormed := by
  induction n with
  | zero => decide
  | succ n ih =>
    rw [leftSum, Expr.wellFormed, ih]
    decide

theorem nesting_leftSum (n : Nat) : (leftSum n).nesting = n := by
  induction n with
  | zero => rfl
  | succ n ih => rw [leftSum, Expr.nesting, ih, Expr.nesting, Nat.max_eq_left (Nat.zero_le n)]

/-- A sum begins with a parenthesis for each operation. -/
theorem exists_chars_leftSum (n : Nat) :
    ∃ rest, (leftSum n).chars = List.replicate n '(' ++ rest := by
  induction n with
  | zero => exact ⟨_, rfl⟩
  | succ n ih =>
    obtain ⟨rest, h⟩ := ih
    refine ⟨rest ++ ' ' :: '+' :: ' ' :: ['a'] ++ [')'], ?_⟩
    simp [leftSum, Expr.chars, h, List.replicate_succ, Operator.symbol]

theorem exists_print_leftSum (n : Nat) :
    ∃ rest, (print [.definition "x" (leftSum n)]).toList = deepDefinition n rest := by
  obtain ⟨rest, h⟩ := exists_chars_leftSum n
  refine ⟨rest ++ ['\n'], ?_⟩
  rw [print, String.toList_ofList, Command.charsAll, Command.charsAll, Command.chars, h]
  simp [deepDefinition]

/-- However much nesting is allowed, a document can need more room than there is. -/
theorem not_always_read_back : ¬ ∀ (limits : Limits) (cs : List Command),
    Command.wellFormedAll cs → Command.nestingAll cs ≤ limits.depth →
      parse (print cs) limits = .ok cs := by
  intro h
  have hw : Command.wellFormedAll [.definition "x" (leftSum 250)] := by
    rw [Command.wellFormedAll, Command.wellFormed, leftSum_wellFormed]
    decide
  have hdepth : Command.nestingAll [.definition "x" (leftSum 250)] ≤ (2000 : Int) := by
    rw [Command.nestingAll, Command.nesting, nesting_leftSum]
    decide
  have hread := h { depth := 2000 } [.definition "x" (leftSum 250)] hw hdepth
  -- its text begins like one that runs out of room, whatever comes after
  obtain ⟨rest, htext⟩ := exists_print_leftSum 250
  have hfault : ofChars { depth := 2000 } (deepDefinition 250 rest) =
      .error ⟨.stackExhausted 2000, 0⟩ :=
    ofChars_deepDefinition 992 rfl (by decide) (by decide) (by decide) rest
  rw [← htext, mapError_eq_ok.mp hread] at hfault
  exact absurd hfault nofun

end Document
end Planetarium
