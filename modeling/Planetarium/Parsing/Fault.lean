import Planetarium.Text.Quoted

/-!
# What can be wrong with a text

A text is rejected for one cause at one place.  Either it has the right shape but cannot be used
(a numeral without a value, a string, block or group that does not end, nesting that is too deep),
or a character stands where none of the things that could stand there begins.
-/
namespace Planetarium.Parsing
open Text

/-- Something the grammar looks for at a place. -/
inductive Expected where
  | closeParen
  | colon
  | define
  | openBrace
  | closeBrace
  | command
  | expression
  | identifier
  | operator
deriving DecidableEq, Repr

/-- The name of what was looked for. -/
def Expected.label : Expected → String
  | .closeParen => "')'"
  | .colon => "':'"
  | .define => "':='"
  | .openBrace => "'\x7b'"
  | .closeBrace => "'\x7d'"
  | .command => "command"
  | .expression => "expression"
  | .identifier => "identifier"
  | .operator => "operator"

/-- Everything the grammar looks for, in the order of the labels. -/
def Expected.all : List Expected :=
  [.closeParen, .colon, .define, .openBrace, .closeBrace, .command, .expression, .identifier,
   .operator]

/-- Everything that can be expected is in the list of all. -/
theorem Expected.mem_all (e : Expected) : e ∈ Expected.all := by cases e <;> decide

/-- The list of all is in the order of its labels. -/
theorem Expected.all_sorted : Expected.all.Pairwise fun a b => a.label < b.label := by decide

/-- Why a text is rejected. -/
inductive Cause where
  /-- A character, or the end of the text, where only the listed things can stand. -/
  | unexpected (found : Option Char) (expected : List Expected)
  /-- A closing brace outside all blocks. -/
  | strayBrace
  /-- A numeral that stands for no number. -/
  | malformedNumber (literal : String)
  /-- A numeral beyond the greatest finite number. -/
  | numberOutOfRange (literal : String)
  /-- A string without its closing quote. -/
  | unterminatedString
  /-- A block without its closing brace. -/
  | unterminatedBlock
  /-- More blocks, groups and calls inside each other than the limit. -/
  | nestedTooDeep (limit : Int)
  /-- More blocks, groups and calls inside each other than there is room for, though not more than
  the limit. -/
  | stackExhausted (limit : Int)
deriving DecidableEq, Repr

/-- The cause in words. -/
def Cause.message : Cause → String
  | .unexpected found expected =>
    let thing := match found with
      | some c => quoted (String.singleton c)
      | none => "end of input"
    "Unexpected " ++ thing ++ ", expected " ++ " or ".intercalate (expected.map Expected.label)
  | .strayBrace => "Unexpected '\x7d' without matching '\x7b'"
  | .malformedNumber literal => "Malformed number literal " ++ quoted literal
  | .numberOutOfRange literal => "Number literal " ++ quoted literal ++ " is out of range"
  | .unterminatedString => "Unterminated string literal"
  | .unterminatedBlock => "Block is never closed"
  | .nestedTooDeep limit => "Nesting deeper than " ++ toString limit ++ " levels"
  | .stackExhausted limit =>
    "Nesting too deep for the interpreter stack (max_depth=" ++ toString limit ++ ")"

/-- The classes of error that a caller can tell apart. -/
inductive ErrorClass where
  | parse
  | malformedLiteral
  | unterminatedString
  | unterminatedBlock
  | depthLimitExceeded
deriving DecidableEq, Repr

/-- The class of error that a text is rejected with. -/
def Cause.errorClass : Cause → ErrorClass
  | .unexpected .. | .strayBrace => .parse
  | .malformedNumber _ | .numberOutOfRange _ => .malformedLiteral
  | .unterminatedString => .unterminatedString
  | .unterminatedBlock => .unterminatedBlock
  | .nestedTooDeep _ | .stackExhausted _ => .depthLimitExceeded

/-- A cause and the offset it is reported at. -/
structure Fault where
  cause : Cause
  offset : Nat
deriving DecidableEq, Repr

end Planetarium.Parsing
