import Planetarium.Text.Hex
import Planetarium.Text.Printable

/-!
# Quoted text in messages

Messages show a piece of the reader's text between quotes, on one line and with every character
visible.  The quotes are single ones, unless the text holds a single quote and no double one.  A
backslash, the enclosing quote and the common control characters are written with a backslash;
any other character without a visible form is written by its code point.
-/
namespace Planetarium.Text

/-- The quote that encloses a text. -/
def quoteMark (text : List Char) : Char :=
  if text.contains '\'' && !text.contains '"' then '"' else '\''

/-- The code point of a character, in the shortest of the three escape forms. -/
def codeEscape (c : Char) : List Char :=
  let n := c.toNat
  if n < 0x100 then '\\' :: 'x' :: HexCase.lower.numeral 2 n
  else if n < 0x10000 then '\\' :: 'u' :: HexCase.lower.numeral 4 n
  else '\\' :: 'U' :: HexCase.lower.numeral 8 n

/-- One character between quotes `mark`. -/
def quotedChar (mark : Char) (c : Char) : List Char :=
  if c = '\\' || c = mark then ['\\', c]
  else if c = '\n' then ['\\', 'n']
  else if c = '\r' then ['\\', 'r']
  else if c = '\t' then ['\\', 't']
  else if isPrintable c then [c]
  else codeEscape c

/-- The text between quotes. -/
def quotedChars (text : List Char) : List Char :=
  let mark := quoteMark text
  mark :: text.flatMap (quotedChar mark) ++ [mark]

/-- The text between quotes, as messages show it. -/
def quoted (text : String) : String := String.ofList (quotedChars text.toList)

end Planetarium.Text
