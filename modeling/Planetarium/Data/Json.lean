import Planetarium.Data.Basic
import Planetarium.Decimal.Notation
import Planetarium.Text.Hex

/-!
# JSON

Data as JSON text: every item and every field on a line of its own, indented by two columns for
each level, and empty lists and records as a pair of brackets.  Texts are pure ASCII: any other
character is written by its UTF-16 units.
-/
namespace Planetarium.Data
open Text

/-- A UTF-16 unit as an escape. -/
def unitEscape (n : Nat) : List Char := '\\' :: 'u' :: HexCase.lower.numeral 4 n

/-- A character by its UTF-16 units. -/
def codeUnits (c : Char) : List Char :=
  let n := c.toNat
  if n < 0x10000 then unitEscape n
  else unitEscape (0xD800 + (n - 0x10000) / 0x400) ++ unitEscape (0xDC00 + (n - 0x10000) % 0x400)

/-- One character of a JSON string. -/
def jsonChar (c : Char) : List Char :=
  match c with
  | '"' => ['\\', '"']
  | '\\' => ['\\', '\\']
  | '\n' => ['\\', 'n']
  | '\r' => ['\\', 'r']
  | '\t' => ['\\', 't']
  | '\x08' => ['\\', 'b']
  | '\x0c' => ['\\', 'f']
  | c => if ' ' ≤ c && c ≤ '~' then [c] else codeUnits c

/-- A text as a JSON string. -/
def jsonString (s : String) : List Char := '"' :: s.toList.flatMap jsonChar ++ ['"']

/-- A new line indented for a level. -/
def newLine (level : Nat) : List Char := '\n' :: List.replicate (2 * level) ' '

mutual
/-- Data as JSON text at a level of indentation. -/
def jsonAt (level : Nat) : Data → List Char
  | .null => "null".toList
  | .text s => jsonString s
  | .number x => (Decimal.shortestText x).toList
  | .list [] => ['[', ']']
  | .list (d :: ds) =>
    '[' :: newLine (level + 1) ++ jsonAt (level + 1) d ++ jsonItems (level + 1) ds ++
      newLine level ++ [']']
  | .record [] => ['\x7b', '\x7d']
  | .record ((name, d) :: ds) =>
    '\x7b' :: newLine (level + 1) ++ jsonString name ++ ':' :: ' ' :: jsonAt (level + 1) d ++
      jsonFields (level + 1) ds ++ newLine level ++ ['\x7d']

/-- The items after the first. -/
def jsonItems (level : Nat) : List Data → List Char
  | [] => []
  | d :: ds => ',' :: newLine level ++ jsonAt level d ++ jsonItems level ds

/-- The fields after the first. -/
def jsonFields (level : Nat) : List (String × Data) → List Char
  | [] => []
  | (name, d) :: ds =>
    ',' :: newLine level ++ jsonString name ++ ':' :: ' ' :: jsonAt level d ++
      jsonFields level ds
end

/-- Data as JSON text. -/
def json (d : Data) : String := String.ofList (jsonAt 0 d)

end Planetarium.Data
