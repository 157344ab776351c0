import Planetarium.Decimal.Numeral
import Planetarium.Text.Hex

/-!
# Texts in YAML

A text stands plain in YAML if it reads back as that text: it must not look like a value of another
kind (a truth value, null, a number, a date), nor hold anything that means something to YAML where
it stands.  Otherwise it is put between single quotes, and between double quotes if it holds a
single quote or a character that has to be escaped.  Long texts are folded at single spaces once
the line is longer than 80 columns.
-/
namespace Planetarium.Data.Scalar
open Decimal Text

/-! ### Texts that look like other values -/

/-- The words for the truth values, null, the merge key and the value key. -/
def words : List String :=
  ["true", "True", "TRUE", "false", "False", "FALSE", "~", "null", "Null", "NULL", "<<", "="]

/-- The words for infinity, after an optional sign, and for not a number. -/
def infinityWords : List String := [".inf", ".Inf", ".INF"]
def nanWords : List String := [".nan", ".NaN", ".NAN"]

/-- The character is a digit or an underscore. -/
def isDigitOrGap (c : Char) : Bool := isDigit c || c = '_'

/-- The character is a hexadecimal digit or an underscore. -/
def isHexOrGap (c : Char) : Bool :=
  isDigitOrGap c || ('a' ≤ c && c ≤ 'f') || ('A' ≤ c && c ≤ 'F')

/-- There is at least one character, and all satisfy `p`. -/
def someAll (p : Char → Bool) (cs : List Char) : Bool := !cs.isEmpty && cs.all p

/-- A whole number without its sign: decimal, binary, octal or hexadecimal. -/
def isWhole : List Char → Bool
  | '0' :: 'b' :: cs => someAll (fun c => c = '0' || c = '1' || c = '_') cs
  | '0' :: 'o' :: cs => someAll (fun c => ('0' ≤ c && c ≤ '7') || c = '_') cs
  | '0' :: 'x' :: cs => someAll isHexOrGap cs
  | cs => someAll isDigitOrGap cs

/-- An exponent: `e` or `E`, a sign (which may be left out if `bare`), and digits. -/
def isExponent (bare : Bool) : List Char → Bool
  | e :: cs =>
    isPowerMark e &&
      match Numeral.splitSign cs with
      | (none, ds) => bare && someAll isDigit ds
      | (some _, ds) => someAll isDigit ds
  | [] => false

/-- A number with a point or an exponent, without its sign. -/
def isFractional (cs : List Char) : Bool :=
  match cs with
  | '.' :: rest =>
    let tail := rest.dropWhile isDigitOrGap
    !(rest.takeWhile isDigitOrGap).isEmpty && (tail.isEmpty || isExponent false tail)
  | c :: rest =>
    isDigit c &&
      match rest.dropWhile isDigitOrGap with
      | '.' :: tail =>
        let tail := tail.dropWhile isDigitOrGap
        tail.isEmpty || isExponent true tail
      | tail => isExponent true tail
  | [] => false

/-- A number, an infinity or not a number. -/
def isNumber (cs : List Char) : Bool :=
  let magnitude := (Numeral.splitSign cs).2
  (cs.head?.any fun c => isSign c || isDigit c) && isWhole magnitude ||
    isFractional magnitude || infinityWords.contains (String.ofList magnitude) ||
    nanWords.contains (String.ofList cs)

/-- Drops one digit, or two if `wide` or if there are two. -/
def dropDigits? (wide : Bool) : List Char → Option (List Char)
  | c :: d :: cs =>
    if isDigit c && isDigit d then some cs
    else if isDigit c && !wide then some (d :: cs)
    else none
  | [c] => if isDigit c && !wide then some [] else none
  | [] => none

/-- Drops one certain character. -/
def dropChar? (c : Char) : List Char → Option (List Char)
  | d :: cs => if d = c then some cs else none
  | [] => none

/-- A zone of time: `Z`, or a sign, hours, and minutes if there are any. -/
def isZone : List Char → Bool
  | ['Z'] => true
  | c :: cs =>
    isSign c &&
      match dropDigits? false cs with
      | some [] => true
      | some (':' :: rest) => dropDigits? true rest == some []
      | _ => false
  | [] => false

/-- A time of day after a date, with its fraction and its zone if they are there. -/
def isTime (cs : List Char) : Bool :=
  let time := do
    let cs ← dropDigits? false cs
    let cs ← dropChar? ':' cs
    let cs ← dropDigits? true cs
    let cs ← dropChar? ':' cs
    dropDigits? true cs
  match time with
  | none => false
  | some cs =>
    let cs := match cs with
      | '.' :: rest => rest.dropWhile isDigit
      | cs => cs
    cs.isEmpty || isZone (cs.dropWhile fun c => c = ' ' || c = '\t')

/-- A date, with a time of day or without. -/
def isDate (cs : List Char) : Bool :=
  let year := cs.take 4
  let full := do
    let cs ← dropChar? '-' (cs.drop 4)
    let cs ← dropDigits? true cs
    let cs ← dropChar? '-' cs
    dropDigits? true cs
  let short := do
    let cs ← dropChar? '-' (cs.drop 4)
    let cs ← dropDigits? false cs
    let cs ← dropChar? '-' cs
    dropDigits? false cs
  year.length = 4 && year.all isDigit &&
    (full == some [] ||
      match short with
      | some (c :: rest) =>
        if c = 'T' || c = 't' then isTime rest
        else (c = ' ' || c = '\t') && isTime (rest.dropWhile fun c => c = ' ' || c = '\t')
      | _ => false)

/-- The text looks like a value that is not a text. -/
def looksTyped (cs : List Char) : Bool :=
  words.contains (String.ofList cs) || isNumber cs || isDate cs

/-! ### Which style a text is written in -/

/-- The character ends a line. -/
def isLineBreak (c : Char) : Bool := c = '\n' || c = '\x85' || c = '\u2028' || c = '\u2029'

/-- The character has to be escaped: a control, U+007F or the byte order mark. -/
def isSpecial (c : Char) : Bool :=
  let n := c.toNat
  !(c = '\n' || (0x20 ≤ n && n ≤ 0x7E) || n = 0x85 || (0xA0 ≤ n && n ≤ 0xFFFD && n ≠ 0xFEFF) ||
    0x10000 ≤ n)

/-- The first character means something to YAML wherever it stands. -/
def isIndicator (c : Char) : Bool := "#,[]\x7b\x7d&*!|>'\"%@\x60".toList.contains c

/-- A colon before a space or the end, or a number sign after a space. -/
def hasInnerIndicator : List Char → Bool
  | [] => false
  | [c] => c = ':'
  | c :: d :: cs => (c = ':' && d = ' ') || (c = ' ' && d = '#') || hasInnerIndicator (d :: cs)

/-- The text begins with something that means something to YAML there. -/
def hasLeadingIndicator : List Char → Bool
  | [] => false
  | c :: cs =>
    isIndicator c ||
      ((c = '-' || c = '?' || c = ':') && (cs.isEmpty || cs.head? = some ' '))

/-- The text begins like the start or the end of a document. -/
def hasMarker (cs : List Char) : Bool :=
  ['-', '-', '-'].isPrefixOf cs || ['.', '.', '.'].isPrefixOf cs

/-- A space and the end of a line stand side by side. -/
def hasBreakBySpace : List Char → Bool
  | c :: d :: cs =>
    (c = ' ' && isLineBreak d) || (isLineBreak c && d = ' ') || hasBreakBySpace (d :: cs)
  | _ => false

/-- How a text is written. -/
inductive Style where
  | plain
  | single
  | double
deriving DecidableEq, Repr

/-- The style of a text: plain if nothing speaks against it, single quotes next. -/
def styleOf (cs : List Char) : Style :=
  let spaced := cs.head? = some ' ' || cs.getLast? = some ' '
  let plain := !cs.isEmpty && !looksTyped cs && !hasMarker cs && !hasLeadingIndicator cs &&
    !hasInnerIndicator cs && !spaced && !cs.any isLineBreak && !cs.any isSpecial
  if plain then .plain
  else if cs.contains '\'' || cs.contains '\n' || hasBreakBySpace cs || cs.any isSpecial then
    .double
  else .single

/-! ### Writing and folding -/

/-- The greatest number of columns of a line that is not folded. -/
def width : Nat := 80

/-- A new line indented by some columns. -/
def newLine (indent : Nat) : List Char := '\n' :: List.replicate indent ' '

/-- The words of a plain text from a column on.  A word that would go beyond the last column starts
a new line, unless it is the first there; the space before it stays at the end of the line.  A
single space that would itself go beyond the last column gives way to the new line. -/
def plainText (indent : Nat) : (column : Nat) → (words : List (List Char)) → List Char
  | _, [] => []
  | column, word :: rest =>
    let wraps := !word.isEmpty && indent < column && width < column + word.length
    let column := (if wraps then indent else column) + word.length
    (if wraps then newLine indent else []) ++ word ++
      match rest with
      | [] => []
      | next :: _ =>
        if width ≤ column && !word.isEmpty && !next.isEmpty then
          newLine indent ++ plainText indent indent rest
        else ' ' :: plainText indent (column + 1) rest

/-- A text between single quotes from a column on, the quotes left out. -/
def singleText (indent : Nat) : (column : Nat) → (before : Option Char) → List Char → List Char
  | _, _, [] => []
  | column, before, c :: rest =>
    if c = ' ' && width < column && before.any (· ≠ ' ') && rest.head?.any (· ≠ ' ') then
      newLine indent ++ singleText indent indent (some c) rest
    else if isLineBreak c then
      if rest.head?.any isLineBreak then c :: singleText indent 0 (some c) rest
      else c :: List.replicate indent ' ' ++ singleText indent indent (some c) rest
    else c :: singleText indent (column + 1) (some c) rest

/-- The escape of a character between double quotes, if it has one. -/
def escape? (c : Char) : Option (List Char) :=
  match c with
  | '\x00' => some ['\\', '0']
  | '\x07' => some ['\\', 'a']
  | '\x08' => some ['\\', 'b']
  | '\t' => some ['\\', 't']
  | '\n' => some ['\\', 'n']
  | '\x0b' => some ['\\', 'v']
  | '\x0c' => some ['\\', 'f']
  | '\r' => some ['\\', 'r']
  | '\x1b' => some ['\\', 'e']
  | '"' => some ['\\', '"']
  | '\\' => some ['\\', '\\']
  | '\x85' => some ['\\', 'N']
  | '\u2028' => some ['\\', 'L']
  | '\u2029' => some ['\\', 'P']
  | c =>
    let n := c.toNat
    if isSpecial c then
      some ('\\' :: (if n < 0x100 then 'x' :: HexCase.upper.numeral 2 n
        else 'u' :: HexCase.upper.numeral 4 n))
    else none

/-- What stands just before a character between double quotes. -/
inductive Before where
  /-- The opening quote. -/
  | quote
  /-- A character that stands for itself. -/
  | plain (c : Char)
  /-- An escape, or the beginning of a line. -/
  | mark
  /-- The end of a line, which stands for the character. -/
  | gap
deriving DecidableEq, Repr

/-- The text goes on with one space and then something else. -/
def startsWithOneSpace : List Char → Bool
  | ' ' :: c :: _ => c ≠ ' '
  | _ => false

/-- A text between double quotes from a column on, the quotes left out.  A line that is too long
ends at a space, after an escape or before the character after an escape.  The end of the line
stands for a space that has none beside it, if the line ends at that space or after an escape in
front of it; anywhere else the line ends with a backslash, and a space at the start of the next
line gets one too. -/
def doubleText (indent : Nat) : (column : Nat) → (before : Before) → List Char → List Char
  | _, _, [] => []
  | column, before, c :: rest =>
    let inside := before ≠ .quote && !rest.isEmpty
    if before = .gap then doubleText indent column .mark rest
    else match escape? c with
      | some code =>
        let column := column + code.length
        if inside && width + 1 < column then
          if startsWithOneSpace rest then
            code ++ newLine indent ++ doubleText indent indent .gap rest
          else
            let lead := if rest.head? = some ' ' then ['\\'] else []
            code ++ '\\' :: newLine indent ++ lead ++
              doubleText indent (indent + lead.length) .mark rest
        else code ++ doubleText indent column .mark rest
      | none =>
        if inside && width < column && (c = ' ' || before = .mark) then
          if c = ' ' && before ≠ .mark && before ≠ .plain ' ' && rest.head? ≠ some ' ' then
            newLine indent ++ doubleText indent indent .mark rest
          else
            let lead := if c = ' ' then ['\\', ' '] else [c]
            '\\' :: newLine indent ++ lead ++
              doubleText indent (indent + lead.length) (.plain c) rest
        else c :: doubleText indent (column + 1) (.plain c) rest

/-- The words of a text between its spaces; empty ones stand between two spaces. -/
def spaced (cs : List Char) : List (List Char) := cs.splitOn ' '

/-- A text as YAML, from a column on, with further lines indented. -/
def render (indent column : Nat) (text : String) : List Char :=
  let cs := text.toList
  match styleOf cs with
  | .plain => plainText indent column (spaced cs)
  | .single => '\'' :: singleText indent (column + 1) none cs ++ ['\'']
  | .double => '"' :: doubleText indent (column + 1) .quote cs ++ ['"']

end Planetarium.Data.Scalar
