/-!
# Line ends of a file

A file may end its lines with a carriage return, a line feed or both.  Its text is read with every
such line end as one line feed.
-/
namespace Planetarium.Text

/-- Every carriage return, with the line feed after it if there is one, as a line feed. -/
def unifyLineEnds : List Char → List Char
  | [] => []
  | '\r' :: '\n' :: rest => '\n' :: unifyLineEnds rest
  | c :: rest => (if c = '\r' then '\n' else c) :: unifyLineEnds rest

end Planetarium.Text
