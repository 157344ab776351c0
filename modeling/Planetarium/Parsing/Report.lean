import Planetarium.Parsing.Attempt
import Planetarium.Text.Position

/-!
# Reports

A reading that fails is reported at one place of the text, by offset and by line and column.
Where nothing that could follow follows, the report names the furthest offset at which anything
was missed, the character there, and everything that was missed at that very offset.
-/
namespace Planetarium.Parsing
open Text

/-- The misses of a log. -/
def misses (log : List Event) : List (Nat × Expected) :=
  log.filterMap fun
    | .missed offset expected => some (offset, expected)
    | .opened _ => none

/-- The offsets at which something was opened. -/
def openings (log : List Event) : List Nat :=
  log.filterMap fun
    | .missed _ _ => none
    | .opened offset => some offset

/-- The furthest offset of a miss. -/
def furthest (log : List Event) : Nat := (misses log).foldl (fun n miss => max n miss.1) 0

/-- What was missed at the furthest offset, in the order of the labels. -/
def missedFurthest (log : List Event) : List Expected :=
  Expected.all.filter fun e => (misses log).contains (furthest log, e)

/-- The fault that a log amounts to when nothing that could follow follows. -/
def unexpectedFault (text : List Char) (log : List Event) : Fault :=
  ⟨.unexpected text[furthest log]? (missedFurthest log), furthest log⟩

/-- The fault that a stopped reading amounts to. -/
def Stop.toFault (text : List Char) (limit : Int) (log : List Event) : Stop → Fault
  | .fault f => f
  | .unexpected => unexpectedFault text log
  | .exhausted => ⟨.stackExhausted limit, furthest log⟩

/-- A rejected text: the fault and where it is. -/
structure ParseError where
  fault : Fault
  position : Position
deriving DecidableEq, Repr

/-- The report of a fault of a text. -/
def Fault.inText (f : Fault) (text : List Char) : ParseError :=
  ⟨f, .ofOffset text f.offset⟩

/-- The report in words. -/
def ParseError.message (e : ParseError) : String :=
  e.fault.cause.message ++ " (line " ++ toString e.position.line ++ ", column " ++
    toString e.position.column ++ ")"

@[simp] theorem misses_append (a b : List Event) : misses (a ++ b) = misses a ++ misses b :=
  List.filterMap_append

@[simp] theorem openings_append (a b : List Event) :
    openings (a ++ b) = openings a ++ openings b :=
  List.filterMap_append

end Planetarium.Parsing
