/-!
# Line and column

Reports name a place of a text by its line and column, both counted from 1.  Only the line feed
ends a line.  An offset past the end of the text means its end.
-/
namespace Planetarium.Text

/-- A place named by its line and column, both counted from 1. -/
structure Position where
  line : Nat
  column : Nat
deriving DecidableEq, Repr

namespace Position

/-- The first place of a text. -/
def first : Position := ⟨1, 1⟩

/-- The place one character further on. -/
def advance (p : Position) (c : Char) : Position :=
  if c = '\n' then ⟨p.line + 1, 1⟩ else ⟨p.line, p.column + 1⟩

/-- The place reached from `p` by reading `text`. -/
def read (p : Position) (text : List Char) : Position := text.foldl advance p

/-- The place of an offset of a text. -/
def ofOffset (text : List Char) (offset : Nat) : Position := first.read (text.take offset)

/-- A text is read piece by piece. -/
theorem read_append (p : Position) (a b : List Char) :
    p.read (a ++ b) = (p.read a).read b := List.foldl_append

/-- The line goes up by one with every line break. -/
theorem line_read {p : Position} {text : List Char} :
    (p.read text).line = p.line + text.count '\n' := by
  induction text generalizing p with
  | nil => rfl
  | cons c text ih =>
    simp only [Position.read, List.foldl_cons, List.count_cons] at ih ⊢
    rw [ih, advance]
    split
    · rename_i hc
      simp only [hc, beq_self_eq_true, if_true]
      omega
    · rename_i hc
      simp [hc]

/-- Offsets beyond the end have the place of the end. -/
theorem ofOffset_of_length_le {text : List Char} {n : Nat} (h : text.length ≤ n) :
    ofOffset text n = first.read text := by
  rw [ofOffset, List.take_of_length_le h]

end Position
end Planetarium.Text
