/-!
# Room on the stack

Texts and trees are gone through by functions that call each other, once for every level of
nesting, on a stack that may be bounded.  Three of them notice that the stack is at its end and say
so: the reading of a text, the reading of an expression and the evaluation of an expression.  For
these the frames are counted, one for each function that is running, and `Room` is the number of
frames that a function may still use when it is called.

What is not counted:

* functions that return before the next level is entered (the scanners of the lexer, the making of
  an error, a warning that is issued): they take a frame or two for a moment, and what is called
  room here is what there is beside them;
* the frames of whatever calls the library, the command line among them: they make the room smaller
  from the start;
* everything that goes through a tree without an answer of its own for a stack that ends: writing
  trees as data and as text, collecting textures, placing bodies, and the blocks of a document
  themselves.  It is taken to have the stack that it needs.  In a room that the blocks around an
  expression have used up already, the expression counts as nested too deeply.
-/
namespace Planetarium

/-- The number of frames there are for a function and what it calls, if they are bounded. -/
abbrev Room := Option Nat

namespace Room
variable {room wide : Room} {m n : Nat}

/-- The room of a library call under the usual limit of the stack. -/
def standard : Room := some 992

/-- The room that so many frames leave. -/
def below (frames : Nat) (room : Room) : Room := room.map (· - frames)

@[simp] theorem below_none : below n none = none := rfl

@[simp] theorem below_some (r : Nat) : below n (some r) = some (r - n) := rfl

@[simp] theorem below_zero : below 0 room = room := by cases room <;> rfl

/-- Frames are taken together or one after the other. -/
@[simp] theorem below_below : below n (below m room) = below (m + n) room := by
  cases room with
  | none => rfl
  | some r => simp only [below_some, Nat.sub_sub]

/-- The room of which so many frames leave this one. -/
def above (frames : Nat) (room : Room) : Room := room.map (· + frames)

/-- Frames that are put back can be taken again. -/
@[simp] theorem below_above : below n (above n room) = room := by
  cases room with
  | none => rfl
  | some r => simp only [above, Option.map_some, below_some, Nat.add_sub_cancel]

/-- Some of the frames leave the room above the others. -/
theorem below_above_add : below m (above (n + m) room) = above n room := by
  cases room with
  | none => rfl
  | some r =>
    simp only [above, Option.map_some, below_some]
    rw [← Nat.add_assoc, Nat.add_sub_cancel]

/-- The first room is no more than the second one. -/
def AtMost (room wide : Room) : Prop := ∀ w ∈ wide, ∃ r ∈ room, r ≤ w

/-- Every room is at most the unbounded one. -/
theorem atMost_none : room.AtMost none := by
  rintro w ⟨⟩

/-- A room is at most itself. -/
theorem AtMost.refl : room.AtMost room := fun w hw => ⟨w, hw, Nat.le_refl w⟩

/-- Rooms are compared through a third one. -/
theorem AtMost.trans {wider : Room} (h : room.AtMost wide) (h' : wide.AtMost wider) :
    room.AtMost wider := by
  intro w hw
  obtain ⟨v, hv, hvw⟩ := h' w hw
  obtain ⟨r, hr, hrv⟩ := h v hv
  exact ⟨r, hr, Nat.le_trans hrv hvw⟩

/-- The room above some frames is at least what they leave. -/
theorem atMost_above : room.AtMost (above n room) := by
  intro w hw
  obtain ⟨r, hr, rfl⟩ := Option.map_eq_some_iff.mp hw
  exact ⟨r, hr, Nat.le_add_right r n⟩

/-- What is called has at most the room of its caller. -/
theorem AtMost.below (h : room.AtMost wide) : (Room.below n room).AtMost wide := by
  intro w hw
  obtain ⟨r, rfl, hle⟩ := h w hw
  exact ⟨r - n, rfl, Nat.le_trans (Nat.sub_le r n) hle⟩

/-- The same frames leave at most the same room. -/
theorem AtMost.below_below (h : room.AtMost wide) :
    (Room.below n room).AtMost (Room.below n wide) := by
  cases wide with
  | none => exact atMost_none
  | some w =>
    obtain ⟨r, rfl, hle⟩ := h w rfl
    rintro _ ⟨⟩
    exact ⟨r - n, rfl, Nat.sub_le_sub_right hle n⟩

end Room
end Planetarium
