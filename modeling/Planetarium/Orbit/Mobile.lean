import Planetarium.Orbit.Frame
import Planetarium.Table

/-!
# Mobiles

A mobile is a forest of arms.  Each arm is turned by some angle in the frame it hangs from and has
its body at some distance along the turned axis; further arms hang from that body.  The place of a
body depends only on the turns and distances on the way down to it.  Bodies are named by their path,
the names on the way joined by dots; two bodies with one path share an entry of the table of
places, in the place of the first and with the value of the last.  Forests of every depth have their
places; the stack for it is taken to be there.
-/
namespace Planetarium.Orbit

/-- An arm: its name, the cosine and the sine of its turn, its length, and the arms that hang from
its end. -/
structure Arm (α : Type) where
  name : String
  cos : α
  sin : α
  length : α
  arms : List (Arm α) := []

variable {α : Type} [Add α] [Mul α] [Neg α] [OfNat α 0] [OfNat α 1]

/-- The frame at the end of an arm that hangs from a frame. -/
def swing (base : Frame α) (cos sin length : α) : Frame α :=
  base * .rotation cos sin * .translation length 0 0

mutual
/-- The paths and places of an arm and of all that hangs from it, from the top down. -/
def Arm.places (base : Frame α) (above : String) : Arm α → List (String × List α)
  | ⟨name, cos, sin, length, arms⟩ =>
    let frame := swing base cos sin length
    (above ++ name, frame.place) :: Arm.placesAll frame (above ++ name ++ ".") arms

/-- The paths and places of some arms. -/
def Arm.placesAll (base : Frame α) (above : String) : List (Arm α) → List (String × List α)
  | [] => []
  | a :: as => a.places base above ++ Arm.placesAll base above as
end

/-- The table of the places of a mobile. -/
def places (arms : List (Arm α)) : Table (List α) := .ofList (Arm.placesAll .identity "" arms)

end Planetarium.Orbit
