import Planetarium.Decimal.Binary
import Planetarium.Orbit.Mobile
import Planetarium.Scene.Body

/-!
# Where the bodies are

At a time every body has turned by its angular speed times that time, in degrees, and stands at
its semimajor axis from the body it belongs to.  An infinite angle has neither cosine nor sine;
then there are no positions at all.
-/
namespace Planetarium.Orbit

/-- An angle is infinite. -/
inductive AngleError where
  | infiniteAngle
deriving DecidableEq, Repr

/-- The error in words. -/
def AngleError.message : AngleError → String
  | .infiniteAngle => "math domain error"

/-- One degree in radians. -/
def degree : Float := Float.ofBits 0x3F91DF46A2529D39

/-- The cosine and the sine of an angle in degrees. -/
def turn (degrees : Float) : Except AngleError (Float × Float) :=
  let angle := degrees * degree
  if Decimal.isInfinite angle then .error .infiniteAngle else .ok (angle.cos, angle.sin)

/-- The turn around the second axis by an angle in degrees. -/
def rotationY (degrees : Float) : Except AngleError (Frame Float) :=
  (turn degrees).map fun (c, s) => .rotation c s

/-- The frame of a body at a time, in that of the body it belongs to. -/
def frameOf (body : Body) (base : Frame Float) (time : Float) :
    Except AngleError (Frame Float) :=
  (turn (time * body.omega)).map fun (c, s) => swing base c s body.semimajorAxis

mutual
/-- A body at a time, as an arm. -/
def armOf (time : Float) : Body → Except AngleError (Arm Float)
  | ⟨name, _, axis, omega, _, _, children⟩ => do
    let (c, s) ← turn (time * omega)
    let arms ← armsOf time children
    return ⟨name, c, s, axis, arms⟩

/-- Some bodies at a time, as arms. -/
def armsOf (time : Float) : List Body → Except AngleError (List (Arm Float))
  | [] => return []
  | b :: bs => do
    let arm ← armOf time b
    let arms ← armsOf time bs
    return arm :: arms
end

/-- The table of the places of all bodies at a time. -/
def positions (bodies : List Body) (time : Float) : Except AngleError (Table (List Float)) :=
  (armsOf time bodies).map places

end Planetarium.Orbit
