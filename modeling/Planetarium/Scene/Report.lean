import Planetarium.Data.Basic
import Planetarium.Decimal.Notation
import Planetarium.Orbit.Position
import Planetarium.Scene.Texture

/-!
# Reports on a scene

What is known about the scene of a document: its bodies, the textures it names, the variables it
leaves, and the places of the bodies at a time if one is asked for.  A report can be written for
readers or turned into data.
-/
namespace Planetarium
open Decimal

/-- A time and the places of the bodies then. -/
structure Placement where
  time : Float
  places : Table (List Float)

/-- What is known about a scene. -/
structure Report where
  bodies : List Body
  textures : List String
  env : Environment
  placement : Option Placement

/-! ### For readers -/

/-- Blanks for a level of indentation. -/
def Report.pad (level : Nat) : String := String.ofList (List.replicate (2 * level) ' ')

mutual
/-- The lines on a body. -/
def Body.lines (level : Nat) : Body → List String
  | ⟨name, radius, axis, omega, spin, texture, children⟩ =>
    let pad := Report.pad level
    [pad ++ "- name: " ++ name,
     pad ++ "  radius: " ++ reportText radius,
     pad ++ "  semimajor_axis: " ++ reportText axis,
     pad ++ "  omega: " ++ reportText omega,
     pad ++ "  rotation_omega: " ++ reportText spin] ++
    (texture.map fun file => pad ++ "  texture: " ++ file).toList ++
    (if children.isEmpty then [] else (pad ++ "  children:") :: Body.linesAll (level + 2) children)

/-- The lines on some bodies. -/
def Body.linesAll (level : Nat) : List Body → List String
  | [] => []
  | b :: bs => b.lines level ++ Body.linesAll level bs
end

namespace Report

/-- Some lines, or a line that says that there are none. -/
def linesOr (none : String) (lines : List String) : List String :=
  if lines.isEmpty then [none] else lines

/-- A place in words. -/
def placeText (place : List Float) : String :=
  "[" ++ ", ".intercalate (place.map reportText) ++ "]"

/-- The lines on the places of the bodies. -/
def placementLines (p : Placement) : List String :=
  ("positions (t=" ++ reportText p.time ++ "):") ::
    p.places.entries.map fun (path, place) => "  " ++ path ++ ": " ++ placeText place

/-- The report for readers. -/
def text (r : Report) : String :=
  let lines :=
    "bodies:" :: linesOr "  []" (Body.linesAll 1 r.bodies) ++
    "textures:" :: linesOr "  []" (r.textures.map ("  - " ++ ·)) ++
    "environment:" :: linesOr "  \x7b\x7d"
      (r.env.entries.map fun (name, x) => "  " ++ name ++ ": " ++ reportText x) ++
    (r.placement.map placementLines).getD []
  "\n".intercalate lines ++ "\n"

end Report

/-! ### As data -/

mutual
/-- A body as data. -/
def Body.data : Body → Data
  | ⟨name, radius, axis, omega, spin, texture, children⟩ =>
    .record [
      ("name", .text name),
      ("radius", .number radius),
      ("semimajor_axis", .number axis),
      ("omega", .number omega),
      ("rotation_omega", .number spin),
      ("texture", (texture.map Data.text).getD .null),
      ("children", .list (Body.dataAll children))]

/-- Some bodies as data. -/
def Body.dataAll : List Body → List Data
  | [] => []
  | b :: bs => b.data :: Body.dataAll bs
end

/-- A time and the places then, as data. -/
def Placement.fields (p : Placement) : List (String × Data) :=
  [("time", .number p.time),
   ("positions", .record (p.places.entries.map fun (path, place) =>
     (path, .list (place.map .number))))]

/-- The report as data. -/
def Report.data (r : Report) : Data :=
  .record (
    [("bodies", .list (Body.dataAll r.bodies)),
     ("textures", .list (r.textures.map .text)),
     ("environment", .record (r.env.entries.map fun (name, x) => (name, .number x)))] ++
    (r.placement.map Placement.fields).getD [])

end Planetarium
