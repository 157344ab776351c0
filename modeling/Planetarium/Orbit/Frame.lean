/-!
# Frames

A frame is a 4x4 matrix that takes a body's own coordinates to those of the world.  Products are
full products, with every entry of both matrices, so an entry that is not finite spreads the way
the arithmetic of the scalars says.  The scalars are anything with the operations that occur.
-/
namespace Planetarium.Orbit

/-- Four coordinates, the last being 1 for a place. -/
structure Vec (α : Type) where
  x : α
  y : α
  z : α
  w : α
deriving DecidableEq, Repr

/-- A matrix by its rows. -/
structure Frame (α : Type) where
  row₁ : Vec α
  row₂ : Vec α
  row₃ : Vec α
  row₄ : Vec α
deriving DecidableEq, Repr

variable {α : Type}

/-- The rows of a matrix. -/
def Frame.rows (m : Frame α) : List (Vec α) := [m.row₁, m.row₂, m.row₃, m.row₄]

/-- The coordinates in order. -/
def Vec.toList (v : Vec α) : List α := [v.x, v.y, v.z, v.w]

section Product
variable [Add α] [Mul α]

/-- The scalar product. -/
def Vec.dot (u v : Vec α) : α := u.x * v.x + u.y * v.y + u.z * v.z + u.w * v.w

/-- A matrix applied to coordinates. -/
def Frame.apply (m : Frame α) (v : Vec α) : Vec α :=
  ⟨m.row₁.dot v, m.row₂.dot v, m.row₃.dot v, m.row₄.dot v⟩

/-- The columns of a matrix as the rows of another. -/
def Frame.transpose (m : Frame α) : Frame α :=
  ⟨⟨m.row₁.x, m.row₂.x, m.row₃.x, m.row₄.x⟩, ⟨m.row₁.y, m.row₂.y, m.row₃.y, m.row₄.y⟩,
   ⟨m.row₁.z, m.row₂.z, m.row₃.z, m.row₄.z⟩, ⟨m.row₁.w, m.row₂.w, m.row₃.w, m.row₄.w⟩⟩

/-- The product of two matrices. -/
def Frame.mul (m n : Frame α) : Frame α :=
  let t := n.transpose
  ⟨t.apply m.row₁, t.apply m.row₂, t.apply m.row₃, t.apply m.row₄⟩

instance : Mul (Frame α) := ⟨Frame.mul⟩

end Product

section Constants
variable [OfNat α 0] [OfNat α 1]

/-- The frame of the world. -/
def Frame.identity : Frame α :=
  ⟨⟨1, 0, 0, 0⟩, ⟨0, 1, 0, 0⟩, ⟨0, 0, 1, 0⟩, ⟨0, 0, 0, 1⟩⟩

/-- Moves by three distances. -/
def Frame.translation (x y z : α) : Frame α :=
  ⟨⟨1, 0, 0, x⟩, ⟨0, 1, 0, y⟩, ⟨0, 0, 1, z⟩, ⟨0, 0, 0, 1⟩⟩

/-- Turns around the second axis, given the cosine and the sine of the angle. -/
def Frame.rotation [Neg α] (c s : α) : Frame α :=
  ⟨⟨c, 0, s, 0⟩, ⟨0, 1, 0, 0⟩, ⟨-s, 0, c, 0⟩, ⟨0, 0, 0, 1⟩⟩

/-- The origin of a frame. -/
def Vec.origin : Vec α := ⟨0, 0, 0, 1⟩

end Constants

/-- Where a frame puts its origin. -/
def Frame.place [Add α] [Mul α] [OfNat α 0] [OfNat α 1] (m : Frame α) : List α :=
  let p := m.apply .origin
  [p.x, p.y, p.z]

end Planetarium.Orbit
