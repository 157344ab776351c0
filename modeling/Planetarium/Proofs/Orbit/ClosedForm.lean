import Planetarium.Proofs.Orbit.Places
import Mathlib

/-!
# Where an arm ends

In exact arithmetic the frame at the end of a chain of arms is known without multiplying matrices:
it is turned by all angles on the way together and moved by each arm along the turn so far
(`frameAt_eq`).  If the sines and cosines belong to angles, frames are rotated and not distorted,
and an arm keeps its length.
-/
namespace Planetarium.Orbit

/-- A frame that is turned around the second axis and moved at right angles to it. -/
def Frame.pose {α : Type} [OfNat α 0] [OfNat α 1] [Neg α] (c s x z : α) : Frame α :=
  ⟨⟨c, 0, s, x⟩, ⟨0, 1, 0, 0⟩, ⟨-s, 0, c, z⟩, ⟨0, 0, 0, 1⟩⟩

/-- The part of a frame that turns, without the part that moves. -/
def Frame.linear {α : Type} (m : Frame α) : Matrix (Fin 3) (Fin 3) α :=
  !![m.row₁.x, m.row₁.y, m.row₁.z; m.row₂.x, m.row₂.y, m.row₂.z; m.row₃.x, m.row₃.y, m.row₃.z]

/-- The square of the distance between two places. -/
def squaredDistance {α : Type} [Ring α] (p q : List α) : α :=
  (p.zipWith (fun a b => (a - b) ^ 2) q).sum

namespace Arm

section Chains
variable {α : Type}

mutual
/-- The chains of an arm and of all that hangs from it, from the top down, behind the arms
`above`. -/
def chains (above : List (Arm α)) : Arm α → List (List (Arm α))
  | ⟨name, cos, sin, length, arms⟩ =>
    (above ++ [⟨name, cos, sin, length, arms⟩]) ::
      chainsAll (above ++ [⟨name, cos, sin, length, arms⟩]) arms

/-- The chains of some arms and of all that hangs from them. -/
def chainsAll (above : List (Arm α)) : List (Arm α) → List (List (Arm α))
  | [] => []
  | a :: as => a.chains above ++ chainsAll above as
end

/-- The path of a chain: its names joined by dots. -/
def path (chain : List (Arm α)) : String := ".".intercalate (chain.map name)

/-- What a path begins with that leads along these arms and on. -/
def lead (above : List (Arm α)) : String := String.join (above.map fun a => a.name ++ ".")

theorem path_append_singleton (above : List (Arm α)) (a : Arm α) :
    path (above ++ [a]) = lead above ++ a.name := by
  rw [path, List.map_append, List.map_cons, List.map_nil, intercalate_append_singleton,
    List.map_map]
  rfl

theorem lead_append_singleton (above : List (Arm α)) (a : Arm α) :
    lead (above ++ [a]) = lead above ++ a.name ++ "." := by
  simp [lead, String.append_assoc]

@[simp] theorem chainsAll_cons (above : List (Arm α)) (a : Arm α) (as : List (Arm α)) :
    chainsAll above (a :: as) =
      (above ++ [a]) :: chainsAll (above ++ [a]) a.arms ++ chainsAll above as := by
  cases a
  rfl

/-- What holds of no arms, and of an arm with those beside it if it holds of those that hang from
it and of those beside it, holds of all arms. -/
@[elab_as_elim] theorem forest_induction {motive : List (Arm α) → Prop} (nil : motive [])
    (cons : ∀ a as, motive a.arms → motive as → motive (a :: as)) : ∀ as, motive as
  | [] => nil
  | ⟨name, cos, sin, length, arms⟩ :: as =>
    cons ⟨name, cos, sin, length, arms⟩ as
      (forest_induction nil cons arms) (forest_induction nil cons as)

end Chains

variable {α : Type} [CommRing α]

/-! ## Ends of chains -/

/-- The frame at the end of a chain, by its matrices. -/
def frameAt (chain : List (Arm α)) : Frame α :=
  chain.foldl (fun base a => swing base a.cos a.sin a.length) .identity

/-- A turn after another: their cosine and sine by those of the one before and those of the arm. -/
def turnBy (turned : α × α) (a : Arm α) : α × α :=
  (turned.1 * a.cos - turned.2 * a.sin, turned.2 * a.cos + turned.1 * a.sin)

/-- The cosine and the sine of all turns of a chain together. -/
def heading : List (Arm α) → α × α
  | [] => (1, 0)
  | a :: as => as.foldl turnBy (a.cos, a.sin)

/-- Where a chain ends: the sum of its arms, each along the turns up to it. -/
def endOf (chain : List (Arm α)) : List α :=
  [∑ k : Fin chain.length, chain[k].length * (heading (chain.take (k + 1))).1, 0,
   ∑ k : Fin chain.length, chain[k].length * -(heading (chain.take (k + 1))).2]

/-- The frame at the end of a chain is that of the chain above, swung once more. -/
theorem frameAt_append_singleton (chain : List (Arm α)) (a : Arm α) :
    frameAt (chain ++ [a]) = swing (frameAt chain) a.cos a.sin a.length := by
  simp [frameAt]

theorem heading_append_singleton (chain : List (Arm α)) (a : Arm α) :
    heading (chain ++ [a]) = turnBy (heading chain) a := by
  cases chain with
  | nil => simp [heading, turnBy]
  | cons b chain => simp [heading]

/-- The sum over a chain has one term for the last arm. -/
theorem sum_append_singleton (f : α × α → α) (chain : List (Arm α)) (a : Arm α) :
    ∑ k : Fin (chain ++ [a]).length,
        (chain ++ [a])[k].length * f (heading ((chain ++ [a]).take (k + 1))) =
      ∑ k : Fin chain.length, chain[k].length * f (heading (chain.take (k + 1))) +
        a.length * f (heading (chain ++ [a])) := by
  have hlength : chain.length + 1 = (chain ++ [a]).length := by simp
  rw [← (finCongr hlength).sum_comp, Fin.sum_univ_castSucc]
  congr 1
  · refine Finset.sum_congr rfl fun k _ => ?_
    have htake : (chain ++ [a]).take (k + 1) = chain.take (k + 1) :=
      List.take_append_of_le_length k.isLt
    simp [htake]
  · simp [List.take_of_length_le]

/-- A frame in closed form that is swung is one again. -/
theorem swing_pose (c s x z : α) (a : Arm α) :
    swing (.pose c s x z) a.cos a.sin a.length =
      .pose (turnBy (c, s) a).1 (turnBy (c, s) a).2
        (x + a.length * (turnBy (c, s) a).1) (z + a.length * -(turnBy (c, s) a).2) := by
  change Frame.mul (Frame.mul _ _) _ = _
  simp only [Frame.mul, Frame.apply, Frame.transpose, Vec.dot, Frame.pose, Frame.rotation,
    Frame.translation, turnBy, Frame.mk.injEq, Vec.mk.injEq]
  constructorm* _ ∧ _ <;> ring

/-- The frame at the end of a chain is turned by all its turns together and stands where the chain
ends. -/
theorem frameAt_eq (chain : List (Arm α)) :
    frameAt chain = .pose (heading chain).1 (heading chain).2
      (∑ k : Fin chain.length, chain[k].length * (heading (chain.take (k + 1))).1)
      (∑ k : Fin chain.length, chain[k].length * -(heading (chain.take (k + 1))).2) := by
  induction chain using List.reverseRecOn with
  | nil => simp [frameAt, Frame.identity, Frame.pose, heading]
  | append_singleton chain a ih =>
    rw [frameAt_append_singleton, ih, swing_pose, ← heading_append_singleton,
      sum_append_singleton Prod.fst, sum_append_singleton fun t => -t.2]

theorem place_pose (c s x z : α) : (Frame.pose c s x z).place = [x, 0, z] := by
  simp [Frame.place, Frame.pose, Frame.apply, Vec.dot, Vec.origin]

/-- The place of a chain is where it ends. -/
theorem place_frameAt (chain : List (Arm α)) : (frameAt chain).place = endOf chain := by
  rw [frameAt_eq, place_pose, endOf]

/-- Every arm stands at the end of its chain. -/
theorem placesAll_eq (above arms : List (Arm α)) :
    placesAll (frameAt above) (lead above) arms =
      (chainsAll above arms).map fun chain => (path chain, endOf chain) := by
  induction arms using forest_induction generalizing above with
  | nil => rfl
  | cons a as iha ih =>
    -- what hangs from the arm starts at the end of its chain
    have hinner := iha (above ++ [a])
    rw [frameAt_append_singleton, lead_append_singleton] at hinner
    obtain ⟨name, cos, sin, length, inner⟩ := a
    rw [placesAll, places, chainsAll_cons, List.map_append, List.map_cons, ih, hinner,
      path_append_singleton, ← place_frameAt, frameAt_append_singleton]

/-! ## Turns by angles -/

/-- The cosine and the sine are those of an angle. -/
def IsTurn (a : Arm α) : Prop := a.cos ^ 2 + a.sin ^ 2 = 1

/-- Turns add up to a turn. -/
theorem heading_of_isTurn {chain : List (Arm α)} (h : ∀ a ∈ chain, a.IsTurn) :
    (heading chain).1 ^ 2 + (heading chain).2 ^ 2 = 1 := by
  induction chain using List.reverseRecOn with
  | nil => simp [heading]
  | append_singleton chain a ih =>
    rw [List.forall_mem_append, List.forall_mem_singleton] at h
    rw [heading_append_singleton, turnBy]
    calc _ = ((heading chain).1 ^ 2 + (heading chain).2 ^ 2) * (a.cos ^ 2 + a.sin ^ 2) := by ring
      _ = 1 := by rw [ih h.1, h.2, one_mul]

/-- The linear part of a frame in closed form is a rotation. -/
theorem linear_pose_mem {c s x z : α} (h : c ^ 2 + s ^ 2 = 1) :
    (Frame.pose c s x z).linear ∈ Matrix.specialOrthogonalGroup (Fin 3) α := by
  have hcs : c * c + s * s = 1 := by rw [← h, sq, sq]
  have hsc : s * s + c * c = 1 := by rw [add_comm, hcs]
  rw [Matrix.mem_specialOrthogonalGroup_iff, Matrix.mem_orthogonalGroup_iff]
  constructor
  · ext i j
    fin_cases i <;> fin_cases j <;>
      simp [Frame.pose, Frame.linear, Matrix.mul_apply, Fin.sum_univ_three, hcs, hsc, mul_comm s c]
  · simp [Frame.pose, Frame.linear, Matrix.det_fin_three, hcs]

/-- An arm keeps its length. -/
theorem squaredDistance_endOf {above : List (Arm α)} {a : Arm α}
    (h : ∀ b ∈ above ++ [a], b.IsTurn) :
    squaredDistance (endOf (above ++ [a])) (endOf above) = a.length ^ 2 := by
  have hturn := heading_of_isTurn h
  rw [endOf, endOf, sum_append_singleton Prod.fst, sum_append_singleton fun t => -t.2]
  simp only [squaredDistance, List.zipWith_cons_cons, List.zipWith_nil_right, List.sum_cons,
    List.sum_nil]
  linear_combination a.length ^ 2 * hturn

end Arm

open Arm

/-- **Orbits in closed form.**  In any exact arithmetic, and whatever stands for the cosine and the
sine of each turn, the table of places is made of the ends of all chains in order: each arm of a
chain adds its length along all turns up to it, so nothing ever leaves the plane of the orbits.
The end of a chain is where its frame, the product of the matrices of its arms, puts its origin.  If
the turns are turns by angles, frames are rotated, and every arm is as long as it is given. -/
theorem places_closed_form {α : Type} [CommRing α] (arms : List (Arm α)) :
    Arm.placesAll .identity "" arms =
      (chainsAll [] arms).map (fun chain => (path chain, endOf chain)) ∧
    places arms = .ofList ((chainsAll [] arms).map fun chain => (path chain, endOf chain)) ∧
    ∀ chain ∈ chainsAll [] arms,
      endOf chain = (frameAt chain).place ∧
      ((∀ a ∈ chain, a.IsTurn) →
        (frameAt chain).linear ∈ Matrix.specialOrthogonalGroup (Fin 3) α ∧
        ∀ above a, chain = above ++ [a] →
          squaredDistance (endOf chain) (endOf above) = a.length ^ 2) := by
  have hplaces : Arm.placesAll .identity "" arms = _ := placesAll_eq [] arms
  refine ⟨hplaces, congrArg Table.ofList hplaces, fun chain _ => ⟨(place_frameAt chain).symm, ?_⟩⟩
  intro h
  constructor
  · rw [frameAt_eq]
    exact linear_pose_mem (heading_of_isTurn h)
  · rintro above a rfl
    exact squaredDistance_endOf h

/-- A moon on its arm at a right angle to that of its sun. -/
def sampleMoon : Arm ℚ := ⟨"Moon", 0, 1, 1, []⟩

/-- The arm of a sun with that of its moon. -/
def sampleSun : Arm ℚ := ⟨"Sun", 3 / 5, 4 / 5, 2, [sampleMoon]⟩

theorem endOf_sampleSun : endOf [sampleSun] = [6 / 5, 0, -8 / 5] := by
  norm_num [endOf, heading, sampleSun]

theorem endOf_sampleMoon : endOf [sampleSun, sampleMoon] = [2 / 5, 0, -11 / 5] := by
  change [∑ k : Fin 2, _, 0, ∑ k : Fin 2, _] = _
  norm_num [Fin.sum_univ_two, heading, turnBy, sampleSun, sampleMoon]

theorem places_closed_form_sample :
    Arm.placesAll .identity "" [sampleSun] =
      [("Sun", [6 / 5, 0, -8 / 5]), ("Sun.Moon", [2 / 5, 0, -11 / 5])] ∧
    (frameAt [sampleSun, sampleMoon]).linear ∈ Matrix.specialOrthogonalGroup (Fin 3) ℚ ∧
    squaredDistance [2 / 5, 0, -11 / 5] [6 / 5, 0, -8 / 5] = (1 : ℚ) ^ 2 := by
  obtain ⟨hplaces, -, hchains⟩ := places_closed_form [sampleSun]
  have hturns : ∀ a ∈ [sampleSun, sampleMoon], a.IsTurn := by
    norm_num [IsTurn, sampleSun, sampleMoon]
  obtain ⟨-, hrotated⟩ := hchains [sampleSun, sampleMoon] (.tail _ (.head _))
  obtain ⟨hlinear, hdistance⟩ := hrotated hturns
  refine ⟨?_, hlinear, ?_⟩
  · rw [hplaces, ← endOf_sampleSun, ← endOf_sampleMoon]
    rfl
  · rw [← endOf_sampleSun, ← endOf_sampleMoon]
    exact hdistance [sampleSun] sampleMoon rfl

end Planetarium.Orbit
