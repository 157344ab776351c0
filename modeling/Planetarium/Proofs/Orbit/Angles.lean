import Planetarium.Proofs.Decimal.Product
import Planetarium.Proofs.Orbit.Places

/-!
# Infinite angles

The places of a scene can be told unless a body has turned by an infinite angle.  An angle is
infinite in degrees just if it is in radians, so what decides is the product of the time and the
angular speed alone.
-/
namespace Planetarium.Orbit
open Body Decimal

variable {time degrees : Float} {bodies bs : List Body} {arms : List (Arm Float)}

/-- Some body turns by an infinite angle until a time. -/
def TurnsEndlessly (bodies : List Body) (time : Float) : Prop :=
  ∃ b ∈ preorderAll bodies, isInfinite (time * b.omega)

instance (bodies : List Body) (time : Float) : Decidable (TurnsEndlessly bodies time) :=
  inferInstanceAs (Decidable (∃ b ∈ preorderAll bodies, isInfinite (time * b.omega)))

/-- A degree has few radians, so turning degrees into radians keeps finite angles finite. -/
theorem isInfinite_mul_degree (x : Float) : isInfinite (x * degree) = isInfinite x := by
  have hdegree : degree.toModel.unpack =
      .finite .positive 0x11DF46A2529D39 (-58) (by decide) := rfl
  exact isInfinite_mul x hdegree (by decide)

theorem turn_eq (degrees : Float) : turn degrees =
    if isInfinite degrees then .error .infiniteAngle
    else .ok ((degrees * degree).cos, (degrees * degree).sin) := by
  simp only [turn, isInfinite_mul_degree]

/-- A turn fails just for an infinite angle. -/
theorem turn_eq_error_iff : turn degrees = .error .infiniteAngle ↔ isInfinite degrees := by
  rw [turn_eq]
  split
  · exact iff_of_true rfl ‹_›
  · exact iff_of_false nofun ‹_›

/-- The frame of one body can be told whatever its distance and the frame it hangs from are. -/
theorem frameOf_eq_error_iff (body : Body) (base : Frame Float) (time : Float) :
    frameOf body base time = .error .infiniteAngle ↔ isInfinite (time * body.omega) := by
  rw [frameOf, ← turn_eq_error_iff]
  cases turn (time * body.omega) with
  | error reason => cases reason; exact iff_of_true rfl rfl
  | ok turned => constructor <;> intro h <;> cases h

theorem noInfiniteAngle_iff : NoInfiniteAngle bodies time ↔ ¬ TurnsEndlessly bodies time := by
  simp only [NoInfiniteAngle, TurnsEndlessly, isInfinite_mul_degree, not_exists, not_and,
    Bool.not_eq_true]

/-- Where all bodies have their arms none has turned by an infinite angle. -/
theorem noInfiniteAngle_of_armsOf (h : armsOf time bs = .ok arms) : NoInfiniteAngle bs time := by
  induction bs using forest_induction generalizing arms with
  | nil => nofun
  | cons b bs ihc ih =>
    obtain ⟨turned, inner, rest, hturn, hinner, hrest, rfl⟩ := armsOf_cons_eq_ok.mp h
    rw [NoInfiniteAngle, preorderAll_cons, List.cons_append, List.forall_mem_cons,
      List.forall_mem_append]
    refine ⟨?_, ihc hinner, ih hrest⟩
    rw [isInfinite_mul_degree, Bool.eq_false_iff, ne_eq, ← turn_eq_error_iff, hturn]
    nofun

/-- The places of all bodies can be told unless one of them turns endlessly. -/
theorem exists_positions_iff :
    (∃ table, positions bodies time = .ok table) ↔ ¬ TurnsEndlessly bodies time := by
  rw [← noInfiniteAngle_iff]
  constructor
  · rintro ⟨table, h⟩
    cases harms : armsOf time bodies with
    | error reason => rw [positions, harms] at h; cases h
    | ok arms => exact noInfiniteAngle_of_armsOf harms
  · intro h
    obtain ⟨arms, harms⟩ := exists_armsOf h
    exact ⟨places arms, by rw [positions, harms]; rfl⟩

/-- Positions fail just where a body turns endlessly. -/
theorem positions_eq_error_iff :
    positions bodies time = .error .infiniteAngle ↔ TurnsEndlessly bodies time := by
  rw [← not_iff_not, ← exists_positions_iff]
  cases positions bodies time with
  | error reason => cases reason; exact iff_of_false (fun h => h rfl) nofun
  | ok table => exact iff_of_true nofun ⟨table, rfl⟩

end Planetarium.Orbit
