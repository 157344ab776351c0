import Planetarium.Expr.Eval

/-!
# Room for an evaluation

All that the room does to an evaluation is to end it: in less room an expression has the value that
it has in more, or fails for the same reason, unless there is not room enough (`eval_narrow`).  So
a result that is not for want of room is the result in every wider room.

Results are compared by `EqUnlessDeep`, which lets the second one be out of room.  It goes through
the steps of an evaluation one by one, and every step that takes room takes as much on both sides.
-/
namespace Planetarium

/-- The results are the same, unless the second one is for want of room. -/
def EqUnlessDeep {α : Type} (a b : Except EvalError α) : Prop := b = .error .nestedTooDeep ∨ a = b

namespace EqUnlessDeep
variable {α β : Type} {a b : Except EvalError α} {f g : α → Except EvalError β}

theorem refl (a : Except EvalError α) : EqUnlessDeep a a := .inr rfl

/-- Steps that compare may be followed by steps that compare. -/
theorem bind (h : EqUnlessDeep a b) (hnext : ∀ x, EqUnlessDeep (f x) (g x)) :
    EqUnlessDeep (a >>= f) (b >>= g) := by
  obtain rfl | rfl := h
  · exact .inl rfl
  · cases a with
    | ok x => exact hnext x
    | error reason => exact .inr rfl

theorem eq_of_ne (h : EqUnlessDeep a b) (hb : b ≠ .error .nestedTooDeep) : a = b :=
  h.resolve_left hb

/-- A value is the same on both sides. -/
theorem eq_ok {x : α} (h : EqUnlessDeep a (.ok x)) : a = .ok x :=
  h.eq_of_ne fun hb => nomatch hb

end EqUnlessDeep

/-- Either there is no room for some frames, or they leave the rest of it. -/
theorem takeRoom_cases (frames : Nat) (room : Room) :
    takeRoom frames room = .error .nestedTooDeep ∨
      takeRoom frames room = .ok (room.below frames) := by
  cases room with
  | none => exact .inr rfl
  | some r =>
    by_cases h : frames ≤ r
    · exact .inr (takeRoom_some h)
    · exact .inl (if_neg h)

/-- Where there is room for some frames, there is in a wider room. -/
theorem takeRoom_of_atMost {frames : Nat} {room wide : Room} (h : room.AtMost wide)
    (hok : takeRoom frames room = .ok (room.below frames)) :
    takeRoom frames wide = .ok (wide.below frames) := by
  cases wide with
  | none => rfl
  | some w =>
    obtain ⟨r, rfl, hle⟩ := h w rfl
    refine takeRoom_some (Nat.le_trans (Nat.le_of_not_lt fun hlt => ?_) hle)
    rw [takeRoom, if_neg (Nat.not_le_of_gt hlt)] at hok
    cases hok

/-- Steps after some frames compare as they do in the rooms that the frames leave. -/
theorem EqUnlessDeep.takeRoom {α : Type} {frames : Nat} {room wide : Room}
    {f g : Room → Except EvalError α} (hwide : room.AtMost wide)
    (h : EqUnlessDeep (f (wide.below frames)) (g (room.below frames))) :
    EqUnlessDeep (Planetarium.takeRoom frames wide >>= f)
      (Planetarium.takeRoom frames room >>= g) := by
  obtain hdeep | hok := takeRoom_cases frames room
  · exact .inl (by rw [hdeep]; rfl)
  · rw [hok, takeRoom_of_atMost hwide hok]
    exact h

namespace Expr
variable {env : Environment} {room wide : Room} {e : Expr} {x : Float}

mutual
/-- In a narrower room an evaluation gives the same, unless it ends for want of room. -/
theorem eval_narrow (env : Environment) {room wide : Room} (h : room.AtMost wide) (e : Expr) :
    EqUnlessDeep (e.eval env wide) (e.eval env room) := by
  cases e with
  | ident name => exact .takeRoom h (.refl _)
  | number value => exact .takeRoom h (.refl _)
  | stray word => exact .takeRoom h (.refl _)
  | call function args =>
    simp only [eval]
    exact .takeRoom h <| (EqUnlessDeep.refl (resolve function args.length)).bind fun rule =>
      .takeRoom h.below_below <|
        (evalAll_narrow env h.below_below.below_below args).bind fun values => .refl _
  | binary operator left right =>
    simp only [eval]
    refine .takeRoom h ?_
    cases operator with
    | unspecified => exact .refl _
    | add | sub | mul | div =>
      exact (eval_narrow env h.below_below left).bind fun y =>
        (eval_narrow env h.below_below right).bind fun z => .refl _

theorem evalAll_narrow (env : Environment) {room wide : Room} (h : room.AtMost wide)
    (es : List Expr) : EqUnlessDeep (evalAll env wide es) (evalAll env room es) := by
  cases es with
  | nil => exact .refl _
  | cons e es =>
    exact (eval_narrow env h e).bind fun y => (evalAll_narrow env h es).bind fun ys => .refl _
end

/-- The same in the room of a call. -/
theorem evaluate_narrow (env : Environment) (h : room.AtMost wide) (e : Expr) :
    EqUnlessDeep (e.evaluate env wide) (e.evaluate env room) :=
  eval_narrow env h.below_below e

/-- A value stays what it is in a wider room. -/
theorem evaluate_widen (h : room.AtMost wide) (hx : e.evaluate env room = .ok x) :
    e.evaluate env wide = .ok x :=
  (hx ▸ evaluate_narrow env h e).eq_ok

end Expr
end Planetarium
