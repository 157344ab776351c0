import Planetarium.Document.Pass
import Planetarium.Proofs.Expr.FirstError
import Planetarium.Proofs.Expr.Room

/-!
# Definitions are substitutions

To bind a variable to the value of an expression comes to the same as to write the expression
wherever the variable stands (`define_substitutes`).  A bound variable and the expression it stands
for give the same value, so the steps around them meet the same values and fail for the same
reasons.

The only difference is room: the expanded expression is higher.  Hence results are compared by
`EqUnlessDeep`, and without a bound on the room nothing is ever out of it
(`eval_ne_nestedTooDeep`).
-/
namespace Planetarium
namespace Expr
variable {env : Environment}

/-! ## Room -/

/-- Every node takes room. -/
theorem eval_of_takeRoom {room : Room} (h : takeRoom 1 room = .error .nestedTooDeep)
    (e : Expr) : e.eval env room = .error .nestedTooDeep := by
  match room with
  | none => cases h
  | some 0 => cases e <;> rfl
  | some (r + 1) =>
    rw [takeRoom_some (Nat.le_add_left 1 r)] at h
    cases h

/-- Where there is room without bound, nothing is out of it. -/
theorem eval_ne_nestedTooDeep (e : Expr) : e.eval env none ≠ .error .nestedTooDeep := by
  intro hdeep
  have hfirst : reason? (e.eval env none) = firstOffence? env.names e.nodes := reason?_eval e
  rw [hdeep] at hfirst
  obtain ⟨node, -, hnode⟩ := List.exists_of_findSome?_eq_some hfirst.symm
  exact offence?_ne_nestedTooDeep hnode

/-! ## Substitution -/

mutual
/-- The expression with `d` for the variable `x`.  The names of functions stay as they are. -/
def subst (e : Expr) (x : String) (d : Expr) : Expr :=
  match e with
  | .ident name => if name = x then d else .ident name
  | .number value => .number value
  | .call function args => .call function (substAll args x d)
  | .binary operator left right => .binary operator (left.subst x d) (right.subst x d)
  | .stray word => .stray word

/-- The expressions with `d` for the variable `x`. -/
def substAll (es : List Expr) (x : String) (d : Expr) : List Expr :=
  match es with
  | [] => []
  | e :: es => e.subst x d :: substAll es x d
end

variable {x : String} {d e : Expr} {v : Float}

theorem substAll_eq_map (es : List Expr) : substAll es x d = es.map fun e => e.subst x d := by
  induction es with
  | nil => rfl
  | cons e es ih => rw [substAll, ih, List.map_cons]

@[simp] theorem length_substAll (es : List Expr) : (substAll es x d).length = es.length := by
  rw [substAll_eq_map, List.length_map]

theorem lookup_insert_self (hx : builtinConstants.get? x = none) :
    lookup (env.insert x v) x = .ok v := by
  rw [lookup, hx, Table.get?_insert_self]

theorem lookup_insert_of_ne {name : String} (h : name ≠ x) :
    lookup (env.insert x v) name = lookup env name := by
  rw [lookup, lookup, Table.get?_insert_of_ne h]

mutual
/-- **Substitution.**  A variable that is bound to the value of `d` stands for `d`. -/
theorem eval_subst (hx : builtinConstants.get? x = none) (hd : d.eval env none = .ok v)
    (room : Room) (e : Expr) :
    EqUnlessDeep (e.eval (env.insert x v) room) ((e.subst x d).eval env room) := by
  cases e with
  | ident name =>
    by_cases h : name = x
    · subst h
      rw [subst, if_pos rfl]
      obtain hdeep | hok := takeRoom_cases 1 room
      · exact .inl (eval_of_takeRoom hdeep d)
      · -- there is room for the variable, but perhaps not for all of `d`
        have hvalue : (ident name).eval (env.insert name v) room = .ok v := by
          simp only [eval, hok]
          exact lookup_insert_self hx
        rw [hvalue, ← hd]
        exact eval_narrow env Room.atMost_none d
    · rw [subst, if_neg h]
      exact EqUnlessDeep.takeRoom .refl (.inr (lookup_insert_of_ne h))
  | number value => exact .refl _
  | stray word => exact .refl _
  | call function args =>
    simp only [subst, eval, length_substAll]
    exact .takeRoom .refl <| (EqUnlessDeep.refl (resolve function args.length)).bind fun rule =>
      .takeRoom .refl <| (evalAll_substAll hx hd _ args).bind fun values => .refl _
  | binary operator left right =>
    simp only [subst, eval]
    refine .takeRoom .refl ?_
    cases operator with
    | unspecified => exact .inr rfl
    | add | sub | mul | div =>
      exact (eval_subst hx hd _ left).bind fun y =>
        (eval_subst hx hd _ right).bind fun z => .refl _

theorem evalAll_substAll (hx : builtinConstants.get? x = none) (hd : d.eval env none = .ok v)
    (room : Room) (es : List Expr) :
    EqUnlessDeep (evalAll (env.insert x v) room es) (evalAll env room (substAll es x d)) := by
  cases es with
  | nil => exact .refl _
  | cons e es =>
    exact (eval_subst hx hd room e).bind fun y =>
      (evalAll_substAll hx hd room es).bind fun ys => .refl _
end

/-- A value that there is room for is the value. -/
theorem eval_of_evaluate {room : Room} (h : d.evaluate env room = .ok v) :
    d.eval env none = .ok v :=
  evaluate_widen Room.atMost_none h

/-- Without a bound on the room the two sides are the same. -/
theorem eval_insert (hx : builtinConstants.get? x = none) (hd : d.eval env none = .ok v)
    (e : Expr) : e.eval (env.insert x v) none = (e.subst x d).eval env none :=
  (eval_subst hx hd none e).eq_of_ne (eval_ne_nestedTooDeep _)

/-- With the room there is, they are the same if there is room for the expanded expression. -/
theorem evaluate_insert {room : Room} (hx : builtinConstants.get? x = none)
    (hd : d.eval env none = .ok v)
    (hroom : (e.subst x d).evaluate env room ≠ .error .nestedTooDeep) :
    e.evaluate (env.insert x v) room = (e.subst x d).evaluate env room :=
  (eval_subst hx hd (room.below 1) e).eq_of_ne hroom

end Expr

namespace Pass
variable {env : Environment} {x : String} {d : Expr} {v : Float}

/-- A definition of a name that is no builtin constant binds its value, and no more. -/
theorem go_define {room : Room} (hx : builtinConstants.get? x = none)
    (hd : d.evaluate env (room.below 1) = .ok v) (policy : Option Policy) (notices : List Notice) :
    (define policy x d room).go ⟨env, notices⟩ = (.ok v, ⟨env.insert x v, notices⟩) := by
  have hdefine : define policy x d room =
      (do let y ← value d (room.below 1); bindVariable x y; return y) := by
    rw [define, hx]
    rfl
  rw [hdefine, go_bind, go_value, hd]
  rfl

end Pass

/-- **Definitions are substitutions.**  Let `d` have a value `v` and let `x` be no builtin
constant.  An expression has the same value, or none for the same reason, whether `x` is bound to
`v` or `d` is written for it; so to define `x` by `d` and to go on to the expression gives what the
expanded expression gives in the variables from before.  A function called `x` is not replaced. -/
theorem define_substitutes (x : String) (hx : x ∉ builtinConstants.names) (d e : Expr)
    (env : Environment) (v : Float) :
    (d.eval env none = .ok v →
      e.eval (env.insert x v) none = (e.subst x d).eval env none) ∧
    (∀ room, d.evaluate env room = .ok v →
      (e.subst x d).evaluate env room ≠ .error .nestedTooDeep →
      e.evaluate (env.insert x v) room = (e.subst x d).evaluate env room) ∧
    (∀ room, d.evaluate env (room.below 1) = .ok v → ∀ (policy : Option Policy)
      (notices : List Notice),
      (Pass.define policy x d room).go ⟨env, notices⟩ = (.ok v, ⟨env.insert x v, notices⟩) ∧
      ((e.subst x d).evaluate env room ≠ .error .nestedTooDeep →
        (Pass.define policy x d room >>= fun _ => Pass.value e room).go ⟨env, notices⟩ =
          (((Pass.value (e.subst x d) room).go ⟨env, notices⟩).1,
            ⟨env.insert x v, notices⟩))) ∧
    ∀ args, (Expr.call x args).subst x d = .call x (args.map fun a => a.subst x d) := by
  have hfree : builtinConstants.get? x = none := by
    rw [Option.eq_none_iff_forall_ne_some]
    intro value hvalue
    exact hx (Table.mem_names_iff.mpr ⟨value, hvalue⟩)
  refine ⟨fun hd => Expr.eval_insert hfree hd e,
    fun room hd => Expr.evaluate_insert hfree (Expr.eval_of_evaluate hd), ?_, ?_⟩
  · intro room hd policy notices
    have hdefine := Pass.go_define hfree hd policy notices
    refine ⟨hdefine, fun hroom => ?_⟩
    have hsame := Expr.evaluate_insert hfree (Expr.eval_of_evaluate hd) hroom
    rw [Pass.go_bind, hdefine]
    show (Pass.value e room).go ⟨env.insert x v, notices⟩ = _
    rw [Pass.go_value, Pass.go_value, hsame]
    cases (e.subst x d).evaluate env room <;> rfl
  · intro args
    rw [Expr.subst, Expr.substAll_eq_map]

/-- A variable called `sqrt` does not get in the way of the function. -/
theorem define_substitutes_function_name :
    "sqrt" ∉ builtinConstants.names ∧
    (Expr.binary .add (.ident "r") (.number 1)).evaluate (.insert .empty "r" 2) = .ok (2 + 1) ∧
    (Expr.call "sqrt" [.ident "sqrt"]).evaluate (.insert (.insert .empty "r" 2) "sqrt" (2 + 1)) =
      (Expr.call "sqrt" [.binary .add (.ident "r") (.number 1)]).evaluate
        (.insert .empty "r" 2) := by
  have hx : "sqrt" ∉ builtinConstants.names := by decide
  have hd : (Expr.binary .add (.ident "r") (.number 1)).evaluate (.insert .empty "r" 2) =
      .ok (2 + 1) := rfl
  have hroom : (Expr.call "sqrt" [.binary .add (.ident "r") (.number 1)]).evaluate
      (.insert .empty "r" 2) ≠ .error .nestedTooDeep := fun h => by cases h
  refine ⟨hx, hd, ?_⟩
  exact (define_substitutes "sqrt" hx (.binary .add (.ident "r") (.number 1))
    (.call "sqrt" [.ident "sqrt"]) (.insert .empty "r" 2) (2 + 1)).2.1 .standard hd hroom

end Planetarium
