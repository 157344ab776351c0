import Planetarium.Expr.Eval

/-!
# The first node that is wrong

Whether an expression has a value, and why it has none, is decided by its names alone.  Each node
is right or wrong on its own (`offence?`): an identifier by whether it is a builtin constant or
bound, a call by the function it names and how many operands it has.  The nodes are listed in the
order in which evaluation meets them (`nodes`), a node before what stands below it, and the first
one that is wrong is what the evaluation fails with.

No value goes into any of this.  That is what the induction is carried by: the reason for which a
step fails does not depend on the values that the steps before it have given (`reason?_bind`).
-/
namespace Planetarium

/-- Why there is no value, if there is none. -/
def reason? {α : Type} : Except EvalError α → Option EvalError
  | .ok _ => none
  | .error reason => some reason

theorem reason?_eq_none_iff {α : Type} {result : Except EvalError α} :
    reason? result = none ↔ ∃ x, result = .ok x := by
  cases result <;> simp [reason?]

theorem reason?_eq_some_iff {α : Type} {result : Except EvalError α} {reason : EvalError} :
    reason? result = some reason ↔ result = .error reason := by
  cases result <;> simp [reason?]

namespace Expr

mutual
/-- The nodes of an expression, each before those below it and left before right. -/
def nodes : Expr → List Expr
  | .ident name => [.ident name]
  | .number value => [.number value]
  | .call function args => .call function args :: nodesAll args
  | .binary operator left right => .binary operator left right :: (left.nodes ++ right.nodes)
  | .stray word => [.stray word]

/-- The nodes of some expressions, one after another. -/
def nodesAll : List Expr → List Expr
  | [] => []
  | e :: es => e.nodes ++ nodesAll es
end

/-- What is wrong with a node on its own, where the names in `bound` are those of variables.  For a
call the function comes before the number of operands. -/
def offence? (bound : List String) : Expr → Option EvalError
  | .ident name =>
    if name ∈ builtinConstants.names ∨ name ∈ bound then none else some (.unknownName name)
  | .number _ => none
  | .call function args =>
    match builtinFunctions.get? function with
    | none => some (.unknownFunction function)
    | some rule =>
      if args.length = rule.arity then none
      else some (.arityMismatch function rule.arity args.length)
  | .binary .unspecified _ _ => some .unspecifiedOperator
  | .binary _ _ _ => none
  | .stray _ => some .strayWord

/-- The node has no place in an expression. -/
def isMisfit : Expr → Bool
  | .binary .unspecified _ _ | .stray _ => true
  | _ => false

/-- The first offence of some nodes. -/
def firstOffence? (bound : List String) (ns : List Expr) : Option EvalError :=
  ns.findSome? (offence? bound)

variable {env env' : Environment} {bound bound' : List String} {e : Expr} {ns ms : List Expr}

@[simp] theorem firstOffence?_nil : firstOffence? bound [] = none := rfl

theorem firstOffence?_cons :
    firstOffence? bound (e :: ns) = (e.offence? bound).or (firstOffence? bound ns) := by
  rw [firstOffence?, List.findSome?_cons]
  cases e.offence? bound <;> rfl

/-- The first offence of two lists is that of the first one, or else of the second one. -/
theorem firstOffence?_append :
    firstOffence? bound (ns ++ ms) = (firstOffence? bound ns).or (firstOffence? bound ms) :=
  List.findSome?_append

/-! ## Evaluation fails with the first offence -/

/-- If what a step gives makes no difference to why the next one fails, the two fail for the reason
of the first of them that fails. -/
theorem reason?_bind {α β : Type} {x : Except EvalError α} {f : α → Except EvalError β}
    {o : Option EvalError} (h : ∀ a, x = .ok a → reason? (f a) = o) :
    reason? (x >>= f) = (reason? x).or o := by
  cases x with
  | ok a => exact h a rfl
  | error reason => rfl

/-- What a step does with its value makes no difference to why it fails. -/
theorem reason?_bind_pure {α β : Type} {x : Except EvalError α} {f : α → β} :
    reason? (x >>= fun a => pure (f a)) = reason? x := by
  cases x <;> rfl

/-- A name offends if it has no value. -/
theorem reason?_lookup (name : String) :
    reason? (lookup env name) = (Expr.ident name).offence? env.names := by
  simp only [lookup, offence?]
  cases hc : builtinConstants.get? name with
  | some x => simp [reason?, Table.mem_names_iff, hc]
  | none => cases he : env.get? name <;> simp [reason?, Table.mem_names_iff, hc, he]

/-- A call offends if it has no function or the wrong number of arguments. -/
theorem reason?_resolve (function : String) (args : List Expr) :
    reason? (resolve function args.length) = (Expr.call function args).offence? bound := by
  simp only [resolve, offence?]
  cases builtinFunctions.get? function with
  | none => rfl
  | some rule => by_cases h : args.length = rule.arity <;> simp [h, reason?]

mutual
/-- Evaluation fails with the first offence among the nodes, and if there is none it succeeds. -/
theorem reason?_eval (e : Expr) :
    reason? (e.eval env none) = firstOffence? env.names e.nodes := by
  cases e with
  | ident name =>
    rw [nodes, firstOffence?_cons, firstOffence?_nil, Option.or_none]
    exact reason?_lookup name
  | number value => rfl
  | call function args =>
    rw [nodes, firstOffence?_cons, ← reason?_resolve, ← reason?_evalAll args]
    have hcall : (call function args).eval env none = (do
        let rule ← resolve function args.length
        let values ← evalAll env none args
        return rule.apply values) := rfl
    rw [hcall]
    exact reason?_bind fun rule _ => reason?_bind_pure
  | binary operator left right =>
    rw [nodes, firstOffence?_cons, firstOffence?_append, ← reason?_eval left, ← reason?_eval right]
    -- every operation but one that is left open has operands to be evaluated
    have hoperands : ∀ apply : Float → Float → Float,
        reason? (do let x ← left.eval env none; let y ← right.eval env none; return apply x y) =
          (reason? (left.eval env none)).or (reason? (right.eval env none)) := fun apply =>
      reason?_bind fun x _ => reason?_bind_pure
    cases operator with
    | unspecified => rfl
    | add | sub | mul | div => exact hoperands _
  | stray word => rfl

/-- Arguments fail with their first offence. -/
theorem reason?_evalAll (es : List Expr) :
    reason? (evalAll env none es) = firstOffence? env.names (nodesAll es) := by
  cases es with
  | nil => rfl
  | cons e es =>
    rw [nodesAll, firstOffence?_append, ← reason?_eval e, ← reason?_evalAll es]
    exact reason?_bind fun x _ => reason?_bind_pure
end

/-- The same in bounded room, for an expression that there is room for. -/
theorem reason?_evaluate {room : Room} (hroom : e.FitsIn (room.below 1)) :
    reason? (e.evaluate env room) = firstOffence? env.names e.nodes := by
  rw [evaluate, hroom.eval_eq, reason?_eval]

/-! ## Which names are right -/

/-- An offence depends on which names are bound, and on nothing else about the variables. -/
theorem firstOffence?_congr (h : ∀ name, name ∈ bound' ↔ name ∈ bound) :
    firstOffence? bound' ns = firstOffence? bound ns := by
  have hoffence : offence? bound' = offence? bound := by
    funext node
    cases node <;> simp only [offence?, h]
  rw [firstOffence?, firstOffence?, hoffence]

theorem offence?_eq_none_iff (h : ¬ e.isMisfit) :
    e.offence? bound = none ↔
      (∀ name, e = .ident name → name ∈ builtinConstants.names ∨ name ∈ bound) ∧
      ∀ function args, e = .call function args →
        ∃ rule, builtinFunctions.get? function = some rule ∧ args.length = rule.arity := by
  cases e with
  | ident name => simp [offence?, Decidable.or_iff_not_imp_left]
  | number value => simp [offence?]
  | call function args =>
    cases hf : builtinFunctions.get? function with
    | none => simp [offence?, hf]
    | some rule => simp [offence?, hf]
  | binary operator left right =>
    cases operator with
    | unspecified => exact absurd rfl h
    | add | sub | mul | div => simp [offence?]
  | stray word => exact absurd rfl h

/-- There is no offence just if all names and calls are known. -/
theorem firstOffence?_eq_none_iff (h : ∀ node ∈ ns, ¬ node.isMisfit) :
    firstOffence? bound ns = none ↔
      (∀ name, .ident name ∈ ns → name ∈ builtinConstants.names ∨ name ∈ bound) ∧
      ∀ function args, .call function args ∈ ns →
        ∃ rule, builtinFunctions.get? function = some rule ∧ args.length = rule.arity := by
  rw [firstOffence?, List.findSome?_eq_none_iff]
  constructor
  · intro hnone
    constructor
    · intro name hname
      exact ((offence?_eq_none_iff (h _ hname)).mp (hnone _ hname)).1 name rfl
    · intro function args hcall
      exact ((offence?_eq_none_iff (h _ hcall)).mp (hnone _ hcall)).2 function args rfl
  · intro ⟨hnames, hcalls⟩ node hnode
    apply (offence?_eq_none_iff (h node hnode)).mpr
    constructor
    · rintro name rfl
      exact hnames name hnode
    · rintro function args rfl
      exact hcalls function args hnode

/-- No node is wrong for want of room. -/
theorem offence?_ne_nestedTooDeep : e.offence? bound ≠ some .nestedTooDeep := by
  intro h
  cases e with
  | ident name => simp [offence?] at h
  | number value => cases h
  | call function args =>
    cases hf : builtinFunctions.get? function <;> simp [offence?, hf] at h
  | binary operator left right => cases operator <;> cases h
  | stray word => cases h

/-! ## Numbers make no difference -/

mutual
/-- The expression with a zero for every number. -/
def blank : Expr → Expr
  | .ident name => .ident name
  | .number _ => .number 0
  | .call function args => .call function (blankAll args)
  | .binary operator left right => .binary operator left.blank right.blank
  | .stray word => .stray word

/-- The expressions with a zero for every number. -/
def blankAll : List Expr → List Expr
  | [] => []
  | e :: es => e.blank :: blankAll es
end

@[simp] theorem length_blankAll (es : List Expr) : (blankAll es).length = es.length := by
  induction es with
  | nil => rfl
  | cons e es ih => simp [blankAll, ih]

/-- Numbers do not matter to an offence. -/
theorem offence?_blank (e : Expr) : e.blank.offence? bound = e.offence? bound := by
  cases e with
  | binary operator left right => cases operator <;> rfl
  | call function args => simp only [blank, offence?, length_blankAll]
  | ident | number | stray => rfl

mutual
/-- Nor to the nodes. -/
theorem nodes_blank (e : Expr) : e.blank.nodes = e.nodes.map blank := by
  cases e with
  | call function args => simp only [blank, nodes, List.map_cons, nodesAll_blankAll args]
  | binary operator left right =>
    simp only [blank, nodes, List.map_cons, List.map_append, nodes_blank left, nodes_blank right]
  | ident | number | stray => rfl

theorem nodesAll_blankAll (es : List Expr) : nodesAll (blankAll es) = (nodesAll es).map blank := by
  cases es with
  | nil => rfl
  | cons e es =>
    simp only [blankAll, nodesAll, List.map_append, nodes_blank e, nodesAll_blankAll es]
end

mutual
theorem frames_blank (e : Expr) : e.blank.frames = e.frames := by
  cases e with
  | call function args => simp only [blank, frames, framesAll_blankAll args]
  | binary operator left right => simp only [blank, frames, frames_blank left, frames_blank right]
  | ident | number | stray => rfl

theorem framesAll_blankAll (es : List Expr) : framesAll (blankAll es) = framesAll es := by
  cases es with
  | nil => rfl
  | cons e es => simp only [blankAll, framesAll, frames_blank e, framesAll_blankAll es]
end

theorem firstOffence?_blank (e : Expr) :
    firstOffence? bound e.blank.nodes = firstOffence? bound e.nodes := by
  rw [nodes_blank, firstOffence?, List.findSome?_map, firstOffence?]
  congr 1
  funext node
  exact offence?_blank node

/-! ## The theorem -/

/-- An expression that there is room for, all of whose nodes have a place in one, has a value just
if every identifier is a builtin constant or bound and every call names a builtin function and has
as many operands as that takes.  If it has none, the first node that is wrong says why.  Other
numbers, in the expression or as values of the same variables, make no difference to that. -/
theorem evaluate_decided_by_nodes (e : Expr) (env : Environment) (room : Room)
    (hnodes : ∀ node ∈ e.nodes, ¬ node.isMisfit) (hroom : e.FitsIn (room.below 1)) :
    ((∃ x, e.evaluate env room = .ok x) ↔
      (∀ name, .ident name ∈ e.nodes → name ∈ builtinConstants.names ∨ name ∈ env.names) ∧
      ∀ function args, .call function args ∈ e.nodes →
        ∃ rule, builtinFunctions.get? function = some rule ∧ args.length = rule.arity) ∧
    (∀ reason, e.evaluate env room = .error reason ↔
      ∃ before node after, e.nodes = before ++ node :: after ∧
        node.offence? env.names = some reason ∧
        ∀ earlier ∈ before, earlier.offence? env.names = none) ∧
    ∀ (e' : Expr) (env' : Environment), e'.blank = e.blank →
      (∀ name, name ∈ env'.names ↔ name ∈ env.names) →
      ∀ reason, e'.evaluate env' room = .error reason ↔ e.evaluate env room = .error reason := by
  have hreason : reason? (e.evaluate env room) = firstOffence? env.names e.nodes :=
    reason?_evaluate hroom
  refine ⟨?_, ?_, ?_⟩
  · rw [← reason?_eq_none_iff, hreason, firstOffence?_eq_none_iff hnodes]
  · intro reason
    rw [← reason?_eq_some_iff, hreason, firstOffence?, List.findSome?_eq_some_iff]
  · intro e' env' hblank hnames reason
    have hroom' : e'.FitsIn (room.below 1) := by
      rwa [FitsIn, ← frames_blank, hblank, frames_blank]
    rw [← reason?_eq_some_iff, ← reason?_eq_some_iff, hreason, reason?_evaluate hroom',
      firstOffence?_congr hnames, ← firstOffence?_blank e', hblank, firstOffence?_blank e]

/-- `pow(a) + f()`, with three offences where nothing is bound. -/
def threeOffences : Expr := .binary .add (.call "pow" [.ident "a"]) (.call "f" [])

/-- The operands of `pow` are counted before `a` is looked up and before `f` is met. -/
theorem evaluate_operands_counted_first :
    (∀ node ∈ threeOffences.nodes, ¬ node.isMisfit) ∧
      threeOffences.FitsIn (Room.standard.below 1) ∧
      threeOffences.evaluate .empty = .error (.arityMismatch "pow" 2 1) := by
  have hnodes : ∀ node ∈ threeOffences.nodes, ¬ node.isMisfit := by decide
  have hroom : threeOffences.FitsIn (Room.standard.below 1) := by
    rintro r ⟨⟩
    decide
  refine ⟨hnodes, hroom, ?_⟩
  apply ((evaluate_decided_by_nodes threeOffences .empty .standard hnodes hroom).2.1 _).mpr
  exact ⟨[threeOffences], .call "pow" [.ident "a"], [.ident "a", .call "f" []], rfl, by decide,
    by decide⟩

end Expr
end Planetarium
