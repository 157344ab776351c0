import Planetarium.Document.Pass
import Planetarium.Proofs.Expr.Room

/-!
# The definitions of a document

Going through a document block by block comes to the same as applying its definitions one after
another, in the order in which they stand in the text (`evaluateAll_eq_defineAll`).  So all that a
document does to the variables is said of a flat list: `variablesAfter` computes it from values
alone, and knows nothing of blocks, policies or warnings.

A definition that fails does so before it binds anything, and at most its own warning has been
issued by then (`define_cases`).  Hence the variables at a failure are those that the definitions
before it leave.

What blocks do take is room: a definition in a block has less of it than the document has.  In a
wider room the definitions do the same, unless one of them fails for want of room
(`defineAll_inRoom`), and that can happen (`evaluateAll_ne_flat`).
-/
namespace Planetarium
open Text

/-- A definition on its own, and the room in which it is applied. -/
structure Definition where
  name : String
  expr : Expr
  room : Room := .standard

namespace Definition

/-- The definition in another room. -/
def inRoom (room : Room) (d : Definition) : Definition := { d with room }

/-- What the definition is worth where it is applied. -/
def evaluate (d : Definition) (env : Environment) : Except EvalError Float :=
  d.expr.evaluate env (d.room.below 1)

/-- The definition is of a builtin constant. -/
def shadows (d : Definition) : Bool := (builtinConstants.get? d.name).isSome

/-- What such a definition is warned about. -/
def warning (d : Definition) : Warning :=
  ⟨.shadowedConstant,
    "definition of " ++ quoted d.name ++ " shadows a builtin constant and is never used"⟩

/-- The warnings that a pass issues at the definition. -/
def issued (policy : Option Policy) (d : Definition) : List Warning :=
  if d.shadows ∧ verdict policy .shadowedConstant = .issue then [d.warning] else []

/-- Why the definition fails, if it does: its warning is escalated, or else its expression has no
value. -/
def failure? (policy : Option Policy) (env : Environment) (d : Definition) : Option Failure :=
  if d.shadows ∧ verdict policy .shadowedConstant = .escalate then some (.escalated d.warning)
  else
    match d.evaluate env with
    | .ok _ => none
    | .error reason => some (.evaluation reason)

/-- In a wider room a definition fails for the same reason, unless that is want of room. -/
theorem failure?_inRoom {policy : Option Policy} {env : Environment} {d : Definition} {wide : Room}
    (h : d.room.AtMost wide) (hne : d.failure? policy env ≠ some (.evaluation .nestedTooDeep)) :
    (d.inRoom wide).failure? policy env = d.failure? policy env := by
  have heval := Expr.evaluate_narrow env (h.below_below (n := 1)) d.expr
  by_cases hesc : d.shadows ∧ verdict policy .shadowedConstant = .escalate
  · rw [failure?, failure?, if_pos hesc, if_pos (show (d.inRoom wide).shadows ∧ _ from hesc)]
    rfl
  · rw [failure?, if_neg hesc] at hne
    rw [failure?, failure?, if_neg hesc, if_neg (show ¬ ((d.inRoom wide).shadows ∧ _) from hesc)]
    have hsame : (d.inRoom wide).evaluate env = d.evaluate env := by
      refine heval.eq_of_ne fun hdeep => hne ?_
      rw [show d.evaluate env = .error .nestedTooDeep from hdeep]
    rw [hsame]

/-- Without a policy only the evaluation can fail. -/
theorem exists_reason_of_failure? {env : Environment} {d : Definition} {f : Failure}
    (h : d.failure? none env = some f) :
    ∃ reason, d.evaluate env = .error reason ∧ f = .evaluation reason := by
  rw [failure?, if_neg fun hesc => absurd hesc.2 (by decide)] at h
  cases hx : d.evaluate env with
  | ok x => rw [hx] at h; cases h
  | error reason =>
    rw [hx] at h
    exact ⟨reason, rfl, (Option.some.inj h).symm⟩

end Definition

mutual
/-- The definitions of a command and of the blocks in it, in document order and each in the room
that a pass in some room leaves for it. -/
def Command.definitions (c : Command) (room : Room := .standard) : List Definition :=
  match c with
  | .definition name e => [⟨name, e, room.below 2⟩]
  | .invocation args => Arg.definitionsAll args room
  | .property _ _ | .stray _ => []

/-- The definitions in an argument. -/
def Arg.definitions (a : Arg) (room : Room := .standard) : List Definition :=
  match a with
  | .word _ => []
  | .block commands => Command.definitionsAll commands (room.below 1)

/-- The definitions in some arguments, in order. -/
def Arg.definitionsAll (args : List Arg) (room : Room := .standard) : List Definition :=
  match args with
  | [] => []
  | a :: as => a.definitions room ++ Arg.definitionsAll as room

/-- The definitions of some commands, in order. -/
def Command.definitionsAll (commands : List Command) (room : Room := .standard) :
    List Definition :=
  match commands with
  | [] => []
  | c :: cs => c.definitions room ++ Command.definitionsAll cs room
end

/-- The definition as a command. -/
def Definition.command (d : Definition) : Command := .definition d.name d.expr

/-- Of definitions alone, all are in the same room. -/
theorem Command.definitionsAll_map_command (ds : List Definition) (room : Room) :
    definitionsAll (ds.map Definition.command) room = ds.map (·.inRoom (room.below 2)) := by
  induction ds with
  | nil => rfl
  | cons d ds ih =>
    rw [List.map_cons, definitionsAll, ih]
    rfl

/-! ## What definitions bind -/

/-- The names and values that definitions bind one after another, if all of them have a value. -/
def bindings (env : Environment) : List Definition → Except EvalError (List (String × Float))
  | [] => return []
  | d :: ds => do
    let x ← d.evaluate env
    let bs ← bindings (env.insert d.name x) ds
    return (d.name, x) :: bs

section Bindings
variable {env : Environment} {d : Definition} {ds xs ys : List Definition}
  {bs bs' : List (String × Float)} {x : Float}

theorem bindings_cons (h : d.evaluate env = .ok x)
    (hs : bindings (env.insert d.name x) ds = .ok bs) :
    bindings env (d :: ds) = .ok ((d.name, x) :: bs) := by
  simp only [bindings, h, hs, bind, Except.bind]
  rfl

theorem exists_of_bindings_cons (h : bindings env (d :: ds) = .ok bs) :
    ∃ x tail, d.evaluate env = .ok x ∧ bindings (env.insert d.name x) ds = .ok tail ∧
      bs = (d.name, x) :: tail := by
  cases hx : d.evaluate env with
  | error reason => simp [bindings, hx, bind, Except.bind] at h
  | ok x =>
    cases hs : bindings (env.insert d.name x) ds with
    | error reason => simp [bindings, hx, hs, bind, Except.bind] at h
    | ok tail =>
      rw [bindings_cons hx hs] at h
      exact ⟨x, tail, rfl, hs, (Except.ok.inj h).symm⟩

theorem map_fst_bindings (h : bindings env ds = .ok bs) :
    bs.map Prod.fst = ds.map Definition.name := by
  induction ds generalizing env bs with
  | nil =>
    obtain rfl := Except.ok.inj h
    rfl
  | cons d ds ih =>
    obtain ⟨x, tail, -, htail, rfl⟩ := exists_of_bindings_cons h
    rw [List.map_cons, List.map_cons, ih htail]

/-- Definitions bind one list after the other. -/
theorem bindings_append (h : bindings env xs = .ok bs)
    (h' : bindings (env.insertAll bs) ys = .ok bs') :
    bindings env (xs ++ ys) = .ok (bs ++ bs') := by
  induction xs generalizing env bs with
  | nil =>
    obtain rfl := Except.ok.inj h
    exact h'
  | cons d ds ih =>
    obtain ⟨x, tail, hx, htail, rfl⟩ := exists_of_bindings_cons h
    exact bindings_cons hx (ih htail h')

theorem exists_of_bindings_append (h : bindings env (xs ++ ys) = .ok bs) :
    ∃ first second, bindings env xs = .ok first ∧
      bindings (env.insertAll first) ys = .ok second ∧ bs = first ++ second := by
  induction xs generalizing env bs with
  | nil => exact ⟨[], bs, rfl, h, rfl⟩
  | cons d ds ih =>
    obtain ⟨x, tail, hx, htail, rfl⟩ := exists_of_bindings_cons h
    obtain ⟨first, second, hfirst, hsecond, rfl⟩ := ih htail
    exact ⟨(d.name, x) :: first, second, bindings_cons hx hfirst, hsecond, rfl⟩

/-- The variables after definitions, if all of them have a value. -/
def variablesAfter (env : Environment) (ds : List Definition) : Except EvalError Environment :=
  (bindings env ds).map env.insertAll

/-- What is there after definitions is what was there before with their bindings set. -/
theorem variablesAfter_eq_ok {rho : Environment} :
    variablesAfter env ds = .ok rho ↔ ∃ bs, bindings env ds = .ok bs ∧ env.insertAll bs = rho := by
  unfold variablesAfter
  cases bindings env ds with
  | ok bs => simp [Except.map]
  | error reason => simp [Except.map]

theorem variablesAfter_append {rho sigma : Environment} (h : variablesAfter env xs = .ok rho)
    (h' : variablesAfter rho ys = .ok sigma) : variablesAfter env (xs ++ ys) = .ok sigma := by
  obtain ⟨bs, hbs, rfl⟩ := variablesAfter_eq_ok.mp h
  obtain ⟨bs', hbs', rfl⟩ := variablesAfter_eq_ok.mp h'
  exact variablesAfter_eq_ok.mpr
    ⟨bs ++ bs', bindings_append hbs hbs', Table.insertAll_append bs bs'⟩

end Bindings

/-! ## Applying definitions -/

/-- The journal after what is issued at a definition. -/
def Journal.announce (policy : Option Policy) (d : Definition) (j : Journal) : Journal :=
  { j with notices := j.notices ++ (d.issued policy).map fun w => ⟨w, j.env⟩ }

@[simp] theorem Journal.env_announce (policy : Option Policy) (d : Definition) (j : Journal) :
    (j.announce policy d).env = j.env := rfl

@[simp] theorem Journal.warnings_announce (policy : Option Policy) (d : Definition) (j : Journal) :
    (j.announce policy d).warnings = j.warnings ++ d.issued policy := by
  simp [Journal.announce, Journal.warnings, Function.comp_def]

namespace Pass
variable {policy : Option Policy} {d : Definition} {ds xs ys : List Definition} {j k : Journal}

/-- Applies definitions one after another. -/
def defineAll (policy : Option Policy) : List Definition → Pass Unit
  | [] => pure ()
  | d :: ds => do
    let _ ← define policy d.name d.expr d.room
    defineAll policy ds

/-- A definition without the warning about it. -/
def bindValue (d : Definition) : Pass Float := do
  let x ← value d.expr (d.room.below 1)
  bindVariable d.name x
  return x

theorem define_eq (policy : Option Policy) (d : Definition) :
    define policy d.name d.expr d.room =
      if d.shadows then do emit policy d.warning; bindValue d else bindValue d := by
  by_cases h : d.shadows
  · rw [if_pos h, define, if_pos (show (builtinConstants.get? d.name).isSome from h)]
    rfl
  · rw [if_neg h, define, if_neg (show ¬ (builtinConstants.get? d.name).isSome from h)]
    rfl

theorem go_bindValue (d : Definition) (j : Journal) :
    (bindValue d).go j =
      match d.evaluate j.env with
      | .ok x => (.ok x, { j with env := j.env.insert d.name x })
      | .error reason => (.error (.evaluation reason), j) := by
  rw [bindValue, go_bind, go_value, Definition.evaluate]
  cases d.expr.evaluate j.env (d.room.below 1) with
  | ok x => simp only [go_bind, go_bindVariable, go_pure]
  | error reason => rfl

theorem go_emit_warning (policy : Option Policy) (d : Definition) (j : Journal) :
    (emit policy d.warning).go j =
      match verdict policy .shadowedConstant with
      | .issue => (.ok (), { j with notices := j.notices ++ [⟨d.warning, j.env⟩] })
      | .drop => (.ok (), j)
      | .escalate => (.error (.escalated d.warning), j) :=
  go_emit policy d.warning j

/-- A definition fails before it binds anything, or it binds its value. -/
theorem define_cases (policy : Option Policy) (d : Definition) (j : Journal) :
    (∃ f, d.failure? policy j.env = some f ∧
      (define policy d.name d.expr d.room).go j = (.error f, j.announce policy d)) ∨
    ∃ x, d.failure? policy j.env = none ∧ d.evaluate j.env = .ok x ∧
      (define policy d.name d.expr d.room).go j =
        (.ok x, { j.announce policy d with env := j.env.insert d.name x }) := by
  by_cases hesc : d.shadows ∧ verdict policy .shadowedConstant = .escalate
  · -- the warning is the failure
    refine .inl ⟨.escalated d.warning, by simp [Definition.failure?, hesc], ?_⟩
    rw [define_eq, if_pos hesc.1, go_bind, go_emit_warning, hesc.2]
    simp [Journal.announce, Definition.issued, hesc.2]
  · -- the warning is out, or there is none, and the value decides
    have hgo : (define policy d.name d.expr d.room).go j =
        (bindValue d).go (j.announce policy d) := by
      rw [define_eq]
      by_cases hs : d.shadows
      · rw [if_pos hs, go_bind, go_emit_warning]
        cases hv : verdict policy .shadowedConstant with
        | issue => simp [Journal.announce, Definition.issued, hs, hv]
        | drop => simp [Journal.announce, Definition.issued, hv]
        | escalate => exact absurd ⟨hs, hv⟩ hesc
      · rw [if_neg hs]
        simp [Journal.announce, Definition.issued, hs]
    rw [hgo, go_bindValue, Journal.env_announce]
    cases hx : d.evaluate j.env with
    | ok x => exact .inr ⟨x, by simp [Definition.failure?, hesc, hx], rfl, rfl⟩
    | error reason => exact .inl ⟨.evaluation reason, by simp [Definition.failure?, hesc, hx], rfl⟩

/-- In a wider room a definition does the same, unless it fails for want of room. -/
theorem define_inRoom {wide : Room} (h : d.room.AtMost wide)
    (hne : ((define policy d.name d.expr d.room).go j).1 ≠
      .error (.evaluation .nestedTooDeep)) :
    (define policy d.name d.expr wide).go j = (define policy d.name d.expr d.room).go j := by
  rcases define_cases policy d j with ⟨f, hfail, hgo⟩ | ⟨x, hnone, hx, hgo⟩
  · rw [hgo] at hne
    have hwide : (d.inRoom wide).failure? policy j.env = some f := by
      rw [Definition.failure?_inRoom h, hfail]
      rintro hdeep
      rw [hfail] at hdeep
      exact hne (congrArg Except.error (Option.some.inj hdeep))
    rcases define_cases policy (d.inRoom wide) j with ⟨g, hg, hgo'⟩ | ⟨_, hnone, -⟩
    · obtain rfl := Option.some.inj (hg.symm.trans hwide)
      exact hgo'.trans hgo.symm
    · cases hnone.symm.trans hwide
  · have hwide : (d.inRoom wide).failure? policy j.env = none := by
      rw [Definition.failure?_inRoom h, hnone]
      rw [hnone]
      exact nofun
    rcases define_cases policy (d.inRoom wide) j with ⟨_, hg, -⟩ | ⟨y, -, hy, hgo'⟩
    · cases hg.symm.trans hwide
    · obtain rfl := Except.ok.inj (hy.symm.trans (Expr.evaluate_widen h.below_below hx))
      exact hgo'.trans hgo.symm

/-- Definitions are made one list after the other. -/
theorem defineAll_append :
    defineAll policy (xs ++ ys) = (do defineAll policy xs; defineAll policy ys) := by
  induction xs with
  | nil => simp [defineAll]
  | cons d ds ih => simp only [List.cons_append, defineAll, ih, bind_assoc]

/-- Definitions that all succeed leave their bindings and their warnings. -/
theorem variablesAfter_of_defineAll_ok (h : (defineAll policy ds).go j = (.ok (), k)) :
    variablesAfter j.env ds = .ok k.env ∧
      k.warnings = j.warnings ++ ds.flatMap (·.issued policy) := by
  induction ds generalizing j with
  | nil =>
    obtain rfl := (Prod.mk.inj h).2
    exact ⟨rfl, by simp⟩
  | cons d ds ih =>
    rw [defineAll, go_bind] at h
    rcases define_cases policy d j with ⟨f, -, hgo⟩ | ⟨x, -, hx, hgo⟩
    · rw [hgo] at h
      cases (Prod.mk.inj h).1
    · rw [hgo] at h
      obtain ⟨hafter, hwarnings⟩ := ih h
      obtain ⟨bs, hbs, henv⟩ := variablesAfter_eq_ok.mp hafter
      refine ⟨variablesAfter_eq_ok.mpr ⟨(d.name, x) :: bs, bindings_cons hx hbs, henv⟩, ?_⟩
      rw [hwarnings, List.flatMap_cons, ← List.append_assoc, ← Journal.warnings_announce]
      rfl

/-- Definitions fail where the first of them does. -/
theorem defineAll_error_iff {f : Failure} :
    (defineAll policy ds).go j = (.error f, k) ↔ ∃ before d after i,
      ds = before ++ d :: after ∧ (defineAll policy before).go j = (.ok (), i) ∧
      d.failure? policy i.env = some f ∧ k = i.announce policy d := by
  constructor
  · intro h
    induction ds generalizing j with
    | nil => cases (Prod.mk.inj h).1
    | cons d ds ih =>
      rw [defineAll, go_bind] at h
      rcases define_cases policy d j with ⟨g, hfail, hgo⟩ | ⟨x, -, hx, hgo⟩
      · rw [hgo] at h
        obtain ⟨rfl, rfl⟩ : g = f ∧ j.announce policy d = k := by simpa using h
        exact ⟨[], d, ds, j, rfl, rfl, hfail, rfl⟩
      · rw [hgo] at h
        obtain ⟨before, e, after, i, rfl, hbefore, hfail, hk⟩ := ih h
        refine ⟨d :: before, e, after, i, rfl, ?_, hfail, hk⟩
        rw [defineAll, go_bind, hgo]
        exact hbefore
  · rintro ⟨before, d, after, i, rfl, hbefore, hfail, rfl⟩
    rw [defineAll_append, go_bind, hbefore, defineAll]
    simp only [go_bind]
    rcases define_cases policy d i with ⟨g, hg, hgo⟩ | ⟨x, hnone, -⟩
    · rw [hgo]
      obtain rfl := Option.some.inj (hg.symm.trans hfail)
      rfl
    · rw [hnone] at hfail
      cases hfail

/-- In a wider room definitions do the same, unless one of them fails for want of room. -/
theorem defineAll_inRoom {wide : Room} (h : ∀ d ∈ ds, d.room.AtMost wide)
    (hne : ((defineAll policy ds).go j).1 ≠ .error (.evaluation .nestedTooDeep)) :
    (defineAll policy (ds.map (·.inRoom wide))).go j = (defineAll policy ds).go j := by
  induction ds generalizing j with
  | nil => rfl
  | cons d ds ih =>
    have hd : (define policy d.name d.expr wide).go j =
        (define policy d.name d.expr d.room).go j := by
      refine define_inRoom (h d List.mem_cons_self) fun hdeep => hne ?_
      rw [defineAll, go_bind]
      revert hdeep
      rcases (define policy d.name d.expr d.room).go j with ⟨f | x, k⟩
      · exact fun hdeep => congrArg Except.error (Except.error.inj hdeep)
      · exact nofun
    rw [defineAll, go_bind] at hne ⊢
    rw [List.map_cons, defineAll, go_bind]
    simp only [Definition.inRoom] at hd ⊢
    rw [hd]
    revert hne
    rcases (define policy d.name d.expr d.room).go j with ⟨f | x, k⟩
    · exact fun _ => rfl
    · exact ih fun d' hd' => h d' (List.mem_cons_of_mem d hd')

/-- So where they all succeed they leave the same variables in a wider room. -/
theorem variablesAfter_inRoom {wide : Room} (h : ∀ d ∈ ds, d.room.AtMost wide)
    (hgo : (defineAll policy ds).go j = (.ok (), k)) :
    variablesAfter j.env (ds.map (·.inRoom wide)) = .ok k.env := by
  have hne : ((defineAll policy ds).go j).1 ≠ .error (.evaluation .nestedTooDeep) := by
    rw [hgo]
    exact nofun
  exact (variablesAfter_of_defineAll_ok ((defineAll_inRoom h hne).trans hgo)).1

end Pass

open Pass

mutual
/-- The definitions of a command are the same in every room, but for their rooms. -/
theorem Command.map_inRoom_definitions (wide : Room) :
    (c : Command) → (room room' : Room) →
      (c.definitions room).map (·.inRoom wide) = (c.definitions room').map (·.inRoom wide)
  | .definition _ _, _, _ => rfl
  | .invocation args, room, room' => Arg.map_inRoom_definitionsAll wide args room room'
  | .property _ _, _, _ | .stray _, _, _ => rfl

theorem Arg.map_inRoom_definitions (wide : Room) :
    (a : Arg) → (room room' : Room) →
      (a.definitions room).map (·.inRoom wide) = (a.definitions room').map (·.inRoom wide)
  | .word _, _, _ => rfl
  | .block commands, room, room' =>
    Command.map_inRoom_definitionsAll wide commands (room.below 1) (room'.below 1)

theorem Arg.map_inRoom_definitionsAll (wide : Room) :
    (as : List Arg) → (room room' : Room) →
      (Arg.definitionsAll as room).map (·.inRoom wide) =
        (Arg.definitionsAll as room').map (·.inRoom wide)
  | [], _, _ => rfl
  | a :: as, room, room' => by
    rw [Arg.definitionsAll, Arg.definitionsAll, List.map_append, List.map_append,
      Arg.map_inRoom_definitions wide a room room',
      Arg.map_inRoom_definitionsAll wide as room room']

/-- The room of a document makes no difference to its definitions but for their own rooms. -/
theorem Command.map_inRoom_definitionsAll (wide : Room) :
    (cs : List Command) → (room room' : Room) →
      (Command.definitionsAll cs room).map (·.inRoom wide) =
        (Command.definitionsAll cs room').map (·.inRoom wide)
  | [], _, _ => rfl
  | c :: cs, room, room' => by
    rw [Command.definitionsAll, Command.definitionsAll, List.map_append, List.map_append,
      Command.map_inRoom_definitions wide c room room',
      Command.map_inRoom_definitionsAll wide cs room room']
end

mutual
/-- No definition has more room than its command. -/
theorem Command.room_of_definitions :
    (c : Command) → (room : Room) → ∀ d ∈ c.definitions room, d.room.AtMost room
  | .definition name e, room => by
    simp only [Command.definitions, List.mem_singleton, forall_eq]
    exact Room.AtMost.refl.below
  | .invocation args, room => Arg.room_of_definitionsAll args room
  | .property _ _, _ | .stray _, _ => by simp [Command.definitions]

theorem Arg.room_of_definitions :
    (a : Arg) → (room : Room) → ∀ d ∈ a.definitions room, d.room.AtMost room
  | .word _, _ => by simp [Arg.definitions]
  | .block commands, room => fun d hd =>
    (Command.room_of_definitionsAll commands (room.below 1) d hd).trans Room.AtMost.refl.below

theorem Arg.room_of_definitionsAll :
    (as : List Arg) → (room : Room) → ∀ d ∈ Arg.definitionsAll as room, d.room.AtMost room
  | [], _ => by simp [Arg.definitionsAll]
  | a :: as, room => fun d hd =>
    (List.mem_append.mp hd).elim (Arg.room_of_definitions a room d)
      (Arg.room_of_definitionsAll as room d)

/-- Every definition of a document is applied in at most the room of the document. -/
theorem Command.room_of_definitionsAll :
    (cs : List Command) → (room : Room) → ∀ d ∈ Command.definitionsAll cs room, d.room.AtMost room
  | [], _ => by simp [Command.definitionsAll]
  | c :: cs, room => fun d hd =>
    (List.mem_append.mp hd).elim (Command.room_of_definitions c room d)
      (Command.room_of_definitionsAll cs room d)
end

mutual
/-- A command is evaluated by making its definitions in order. -/
theorem Command.evaluate_eq_defineAll (policy : Option Policy) :
    (c : Command) → (room : Room) → c.evaluate policy room = defineAll policy (c.definitions room)
  | .definition name e, _ => by simp [Command.evaluate, Command.definitions, defineAll]
  | .invocation args, room => by
    simp only [Command.evaluate, Command.definitions]
    exact Arg.evaluateAll_eq_defineAll policy args room
  | .property _ _, _ | .stray _, _ => rfl

theorem Arg.evaluate_eq_defineAll (policy : Option Policy) :
    (a : Arg) → (room : Room) → a.evaluate policy room = defineAll policy (a.definitions room)
  | .word _, _ => rfl
  | .block commands, room => by
    simp only [Arg.evaluate, Arg.definitions]
    exact Command.evaluateAll_eq_defineAll policy commands (room.below 1)

theorem Arg.evaluateAll_eq_defineAll (policy : Option Policy) :
    (as : List Arg) → (room : Room) →
      Arg.evaluateAll policy as room = defineAll policy (Arg.definitionsAll as room)
  | [], _ => rfl
  | a :: as, room => by
    rw [Arg.evaluateAll, Arg.definitionsAll, defineAll_append,
      Arg.evaluate_eq_defineAll policy a room, Arg.evaluateAll_eq_defineAll policy as room]

/-- A document does what its definitions do, each in the room that its blocks leave for it. -/
theorem Command.evaluateAll_eq_defineAll (policy : Option Policy) :
    (cs : List Command) → (room : Room) →
      Command.evaluateAll policy cs room = defineAll policy (Command.definitionsAll cs room)
  | [], _ => rfl
  | c :: cs, room => by
    rw [Command.evaluateAll, Command.definitionsAll, defineAll_append,
      Command.evaluate_eq_defineAll policy c room, Command.evaluateAll_eq_defineAll policy cs room]
end

/-- What definitions leave behind that all succeed, from one journal to another. -/
structure Binds (policy : Option Policy) (j : Journal) (ds : List Definition) (k : Journal) :
    Prop where
  /-- Old names keep their place, and new ones follow in the order of their first definitions. -/
  names : k.env.names =
    j.env.names ++ ((ds.map Definition.name).filter fun name => name ∉ j.env.names).eraseDups
  /-- Of the definitions of a name the last one counts, with its value after those before it. -/
  last : ∀ before d after, ds = before ++ d :: after → (∀ e ∈ after, e.name ≠ d.name) →
    ∃ rho x, variablesAfter j.env before = .ok rho ∧ d.evaluate rho = .ok x ∧
      k.env.get? d.name = some x
  /-- All other names keep their values. -/
  others : ∀ name, (∀ d ∈ ds, d.name ≠ name) → k.env.get? name = j.env.get? name
  warnings : k.warnings = j.warnings ++ ds.flatMap (·.issued policy)

theorem binds_of_defineAll_ok {policy : Option Policy} {ds : List Definition} {j k : Journal}
    (h : (defineAll policy ds).go j = (.ok (), k)) : Binds policy j ds k := by
  obtain ⟨hafter, hwarnings⟩ := variablesAfter_of_defineAll_ok h
  obtain ⟨bs, hbs, henv⟩ := variablesAfter_eq_ok.mp hafter
  have hnames := map_fst_bindings hbs
  refine ⟨?_, ?_, ?_, hwarnings⟩
  · rw [← henv, Table.names_insertAll, hnames]
  · rintro before d after rfl hlast
    obtain ⟨first, second, hfirst, hsecond, rfl⟩ := exists_of_bindings_append hbs
    obtain ⟨x, tail, hx, htail, rfl⟩ := exists_of_bindings_cons hsecond
    have hnot : d.name ∉ tail.map Prod.fst := by
      rw [map_fst_bindings htail, List.mem_map]
      rintro ⟨e, he, hname⟩
      exact hlast e he hname
    refine ⟨j.env.insertAll first, x, variablesAfter_eq_ok.mpr ⟨first, hfirst, rfl⟩, hx, ?_⟩
    rw [← henv, Table.get?_insertAll_append_cons hnot]
  · intro name hother
    rw [← henv, Table.get?_insertAll_of_notMem]
    rw [hnames, List.mem_map]
    rintro ⟨d, hd, hname⟩
    exact hother d hd hname

/-- **A document does what its definitions do one after another**, each in the room that its blocks
leave for it; and the same as they do in the room of the document or a wider one, unless one of them
fails for want of room.  If all succeed, they are bound in order and nothing else is.  Otherwise the
first that fails ends the pass: the variables are those that the definitions before it leave, and it
is the last one whose warning can have been issued. -/
theorem evaluateAll_in_order (policy : Option Policy) (cs : List Command) (room : Room)
    (j : Journal) :
    let ds := Command.definitionsAll cs room
    let run := (Command.evaluateAll policy cs room).go j
    run = (defineAll policy ds).go j ∧
    (∀ wide, room.AtMost wide → run.1 ≠ .error (.evaluation .nestedTooDeep) →
      run = (defineAll policy (ds.map (·.inRoom wide))).go j) ∧
    (∀ k, run = (.ok (), k) → Binds policy j ds k) ∧
    ∀ f k, run = (.error f, k) ↔ ∃ before d after i,
      ds = before ++ d :: after ∧ (defineAll policy before).go j = (.ok (), i) ∧
      Binds policy j before i ∧ d.failure? policy i.env = some f ∧ k = i.announce policy d ∧
      k.env = i.env ∧ k.warnings = j.warnings ++ (before ++ [d]).flatMap (·.issued policy) := by
  intro ds run
  have hrun : run = (defineAll policy ds).go j := by
    rw [← Command.evaluateAll_eq_defineAll]
  refine ⟨hrun, fun wide hwide hne => ?_, fun k hk => binds_of_defineAll_ok (hrun ▸ hk),
    fun f k => ?_⟩
  · rw [hrun] at hne ⊢
    exact (defineAll_inRoom
      (fun d hd => (Command.room_of_definitionsAll cs room d hd).trans hwide) hne).symm
  rw [hrun, defineAll_error_iff]
  constructor
  · rintro ⟨before, d, after, i, hds, hbefore, hfail, rfl⟩
    have hbinds := binds_of_defineAll_ok hbefore
    refine ⟨before, d, after, i, hds, hbefore, hbinds, hfail, rfl, rfl, ?_⟩
    rw [Journal.warnings_announce, hbinds.warnings, List.flatMap_append, List.append_assoc]
    simp
  · rintro ⟨before, d, after, i, hds, hbefore, -, hfail, hk, -⟩
    exact ⟨before, d, after, i, hds, hbefore, hfail, hk⟩

/-- A definition in a block, seen as a definition on its own. -/
theorem evaluateAll_in_order_block :
    let cs : List Command := [.invocation [.word "a", .block [.definition "x" (.number 1)]]]
    let run := (Command.evaluateAll none cs .standard).go {}
    run.1 ≠ .error (.evaluation .nestedTooDeep) ∧
      run = (defineAll none [⟨"x", .number 1, .standard⟩]).go {} := by
  intro cs run
  have hne : run.1 ≠ .error (.evaluation .nestedTooDeep) := fun h => by cases h
  exact ⟨hne, (evaluateAll_in_order none cs .standard {}).2.1 .standard .refl hne⟩

/-! ## A definition that only its blocks leave no room for -/

/-- A sum of ones, grouped from the left, with so many operations. -/
def Expr.ones : Nat → Expr
  | 0 => .number 1
  | n + 1 => .binary .add (ones n) (.number 1)

namespace Expr
variable {n r : Nat}

theorem frames_ones (n : Nat) : (ones n).frames = n + 1 := by
  induction n with
  | zero => rfl
  | succ n ih =>
    rw [ones, frames, ih, frames]
    omega

/-- Every operation takes a frame before its left operand. -/
theorem eval_ones_of_le (env : Environment) (h : r ≤ n) :
    (ones n).eval env (some r) = .error .nestedTooDeep := by
  induction n generalizing r with
  | zero =>
    obtain rfl := Nat.le_zero.mp h
    rfl
  | succ n ih =>
    cases r with
    | zero => rfl
    | succ r =>
      have hleft := ih (Nat.le_of_succ_le_succ h)
      simp only [ones, eval, takeRoom_some (Nat.le_add_left 1 r), Nat.add_sub_cancel,
        bind, Except.bind, Operator.apply?, hleft]

/-- A sum that fits has a value. -/
theorem exists_eval_ones (env : Environment) (h : n + 1 ≤ r) :
    ∃ x, (ones n).eval env (some r) = .ok x := by
  rw [eval_of_frames_le env _ (frames_ones n ▸ h)]
  clear h
  induction n with
  | zero => exact ⟨1, rfl⟩
  | succ n ih =>
    obtain ⟨x, hx⟩ := ih
    refine ⟨x + 1, ?_⟩
    simp only [ones, eval, takeRoom_none, bind, Except.bind, Operator.apply?, hx]
    rfl

end Expr

/-- Commands inside so many blocks. -/
def Command.inBlocks : Nat → List Command → List Command
  | 0, cs => cs
  | n + 1, cs => [.invocation [.word "a", .block (inBlocks n cs)]]

theorem Command.definitionsAll_inBlocks (n : Nat) (cs : List Command) (room : Room) :
    definitionsAll (inBlocks n cs) room = definitionsAll cs (room.below n) := by
  induction n generalizing room with
  | zero => rw [inBlocks, Room.below_zero]
  | succ n ih =>
    simp only [inBlocks, definitionsAll, definitions, Arg.definitionsAll, Arg.definitions,
      List.nil_append, List.append_nil]
    rw [ih, Room.below_below, Nat.add_comm]

/-- A sum of 950 terms has a value where a definition of it is applied on its own, and none where
the definition stands in 60 blocks of a document. -/
theorem evaluateAll_ne_flat :
    let cs := Command.inBlocks 60 [.definition "x" (.ones 949)]
    ((Command.evaluateAll none cs .standard).go {}).1 = .error (.evaluation .nestedTooDeep) ∧
    ((defineAll none ((Command.definitionsAll cs .standard).map
      (·.inRoom .standard))).go {}).1 = .ok () := by
  intro cs
  have hds : Command.definitionsAll cs .standard = [⟨"x", .ones 949, some 930⟩] :=
    Command.definitionsAll_inBlocks 60 _ _
  have hshadows : ∀ room, (Definition.mk "x" (.ones 949) room).shadows = false := fun _ => rfl
  constructor
  · have hdeep : (Definition.mk "x" (.ones 949) (some 930)).evaluate .empty =
        .error .nestedTooDeep := Expr.eval_ones_of_le .empty (show 928 ≤ 949 by decide)
    rw [Command.evaluateAll_eq_defineAll, hds, defineAll, go_bind, define_eq _ ⟨_, _, _⟩, hshadows,
      if_neg Bool.false_ne_true, go_bindValue, hdeep]
  · obtain ⟨x, hx⟩ := Expr.exists_eval_ones .empty (show 949 + 1 ≤ 990 by decide)
    have hvalue : (Definition.mk "x" (.ones 949) .standard).evaluate .empty = .ok x := hx
    rw [hds, List.map_cons, defineAll, go_bind, define_eq _ ⟨_, _, _⟩]
    simp only [Definition.inRoom, hshadows, if_neg Bool.false_ne_true, go_bindValue, hvalue]
    rfl

end Planetarium
