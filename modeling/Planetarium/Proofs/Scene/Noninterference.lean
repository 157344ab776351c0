import Planetarium.Proofs.Scene.Visible

/-!
# What the variables at the start decide

An expression looks up the identifiers in it and nothing else: a builtin constant wins over a
variable of its name, and the function of a call is not a variable at all.  So two passes over a
document from different variables go the same way as long as the variables agree on the
identifiers of the document.

`Indifferent` says so of a step.  What makes it go through from one step to the next is that both
passes make the same bindings, each on top of the variables it started with: then they still agree
afterwards, and what neither has bound is as it was.
-/
namespace Planetarium
open Pass

/-! ## Identifiers -/

mutual
/-- The identifiers in an expression, from left to right. -/
def Expr.idents : Expr → List String
  | .ident name => [name]
  | .number _ | .stray _ => []
  | .call _ args => Expr.identsAll args
  | .binary _ left right => left.idents ++ right.idents

/-- The identifiers in some expressions, from left to right. -/
def Expr.identsAll : List Expr → List String
  | [] => []
  | e :: es => e.idents ++ Expr.identsAll es
end

/-- The identifiers in the value of a property. -/
def PropertyValue.idents : PropertyValue → List String
  | .expr e => e.idents
  | .text _ | .stray _ => []

mutual
/-- The identifiers in an argument. -/
def Arg.idents : Arg → List String
  | .word _ => []
  | .block commands => Command.identsAll commands

/-- The identifiers in some arguments. -/
def Arg.identsAll : List Arg → List String
  | [] => []
  | a :: as => a.idents ++ Arg.identsAll as

/-- The identifiers in the expressions of a command, and in those of its blocks. -/
def Command.idents : Command → List String
  | .invocation args => Arg.identsAll args
  | .property _ value => value.idents
  | .definition _ e => e.idents
  | .stray _ => []

/-- The identifiers in some commands. -/
def Command.identsAll : List Command → List String
  | [] => []
  | c :: cs => c.idents ++ Command.identsAll cs
end

/-- The same variables have the same values under these names; those named `pi` do not count. -/
def AgreeOn (names : List String) (env env' : Environment) : Prop :=
  ∀ name ∈ names, name ≠ "pi" → env.get? name = env'.get? name

variable {env env' : Environment} {names reads : List String}

theorem AgreeOn.mono (h : AgreeOn reads env env') (hsub : names ⊆ reads) :
    AgreeOn names env env' := fun name hname => h name (hsub hname)

/-- Environments that agree still do with one more value. -/
theorem AgreeOn.insert (h : AgreeOn reads env env') (name : String) (x : Float) :
    AgreeOn reads (env.insert name x) (env'.insert name x) := by
  intro other hother hpi
  rw [Table.get?_insert, Table.get?_insert, h other hother hpi]

theorem AgreeOn.insertAll (h : AgreeOn reads env env') (bs : List (String × Float)) :
    AgreeOn reads (env.insertAll bs) (env'.insertAll bs) := by
  induction bs generalizing env env' with
  | nil => exact h
  | cons b bs ih => exact ih (h.insert b.1 b.2)

/-- A binding changes nothing under other names. -/
theorem agreeOn_insert {name : String} (h : name ∈ reads → name = "pi") (x : Float) :
    AgreeOn reads (env.insert name x) env := by
  intro other hother hpi
  refine Table.get?_insert_of_ne ?_
  rintro rfl
  exact hpi (h hother)

/-! ## Expressions -/

/-- The only builtin constant is `pi`. -/
theorem get?_builtinConstants_of_ne {name : String} (h : name ≠ "pi") :
    builtinConstants.get? name = none := by
  rw [builtinConstants, Table.ofList, Table.insertAll_cons, Table.insertAll_nil,
    Table.get?_insert_of_ne h, Table.get?_empty]

/-- A lookup only reads the name it is for. -/
theorem lookup_congr {name : String} (h : AgreeOn [name] env env') :
    lookup env name = lookup env' name := by
  by_cases hpi : name = "pi"
  · subst hpi
    rfl
  · rw [lookup, lookup, get?_builtinConstants_of_ne hpi, h name (List.mem_singleton.mpr rfl) hpi]

namespace Expr

mutual
/-- **Coincidence.**  Variables that an expression does not name make no difference to it. -/
theorem eval_congr (room : Room) :
    (e : Expr) → AgreeOn e.idents env env' → e.eval env room = e.eval env' room
  | .ident name, h => by simp only [eval, lookup_congr h]
  | .number _, _ | .stray _, _ => rfl
  | .call _ args, h => by
    have hargs := fun room => evalAll_congr room args h
    simp only [eval, hargs]
  | .binary _ left right, h => by
    have hleft := fun room => eval_congr room left (h.mono (List.subset_append_left _ _))
    have hright := fun room => eval_congr room right (h.mono (List.subset_append_right _ _))
    simp only [eval, hleft, hright]

theorem evalAll_congr (room : Room) :
    (es : List Expr) → AgreeOn (identsAll es) env env' → evalAll env room es = evalAll env' room es
  | [], _ => rfl
  | e :: es, h => by
    have he := eval_congr room e (h.mono (List.subset_append_left _ _))
    have hes := evalAll_congr room es (h.mono (List.subset_append_right _ _))
    simp only [evalAll, he, hes]
end

/-- An expression only reads the names in it. -/
theorem evaluate_congr {e : Expr} (h : AgreeOn e.idents env env') (room : Room) :
    e.evaluate env room = e.evaluate env' room := eval_congr _ e h

end Expr

/-! ## Steps -/

namespace Pass
variable {α β : Type} {policy : Option Policy} {defined : List String} {j j' : Journal}

/-- Two runs come to the same: the same result, and the same warnings and bindings on top of what
each of them started with.  What they bind are the names given, in this order, and all of these
if they succeed. -/
structure Alike (defined : List String) (j j' : Journal) (run run' : Except Failure α × Journal) :
    Prop where
  result : run.1 = run'.1
  warnings : ∃ ws, run.2.warnings = j.warnings ++ ws ∧ run'.2.warnings = j'.warnings ++ ws
  bindings : ∃ bs, run.2.env = j.env.insertAll bs ∧ run'.2.env = j'.env.insertAll bs ∧
    bs.map Prod.fst <+: defined ∧ ∀ a, run.1 = .ok a → bs.map Prod.fst = defined

/-- From variables that agree on the names to be read, the step comes to the same. -/
def Indifferent (reads : List String) (step : Pass α) (defined : List String) : Prop :=
  ∀ j j' : Journal, AgreeOn reads j.env j'.env → Alike defined j j' (step.go j) (step.go j')

/-- Runs that bind nothing and issue nothing. -/
theorem alike_of_still {r : Except Failure α} : Alike [] j j' (r, j) (r, j') :=
  ⟨rfl, ⟨[], by simp⟩, [], rfl, rfl, List.prefix_refl _, fun _ _ => rfl⟩

theorem indifferent_pure (a : α) : Indifferent reads (pure a : Pass α) [] :=
  fun _ _ _ => alike_of_still

theorem indifferent_throw (f : Failure) : Indifferent reads (throw f : Pass α) [] :=
  fun _ _ _ => alike_of_still

theorem indifferent_value {e : Expr} (he : e.idents ⊆ reads) (room : Room) :
    Indifferent reads (value e room) [] := by
  intro j j' h
  rw [go_value, go_value, Expr.evaluate_congr (h.mono he)]
  cases e.evaluate j'.env room with
  | ok x => exact alike_of_still
  | error reason => exact alike_of_still

theorem indifferent_bindVariable (name : String) (x : Float) :
    Indifferent reads (bindVariable name x) [name] :=
  fun _ _ _ => ⟨rfl, ⟨[], by simp [Journal.warnings]⟩,
    [(name, x)], rfl, rfl, List.prefix_refl _, fun _ _ => rfl⟩

/-- Whether a warning is issued is up to the policy. -/
theorem indifferent_emit (policy : Option Policy) (w : Warning) :
    Indifferent reads (emit policy w) [] := by
  intro j j' _
  rw [go_emit, go_emit]
  cases verdict policy w.code with
  | issue =>
    exact ⟨rfl, ⟨[w], by simp [Journal.warnings]⟩, [], rfl, rfl, List.prefix_refl _, fun _ _ => rfl⟩
  | drop => exact alike_of_still
  | escalate => exact alike_of_still

/-- Two indifferent steps in a row are indifferent. -/
theorem Indifferent.bind {step : Pass α} {next : α → Pass β} {xs ys : List String}
    (h : Indifferent reads step xs) (hnext : ∀ a, Indifferent reads (next a) ys) :
    Indifferent reads (step >>= next) (xs ++ ys) := by
  intro j j' hagree
  obtain ⟨hresult, ⟨ws, hws, hws'⟩, bs, hbs, hbs', hprefix, hall⟩ := h j j' hagree
  rw [go_bind, go_bind]
  rcases hgo : step.go j with ⟨r, i⟩
  rcases hgo' : step.go j' with ⟨r', i'⟩
  simp only [hgo, hgo'] at hresult hws hws' hbs hbs' hall
  subst hresult
  cases r with
  | error f =>
    -- both runs end with the first step
    exact ⟨rfl, ⟨ws, hws, hws'⟩, bs, hbs, hbs', hprefix.trans (List.prefix_append _ _), nofun⟩
  | ok a =>
    -- the second step starts from variables that agree again
    have hagree' : AgreeOn reads i.env i'.env := by
      rw [hbs, hbs']
      exact hagree.insertAll bs
    obtain ⟨hresult, ⟨vs, hvs, hvs'⟩, cs, hcs, hcs', hprefix', hall'⟩ := hnext a i i' hagree'
    have hxs := hall a rfl
    refine ⟨hresult, ⟨ws ++ vs, ?_, ?_⟩, bs ++ cs, ?_, ?_, ?_, fun b hb => ?_⟩
    · rw [hvs, hws, List.append_assoc]
    · rw [hvs', hws', List.append_assoc]
    · rw [hcs, hbs, Table.insertAll_append]
    · rw [hcs', hbs', Table.insertAll_append]
    · rw [List.map_append, hxs]
      exact (List.prefix_append_right_inj xs).mpr hprefix'
    · rw [List.map_append, hxs, hall' b hb]

/-- So is a definition. -/
theorem indifferent_define {name : String} {e : Expr} (he : e.idents ⊆ reads) (room : Room) :
    Indifferent reads (define policy name e room) [name] := by
  have hrest : Indifferent reads
      (do let x ← value e (room.below 1); bindVariable name x; return x : Pass Float) [name] :=
    (indifferent_value he _).bind fun x => (indifferent_bindVariable name x).bind fun _ =>
      indifferent_pure x
  simp only [define]
  split
  · exact (indifferent_emit policy _).bind fun _ => hrest
  · exact hrest

theorem indifferent_defineAll {ds : List Definition} (h : ∀ d ∈ ds, d.expr.idents ⊆ reads) :
    Indifferent reads (defineAll policy ds) (ds.map Definition.name) := by
  induction ds with
  | nil => exact indifferent_pure ()
  | cons d ds ih =>
    rw [List.forall_mem_cons] at h
    exact (indifferent_define h.1 d.room).bind fun _ => ih h.2

end Pass

/-! ## Passes over documents -/

mutual
/-- The definitions of a command name nothing that the command does not name. -/
theorem Command.idents_of_definitions :
    (c : Command) → (room : Room) → ∀ d ∈ c.definitions room, d.expr.idents ⊆ c.idents
  | .definition name e, _ => by simp [Command.definitions, Command.idents]
  | .invocation args, room => Arg.idents_of_definitionsAll args room
  | .property _ _, _ | .stray _, _ => by simp [Command.definitions]

theorem Arg.idents_of_definitions :
    (a : Arg) → (room : Room) → ∀ d ∈ a.definitions room, d.expr.idents ⊆ a.idents
  | .word _, _ => by simp [Arg.definitions]
  | .block commands, room => Command.idents_of_definitionsAll commands (room.below 1)

theorem Arg.idents_of_definitionsAll :
    (as : List Arg) → (room : Room) →
      ∀ d ∈ Arg.definitionsAll as room, d.expr.idents ⊆ Arg.identsAll as
  | [], _ => by simp [Arg.definitionsAll]
  | a :: as, room => by
    intro d hd
    rcases List.mem_append.mp hd with hd | hd
    · exact List.subset_append_of_subset_left _ (Arg.idents_of_definitions a room d hd)
    · exact List.subset_append_of_subset_right _ (Arg.idents_of_definitionsAll as room d hd)

theorem Command.idents_of_definitionsAll :
    (cs : List Command) → (room : Room) →
      ∀ d ∈ Command.definitionsAll cs room, d.expr.idents ⊆ Command.identsAll cs
  | [], _ => by simp [Command.definitionsAll]
  | c :: cs, room => by
    intro d hd
    rcases List.mem_append.mp hd with hd | hd
    · exact List.subset_append_of_subset_left _ (Command.idents_of_definitions c room d hd)
    · exact List.subset_append_of_subset_right _ (Command.idents_of_definitionsAll cs room d hd)
end

/-- The evaluation of a document is indifferent to all names but those in it. -/
theorem Command.indifferent_evaluateAll (policy : Option Policy) (cs : List Command)
    (room : Room) :
    Indifferent (Command.identsAll cs) (Command.evaluateAll policy cs room)
      ((Command.definitionsAll cs room).map Definition.name) := by
  rw [Command.evaluateAll_eq_defineAll]
  exact indifferent_defineAll (Command.idents_of_definitionsAll cs room)

namespace Body
variable {policy : Option Policy}

theorem indifferent_assign (b : Body) (key : String) {v : PropertyValue} (hv : v.idents ⊆ reads)
    (room : Room) : Indifferent reads (b.assign policy key v room) [] := by
  unfold assign
  split
  · exact (indifferent_value hv _).bind fun _ => indifferent_pure _
  · exact (indifferent_emit policy _).bind fun _ => indifferent_pure b
  · split
    · split
      · exact indifferent_pure _
      · exact (indifferent_emit policy _).bind fun _ => indifferent_pure b
    · exact (indifferent_emit policy _).bind fun _ => indifferent_pure b

/-- Loading a body and filling one call each other. -/
theorem indifferent_load?_fill :
    (∀ c below, (∀ name e, c ≠ .definition name e) → ∀ room : Room, below = room.below 1 →
      c.idents ⊆ reads → Indifferent reads (load? policy c below)
        ((c.visible.definitions room).map Definition.name)) ∧
    ∀ b cs room, Command.identsAll cs ⊆ reads → Indifferent reads (fill policy b cs room)
      ((Command.seenAll cs room).map Definition.name) := by
  have hall := load_induction
    (P := fun c below => (∀ name e, c ≠ .definition name e) → ∀ room : Room,
      below = room.below 1 → c.idents ⊆ reads → Indifferent reads (load? policy c below)
        ((c.visible.definitions room).map Definition.name))
    (Q := fun b cs room => Command.identsAll cs ⊆ reads → Indifferent reads (fill policy b cs room)
      ((Command.seenAll cs room).map Definition.name))
  refine hall ?declaration ?other ?nil ?definition ?property ?command
  case declaration =>
    rintro below name block rest ih - room rfl hreads
    have hblock : Command.identsAll block ⊆ reads := by
      refine List.Subset.trans ?_ hreads
      simp only [Command.idents, Arg.identsAll, Arg.idents, List.nil_append]
      exact List.subset_append_left _ _
    rw [Command.definitions_visible_declaration, load?_declaration, map_eq_pure_bind]
    simpa using (ih hblock).bind fun b => indifferent_pure (some b)
  case other =>
    intro c below hc hdefinition room _ _
    rw [Command.definitions_visible_other hc hdefinition]
    rcases load?_other below hc with ⟨-, hload⟩ | ⟨reason, hload⟩
    · rw [hload]
      exact indifferent_pure none
    · rw [hload]
      exact indifferent_throw (.declaration reason)
  case nil =>
    intro b room _
    rw [fill_nil]
    exact indifferent_pure b
  case definition =>
    intro b room name e rest ih hreads
    obtain ⟨he, hrest⟩ := List.append_subset.mp hreads
    rw [fill_definition]
    exact (indifferent_define he _).bind fun _ => ih hrest
  case property =>
    intro b room name value rest ih hreads
    obtain ⟨hvalue, hrest⟩ := List.append_subset.mp hreads
    rw [fill_property]
    exact (indifferent_assign b name hvalue _).bind fun b => ih b hrest
  case command =>
    intro b room c rest hdefinition hproperty ihc ih hreads
    obtain ⟨hc, hrest⟩ := List.append_subset.mp hreads
    rw [fill_command _ _ _ _ hdefinition hproperty, Command.seenAll_cons, List.map_append]
    exact (ihc hdefinition room rfl hc).bind fun child => ih child hrest

/-- A definition is applied when it is visited, anything else when it is loaded. -/
theorem indifferent_visit_load? {c : Command} (hc : c.idents ⊆ reads) (room : Room) :
    Indifferent reads (do visit policy c (room.below 1); load? policy c (room.below 1))
      ((c.visible.definitions room).map Definition.name) := by
  cases c with
  | definition name e =>
    have hvisit : Indifferent reads (visit policy (.definition name e) (room.below 1)) [name] :=
      (indifferent_define hc _).bind fun _ => indifferent_pure ()
    exact hvisit.bind fun _ => indifferent_pure none
  | invocation _ | property _ _ | stray _ =>
    exact (indifferent_pure ()).bind fun _ =>
      indifferent_load?_fill.1 _ _ (by simp) room rfl hc

/-- So is the loading of a scene. -/
theorem indifferent_loadAll {cs : List Command} (hcs : Command.identsAll cs ⊆ reads)
    (room : Room) :
    Indifferent reads (loadAll policy cs room)
      ((Command.seenAll cs room).map Definition.name) := by
  induction cs with
  | nil => exact indifferent_pure []
  | cons c cs ih =>
    obtain ⟨hc, hcs⟩ := List.append_subset.mp hcs
    have hrest : ∀ body : Option Body, Indifferent reads
        (do let bodies ← loadAll policy cs room; return body.toList ++ bodies)
        ((Command.seenAll cs room).map Definition.name) := fun body => by
      simpa using (ih hcs).bind fun bodies => indifferent_pure (body.toList ++ bodies)
    have hfirst : Indifferent reads
        (do visit policy c (room.below 1); load? policy c (room.below 1))
        ((c.visible.definitions room).map Definition.name) := indifferent_visit_load? hc room
    simpa only [loadAll, bind_assoc, Command.seenAll_cons, List.map_append]
      using hfirst.bind hrest

end Body

/-! ## Two passes -/

/-- What the pass comes to from the one environment and from the other.  It makes the same bindings
in both of them, one after another.  Their names are the first of those given, and all of them if
the pass succeeds. -/
structure SameOutcome {α : Type} (step : Pass α) (defined : List String) (env env' : Environment) :
    Prop where
  result : (step.go { env }).1 = (step.go { env := env' }).1
  warnings : (step.go { env }).2.warnings = (step.go { env := env' }).2.warnings
  bindings : ∃ bs : List (String × Float), bs.map Prod.fst <+: defined ∧
    (∀ a, (step.go { env }).1 = .ok a → bs.map Prod.fst = defined) ∧
    (step.go { env }).2.env = env.insertAll bs ∧
    (step.go { env := env' }).2.env = env'.insertAll bs ∧
    (∀ name ∈ bs.map Prod.fst, ∃ x, (step.go { env }).2.env.get? name = some x ∧
      (step.go { env := env' }).2.env.get? name = some x) ∧
    ∀ name ∉ bs.map Prod.fst, (step.go { env }).2.env.get? name = env.get? name ∧
      (step.go { env := env' }).2.env.get? name = env'.get? name

/-- A name that has been entered has the same value whatever the table was before. -/
theorem exists_get?_insertAll {bs : List (String × Float)} {name : String}
    (h : name ∈ bs.map Prod.fst) :
    ∃ x, ∀ env : Environment, (env.insertAll bs).get? name = some x := by
  induction bs with
  | nil => cases h
  | cons b bs ih =>
    by_cases hmem : name ∈ bs.map Prod.fst
    · obtain ⟨x, hx⟩ := ih hmem
      exact ⟨x, fun env => hx _⟩
    · obtain rfl : name = b.1 := (List.mem_cons.mp h).resolve_right hmem
      refine ⟨b.2, fun env => ?_⟩
      rw [Table.insertAll_cons, Table.get?_insertAll_of_notMem hmem, Table.get?_insert_self]

theorem Pass.Indifferent.sameOutcome {α : Type} {step : Pass α} {defined : List String}
    (h : Indifferent reads step defined) (hagree : AgreeOn reads env env') :
    SameOutcome step defined env env' := by
  obtain ⟨hresult, ⟨ws, hws, hws'⟩, bs, hbs, hbs', hprefix, hall⟩ :=
    h { env } { env := env' } hagree
  refine ⟨hresult, hws.trans hws'.symm, bs, hprefix, hall, hbs, hbs', fun name hname => ?_,
    fun name hname => ?_⟩
  · obtain ⟨x, hx⟩ := exists_get?_insertAll hname
    exact ⟨x, by rw [hbs, hx], by rw [hbs', hx]⟩
  · rw [hbs, hbs']
    exact ⟨Table.get?_insertAll_of_notMem hname, Table.get?_insertAll_of_notMem hname⟩

/-- **A document reads the variables that it names, and no others.**  From variables that agree on
its identifiers, loading its bodies and evaluating it come to the same, and so they do whatever is
bound to `pi`.  No expression depends on a variable that is not an identifier in it, were it named
like a function that is called. -/
theorem passes_read_what_is_named (policy : Option Policy) (cs : List Command) (room : Room)
    (env env' : Environment) (h : AgreeOn (Command.identsAll cs) env env') :
    SameOutcome (Body.loadAll policy cs room) ((Command.seenAll cs room).map Definition.name)
      env env' ∧
    SameOutcome (Command.evaluateAll policy cs room)
      ((Command.definitionsAll cs room).map Definition.name) env env' ∧
    ∀ (e : Expr) (rho : Environment) (name : String) (x : Float),
      (name ∈ e.idents → name = "pi") → e.evaluate (rho.insert name x) room = e.evaluate rho room :=
  ⟨(Body.indifferent_loadAll (List.Subset.refl _) room).sameOutcome h,
    (Command.indifferent_evaluateAll policy cs room).sameOutcome h,
    fun _ _ _ x hname => Expr.evaluate_congr (agreeOn_insert hname x) room⟩

/-- A definition of `pi`, and a declaration that uses it, a function and a variable. -/
def readingSample : List Command :=
  [.definition "pi" (.number 3),
    .invocation [.word "astro", .word "sun", .block
      [.property "radius" (.expr (.call "sqrt" [.binary .mul (.ident "pi") (.ident "r")]))]]]

theorem passes_read_what_is_named_sample :
    AgreeOn (Command.identsAll readingSample) (.ofList [("r", 2)])
      (.ofList [("sqrt", 5), ("pi", 4), ("r", 2)]) ∧
    SameOutcome (Body.loadAll none readingSample) ["pi"] (.ofList [("r", 2)])
      (.ofList [("sqrt", 5), ("pi", 4), ("r", 2)]) :=
  have h : AgreeOn (Command.identsAll readingSample) (.ofList [("r", 2)])
      (.ofList [("sqrt", 5), ("pi", 4), ("r", 2)]) := by
    intro name hname hpi
    obtain rfl | rfl : name = "pi" ∨ name = "r" := by
      simpa [readingSample, Command.identsAll, Command.idents, Arg.identsAll, Arg.idents,
        PropertyValue.idents, Expr.idents, Expr.identsAll] using hname
    · exact absurd rfl hpi
    · rfl
  ⟨h, (passes_read_what_is_named none readingSample .standard _ _ h).1⟩

end Planetarium
