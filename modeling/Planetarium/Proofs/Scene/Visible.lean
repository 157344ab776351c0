import Planetarium.Proofs.Document.Definition
import Planetarium.Scene.Body

/-!
# What a scene sees of a document

Loading a scene goes into the blocks of declarations and into no others.  `visible` is the document
with all other blocks emptied, and it is what the pass that evaluates a document has to be given to
do the same to the variables.

The two passes have little in common, so each is compared with the flat list of definitions
(`Applies`): loading a scene assigns properties and builds bodies in between, but where it succeeds
nothing of that touches the variables, and none of its warnings is about a definition.
-/
namespace Planetarium
open Pass

/-- The argument with nothing in its block. -/
def Arg.emptied : Arg → Arg
  | .word text => .word text
  | .block _ => .block []

mutual
/-- The command with nothing in its blocks, but for the block of a declaration. -/
def Command.visible : Command → Command
  | .invocation (.word first :: .word name :: .block commands :: rest) =>
    if first = declarationWord then
      .invocation (.word first :: .word name :: .block (Command.visibleAll commands) ::
        rest.map Arg.emptied)
    else .invocation ((.word first :: .word name :: .block commands :: rest).map Arg.emptied)
  | .invocation args => .invocation (args.map Arg.emptied)
  | c => c

/-- The commands with nothing in their blocks, but for those of declarations. -/
def Command.visibleAll : List Command → List Command
  | [] => []
  | c :: cs => c.visible :: Command.visibleAll cs
end

mutual
/-- The definitions of a command that `visible` leaves out. -/
def Command.hidden (c : Command) (room : Room := .standard) : List Definition :=
  match c with
  | .invocation (.word first :: .word name :: .block commands :: rest) =>
    if first = declarationWord then
      Command.hiddenAll commands (room.below 1) ++ Arg.definitionsAll rest room
    else Arg.definitionsAll (.word first :: .word name :: .block commands :: rest) room
  | .invocation args => Arg.definitionsAll args room
  | _ => []

/-- The definitions of some commands that `visibleAll` leaves out. -/
def Command.hiddenAll (commands : List Command) (room : Room := .standard) : List Definition :=
  match commands with
  | [] => []
  | c :: cs => c.hidden room ++ Command.hiddenAll cs room
end

/-- The definitions that are not left out of some commands, in document order. -/
def Command.seenAll (cs : List Command) (room : Room := .standard) : List Definition :=
  Command.definitionsAll (Command.visibleAll cs) room

section Seen
variable {room : Room}

@[simp] theorem Command.seenAll_nil : Command.seenAll [] room = [] := rfl

@[simp] theorem Command.seenAll_cons (c : Command) (cs : List Command) :
    Command.seenAll (c :: cs) room = c.visible.definitions room ++ Command.seenAll cs room := rfl

theorem Command.seenAll_append (xs ys : List Command) :
    Command.seenAll (xs ++ ys) room = Command.seenAll xs room ++ Command.seenAll ys room := by
  induction xs with
  | nil => rfl
  | cons c cs ih => simp [ih]

theorem Arg.definitionsAll_emptied (as : List Arg) :
    Arg.definitionsAll (as.map Arg.emptied) room = [] := by
  induction as with
  | nil => rfl
  | cons a as ih =>
    have ha : a.emptied.definitions room = [] := by cases a <;> rfl
    rw [List.map_cons, Arg.definitionsAll, ha, ih, List.append_nil]

/-- Of a declaration one sees the definitions in its block. -/
theorem Command.definitions_visible_declaration (name : String) (block : List Command)
    (rest : List Arg) :
    (Command.invocation (.word declarationWord :: .word name :: .block block ::
      rest)).visible.definitions room = Command.seenAll block (room.below 1) := by
  rw [Command.visible, if_pos rfl, Command.definitions]
  simp only [Arg.definitionsAll, Arg.definitions, Arg.definitionsAll_emptied, List.nil_append,
    List.append_nil]
  rfl

/-- Of anything but declarations and definitions one sees no definition. -/
theorem Command.definitions_visible_other {c : Command}
    (h : ∀ name block rest,
      c ≠ .invocation (.word declarationWord :: .word name :: .block block :: rest))
    (h' : ∀ name e, c ≠ .definition name e) : c.visible.definitions room = [] := by
  unfold Command.visible
  split
  · rename_i first name block rest
    split
    · rename_i hfirst
      exact absurd (by rw [hfirst]) (h name block rest)
    · rw [Command.definitions, Arg.definitionsAll_emptied]
  · rw [Command.definitions, Arg.definitionsAll_emptied]
  · rename_i hinvocation
    cases c with
    | invocation args => exact absurd rfl (hinvocation args)
    | property name value => rfl
    | definition name e => exact absurd rfl (h' name e)
    | stray word => rfl

end Seen

/-! ## What of a pass is about definitions -/

/-- The notice is about a definition. -/
def Notice.isShadowed (n : Notice) : Bool := n.warning.code = .shadowedConstant

namespace Pass
variable {α β : Type} {policy : Option Policy}

/-- Where the step succeeds, it does to the variables what some definitions do, and of its notices
those about definitions are theirs. -/
def Applies (policy : Option Policy) (step : Pass α) (ds : List Definition) : Prop :=
  ∀ env before before' a k, step.go ⟨env, before⟩ = (.ok a, k) →
    ∃ issued, k.notices = before ++ issued ∧
      (defineAll policy ds).go ⟨env, before'⟩ =
        (.ok (), ⟨k.env, before' ++ issued.filter Notice.isShadowed⟩)

theorem applies_of_quiet {step : Pass α}
    (h : ∀ j a k, step.go j = (.ok a, k) → k.env = j.env ∧
      ∃ issued, k.notices = j.notices ++ issued ∧ ∀ n ∈ issued, ¬ n.isShadowed) :
    Applies policy step [] := by
  intro env before before' a k hgo
  obtain ⟨henv, issued, hissued, hother⟩ := h _ a k hgo
  refine ⟨issued, hissued, ?_⟩
  rw [List.filter_eq_nil_iff.mpr hother, List.append_nil, henv]
  rfl

theorem applies_pure (a : α) : Applies policy (pure a : Pass α) [] :=
  applies_of_quiet fun j b k h => by
    obtain ⟨-, rfl⟩ : a = b ∧ j = k := by simpa using h
    exact ⟨rfl, [], by simp⟩

theorem applies_throw (f : Failure) : Applies policy (throw f : Pass α) [] :=
  applies_of_quiet fun j b k h => by cases (Prod.mk.inj h).1

theorem applies_value (e : Expr) (room : Room) : Applies policy (value e room) [] :=
  applies_of_quiet fun j x k h => by
    obtain ⟨-, rfl⟩ := go_value_eq_ok.mp h
    exact ⟨rfl, [], by simp⟩

theorem applies_emit {w : Warning} (hw : w.code ≠ .shadowedConstant) :
    Applies policy (emit policy w) [] :=
  applies_of_quiet fun j u k h => by
    rw [go_emit] at h
    cases hv : verdict policy w.code with
    | issue =>
      obtain rfl : _ = k := by simpa [hv] using h
      exact ⟨rfl, [⟨w, j.env⟩], rfl, by simp [Notice.isShadowed, hw]⟩
    | drop =>
      obtain rfl : j = k := by simpa [hv] using h
      exact ⟨rfl, [], by simp⟩
    | escalate => simp [hv] at h

/-- A definition applies itself. -/
theorem applies_define (d : Definition) :
    Applies policy (define policy d.name d.expr d.room) [d] := by
  intro env before before' a k h
  have hcode : ∀ n ∈ (d.issued policy).map fun w => Notice.mk w env, n.isShadowed := by
    intro n hn
    obtain ⟨w, hw, rfl⟩ := List.mem_map.mp hn
    unfold Definition.issued at hw
    split at hw
    · obtain rfl := List.mem_singleton.mp hw
      rfl
    · exact absurd hw List.not_mem_nil
  rcases define_cases policy d ⟨env, before⟩ with ⟨f, -, hgo⟩ | ⟨x, hnone, hx, hgo⟩
  · rw [hgo] at h
    cases (Prod.mk.inj h).1
  · rw [hgo] at h
    obtain rfl := (Prod.mk.inj h).2
    refine ⟨_, rfl, ?_⟩
    rw [List.filter_eq_self.mpr hcode, defineAll, go_bind]
    rcases define_cases policy d ⟨env, before'⟩ with ⟨f, hf, -⟩ | ⟨y, -, hy, hgo'⟩
    · cases hnone.symm.trans hf
    · rw [hgo']
      obtain rfl := Except.ok.inj (hx.symm.trans hy)
      rfl

/-- Two steps in a row apply their definitions in order. -/
theorem Applies.bind {step : Pass α} {next : α → Pass β} {xs ys : List Definition}
    (h : Applies policy step xs) (hnext : ∀ a, Applies policy (next a) ys) :
    Applies policy (step >>= next) (xs ++ ys) := by
  intro env before before' b k hgo
  obtain ⟨a, i, hstep, hgo⟩ := go_bind_eq_ok.mp hgo
  obtain ⟨issued, hissued, hxs⟩ := h env before before' a i hstep
  obtain ⟨more, hmore, hys⟩ :=
    hnext a i.env i.notices (before' ++ issued.filter Notice.isShadowed) b k hgo
  refine ⟨issued ++ more, ?_, ?_⟩
  · rw [hmore, hissued, List.append_assoc]
  · rw [defineAll_append, go_bind, hxs, List.filter_append, ← List.append_assoc]
    exact hys

/-- So a step that succeeds leaves the variables that the definitions leave in a wider room. -/
theorem Applies.variablesAfter {step : Pass α} {ds : List Definition} {j k : Journal} {a : α}
    {wide : Room} (h : Applies policy step ds) (hwide : ∀ d ∈ ds, d.room.AtMost wide)
    (hgo : step.go j = (.ok a, k)) :
    variablesAfter j.env (ds.map (·.inRoom wide)) = .ok k.env := by
  obtain ⟨issued, -, hdefine⟩ := h j.env j.notices [] a k hgo
  have hvariables := variablesAfter_inRoom hwide hdefine
  exact hvariables

end Pass

/-! ## What loading a scene applies -/

theorem Pass.applies_visit (policy : Option Policy) (c : Command) (room : Room) :
    Applies policy (visit policy c room)
      (match c with | .definition name e => [⟨name, e, room.below 1⟩] | _ => []) := by
  cases c with
  | definition name e =>
    exact (applies_define ⟨name, e, room.below 1⟩).bind fun _ => applies_pure ()
  | invocation _ | property _ _ | stray _ => exact applies_pure ()

namespace Body
variable {policy : Option Policy}

theorem applies_assign (b : Body) (name : String) (v : PropertyValue) (room : Room) :
    Applies policy (b.assign policy name v room) [] := by
  unfold assign
  split
  · exact (applies_value _ _).bind fun _ => applies_pure _
  · exact (applies_emit (by simp)).bind fun _ => applies_pure b
  · split
    · split
      · exact applies_pure _
      · exact (applies_emit (by simp)).bind fun _ => applies_pure b
    · exact (applies_emit (by simp)).bind fun _ => applies_pure b

/-- Loading a body and filling one call each other.  A command is loaded one frame below the pass
over the commands among which it stands. -/
theorem applies_load?_fill :
    (∀ c below, (∀ name e, c ≠ .definition name e) → ∀ room : Room, below = room.below 1 →
      Applies policy (load? policy c below) (c.visible.definitions room)) ∧
    ∀ b cs room, Applies policy (fill policy b cs room) (Command.seenAll cs room) := by
  have hall := load_induction
    (P := fun c below => (∀ name e, c ≠ .definition name e) → ∀ room : Room,
      below = room.below 1 → Applies policy (load? policy c below) (c.visible.definitions room))
    (Q := fun b cs room => Applies policy (fill policy b cs room) (Command.seenAll cs room))
  refine hall ?declaration ?other ?nil ?definition ?property ?command
  case declaration =>
    rintro below name block rest ih - room rfl
    rw [Command.definitions_visible_declaration, load?_declaration, map_eq_pure_bind]
    simpa using ih.bind fun b => applies_pure (some b)
  case other =>
    intro c below hc hdefinition room _
    rw [Command.definitions_visible_other hc hdefinition]
    rcases load?_other below hc with ⟨-, hload⟩ | ⟨reason, hload⟩
    · rw [hload]
      exact applies_pure none
    · rw [hload]
      exact applies_throw (.declaration reason)
  case nil =>
    intro b room
    rw [fill_nil]
    exact applies_pure b
  case definition =>
    intro b room name e rest ih
    rw [fill_definition]
    exact (applies_define ⟨name, e, room.below 2⟩).bind fun _ => ih
  case property =>
    intro b room name value rest ih
    rw [fill_property]
    exact (applies_assign b name value _).bind fun b => ih b
  case command =>
    intro b room c rest hdefinition hproperty ihc ih
    rw [fill_command _ _ _ _ hdefinition hproperty]
    exact (ihc hdefinition room rfl).bind fun child => ih child

theorem applies_load? {c : Command} (h : ∀ name e, c ≠ .definition name e) (room : Room) :
    Applies policy (load? policy c (room.below 1)) (c.visible.definitions room) :=
  applies_load?_fill.1 c _ h room rfl

/-- A definition is applied when it is visited, anything else when it is loaded. -/
theorem applies_visit_load? (c : Command) (room : Room) :
    Applies policy (do visit policy c (room.below 1); load? policy c (room.below 1))
      (c.visible.definitions room) := by
  cases c with
  | definition name e =>
    have hvisit := applies_visit policy (.definition name e) (room.below 1)
    rw [Room.below_below] at hvisit
    exact hvisit.bind fun _ => applies_pure none
  | invocation _ | property _ _ | stray _ =>
    exact (applies_visit policy _ _).bind fun _ => applies_load? (by simp) room

/-- **Loading a scene applies the definitions it sees.** -/
theorem applies_loadAll (cs : List Command) (room : Room) :
    Applies policy (loadAll policy cs room) (Command.seenAll cs room) := by
  induction cs with
  | nil => exact applies_pure []
  | cons c cs ih =>
    have hrest : ∀ body : Option Body, Applies policy
        (do let bodies ← loadAll policy cs room; return body.toList ++ bodies)
        (Command.seenAll cs room) := fun body => by
      simpa using ih.bind fun bodies => applies_pure (body.toList ++ bodies)
    have hfirst : Applies policy
        (do visit policy c (room.below 1); load? policy c (room.below 1))
        (c.visible.definitions room) := applies_visit_load? c room
    simpa only [loadAll, bind_assoc, Command.seenAll_cons] using hfirst.bind hrest

end Body

/-! ## The definitions that are left out -/

/-- Where no definition is left out, all of them are seen. -/
theorem Command.definitions_of_hidden :
    (∀ (c : Command) (room : Room), c.hidden room = [] →
      c.visible.definitions room = c.definitions room) ∧
    ∀ cs room, Command.hiddenAll cs room = [] →
      Command.seenAll cs room = Command.definitionsAll cs room := by
  refine Command.hidden.mutual_induct
    (fun c room => c.hidden room = [] → c.visible.definitions room = c.definitions room)
    (fun cs room => Command.hiddenAll cs room = [] →
      Command.seenAll cs room = Command.definitionsAll cs room)
    ?declaration ?otherWord ?invocation ?other ?nil ?cons
  case declaration =>
    intro room name block rest ih h
    simp only [Command.hidden, if_true, List.append_eq_nil_iff] at h
    rw [Command.definitions_visible_declaration, ih h.1]
    simp [Command.definitions, Arg.definitionsAll, Arg.definitions, h.2]
  case otherWord =>
    intro room first name block rest hfirst h
    rw [Command.hidden, if_neg hfirst] at h
    rw [Command.visible, if_neg hfirst, Command.definitions, Command.definitions,
      Arg.definitionsAll_emptied, h]
  case invocation =>
    intro room args hargs h
    rw [Command.hidden.eq_2 room args hargs] at h
    rw [Command.visible.eq_2 args hargs, Command.definitions, Command.definitions,
      Arg.definitionsAll_emptied, h]
  case other =>
    intro room c hdeclaration hinvocation _
    rw [Command.visible.eq_3 c hdeclaration hinvocation]
  case nil =>
    exact fun _ _ => rfl
  case cons =>
    intro room c cs ihc ihcs h
    simp only [Command.hiddenAll, List.append_eq_nil_iff] at h
    rw [Command.seenAll_cons, ihc h.1, ihcs h.2, Command.definitionsAll]

/-- **Loading a scene and evaluating what it sees of the document agree**, in any room that both
have. -/
theorem loadAll_agrees_with_evaluateAll (policy : Option Policy) (cs : List Command) (room : Room)
    (env : Environment) (bodies : List Body) (j : Journal)
    (h : (Body.loadAll policy cs room).go { env } = (.ok bodies, j)) :
    (∃ k, (Command.evaluateAll policy (Command.visibleAll cs) room).go { env } = (.ok (), k) ∧
      k.env = j.env ∧ k.warnings = j.warnings.filter (·.code = .shadowedConstant)) ∧
    (Command.hiddenAll cs room = [] →
      ∃ k, (Command.evaluateAll policy cs room).go { env } = (.ok (), k) ∧ k.env = j.env) := by
  obtain ⟨issued, hissued, hgo⟩ := Body.applies_loadAll cs room env [] [] bodies j h
  rw [List.nil_append] at hissued hgo
  have hevaluate : (Command.evaluateAll policy (Command.visibleAll cs) room).go { env } =
      (.ok (), ⟨j.env, issued.filter Notice.isShadowed⟩) := by
    rw [Command.evaluateAll_eq_defineAll, ← Command.seenAll, hgo]
  refine ⟨⟨_, hevaluate, rfl, ?_⟩, fun hhidden =>
    ⟨⟨j.env, issued.filter Notice.isShadowed⟩, ?_, rfl⟩⟩
  · simp only [Journal.warnings, hissued, List.filter_map]
    rfl
  · rw [Command.evaluateAll_eq_defineAll, ← Command.definitions_of_hidden.2 cs room hhidden, hgo]

/-- A scene whose bodies share their variables. -/
def sampleScene : List Command := [
  .definition "x" (.ident "pi"),
  .invocation [.word "astro", .word "Sun", .block [
    .property "radius" (.expr (.ident "x")),
    .invocation [.word "astro", .word "Moon", .block [
      .definition "y" (.ident "x"),
      .property "omega" (.expr (.ident "y")),
      .definition "pi" (.ident "y")]],
    .property "radius" (.expr (.ident "y")),
    .property "radius" (.text "large"),
    .invocation [.word "note", .block [.property "radius" (.text "none")]]]]]

theorem loadAll_agrees_with_evaluateAll_sample : ∃ bodies j k,
    (Body.loadAll none sampleScene).go {} = (.ok bodies, j) ∧
    Command.hiddenAll sampleScene = [] ∧
    (Command.evaluateAll none sampleScene).go {} = (.ok (), k) ∧ k.env = j.env := by
  obtain ⟨k, hk, henv⟩ :=
    (loadAll_agrees_with_evaluateAll none sampleScene .standard .empty _ _ rfl).2 rfl
  exact ⟨_, _, k, rfl, rfl, hk, henv⟩

end Planetarium
