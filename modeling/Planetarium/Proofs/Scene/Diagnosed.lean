import Planetarium.Proofs.Scene.Noninterference

/-!
# What a scene is warned about

Loading a scene visits the commands of a document and those in the blocks of its declarations, and
no others.  `Command.visitsAll` lists what is visited, in order, each command with the body around
it.  What a visit is worth is said of the visit alone (`Visit.warnings`): a definition of a builtin
constant, a property that a body does not have, a value of the wrong kind.  Without a policy the
warnings are these, one visit after another, whatever the variables are.

A property that is ignored could as well not be there.  `Thinned` takes any number of them out of a
document, and the pass does the same to the variables and makes the same bodies.
-/
namespace Planetarium
open Text Pass

/-! ## Visits -/

/-- A command that is visited, and the body whose block it stands in. -/
structure Visit where
  body : Option String
  command : Command

mutual
/-- What loading a command visits: the command, and the block of a declaration. -/
def Command.visits (body : Option String) : Command → List Visit
  | .invocation (.word first :: .word name :: .block commands :: rest) =>
    ⟨body, .invocation (.word first :: .word name :: .block commands :: rest)⟩ ::
      if first = declarationWord then Command.visitsAll (some name) commands else []
  | c => [⟨body, c⟩]

/-- What loading some commands visits, in order. -/
def Command.visitsAll (body : Option String) : List Command → List Visit
  | [] => []
  | c :: cs => c.visits body ++ Command.visitsAll body cs
end

/-- The names of the properties that are numbers. -/
def numericNames : List String := Quantity.all.map Quantity.name

/-- The value is of the kind that a body has under the name. -/
def PropertyValue.suits (name : String) : PropertyValue → Bool
  | .expr _ => name ∈ numericNames
  | .text _ => name = textureName
  | .stray _ => false

/-- What a body is warned about at a property with a value that does not suit. -/
def misfit (body name : String) : Warning :=
  if name ∈ numericNames then
    ⟨.wrongKind, "astro " ++ quoted body ++ ": property " ++ quoted name ++
      " expects a number, got a string"⟩
  else if name = textureName then
    ⟨.wrongKind, "astro " ++ quoted body ++ ": property " ++ quoted name ++
      " expects a quoted string"⟩
  else
    ⟨.unknownProperty, "astro " ++ quoted body ++ ": unknown property " ++ quoted name⟩

namespace Visit

/-- What a visit is warned about.  Nobody looks at the properties outside bodies. -/
def warnings : Visit → List Warning
  | ⟨_, .definition name e⟩ =>
    let d : Definition := { name, expr := e }
    if d.shadows then [d.warning] else []
  | ⟨some body, .property name value⟩ => if value.suits name then [] else [misfit body name]
  | _ => []

/-- The visit is of a property without effect: there is no body, or the value does not suit. -/
def isIgnored : Visit → Bool
  | ⟨none, .property _ _⟩ => true
  | ⟨some _, .property name value⟩ => !value.suits name
  | _ => false

end Visit

/-- What loading some commands in the block of a body, or outside bodies, is warned about. -/
def Command.warningsAll (body : Option String) (cs : List Command) : List Warning :=
  (Command.visitsAll body cs).flatMap Visit.warnings

@[simp] theorem Command.warningsAll_nil (body : Option String) :
    Command.warningsAll body [] = [] := rfl

@[simp] theorem Command.warningsAll_cons (body : Option String) (c : Command) (cs : List Command) :
    Command.warningsAll body (c :: cs) =
      (c.visits body).flatMap Visit.warnings ++ Command.warningsAll body cs := by
  simp [Command.warningsAll, Command.visitsAll]

theorem Command.warnings_visits_declaration (body : Option String) (name : String)
    (block : List Command) (rest : List Arg) :
    ((Command.invocation (.word declarationWord :: .word name :: .block block ::
      rest)).visits body).flatMap Visit.warnings = Command.warningsAll (some name) block := by
  rw [Command.visits, if_pos rfl]
  rfl

/-- Of a definition there is the same to say in every room. -/
theorem Command.warnings_visits_definition (body : Option String) (d : Definition) :
    ((Command.definition d.name d.expr).visits body).flatMap Visit.warnings =
      if d.shadows then [d.warning] else [] := by
  rw [Command.visits, List.flatMap_cons, List.flatMap_nil, List.append_nil]
  · rfl
  · simp

/-- Of what is neither a declaration nor a definition there is nothing to say, properties apart. -/
theorem Command.warnings_visits_other {body : Option String} {c : Command}
    (h : ∀ name block rest,
      c ≠ .invocation (.word declarationWord :: .word name :: .block block :: rest))
    (hdefinition : ∀ name e, c ≠ .definition name e)
    (hproperty : ∀ name value, body ≠ none → c ≠ .property name value) :
    (c.visits body).flatMap Visit.warnings = [] := by
  have hself : Visit.warnings ⟨body, c⟩ = [] := by
    cases c with
    | definition name e => exact absurd rfl (hdefinition name e)
    | property name value =>
      cases body with
      | none => rfl
      | some body => exact absurd rfl (hproperty name value (by simp))
    | invocation _ | stray _ => cases body <;> rfl
  unfold Command.visits
  split
  · rename_i first name block rest
    rw [if_neg fun hfirst => h name block rest (by rw [hfirst]), List.flatMap_cons, hself]
    rfl
  · rw [List.flatMap_cons, hself]
    rfl

/-! ## What a pass issues -/

namespace Pass
variable {α β : Type} {xs ys : List Warning}

/-- Where the step succeeds, it has issued these warnings. -/
def Issues (step : Pass α) (ws : List Warning) : Prop :=
  ∀ j a k, step.go j = (.ok a, k) → k.warnings = j.warnings ++ ws

theorem issues_pure (a : α) : Issues (pure a : Pass α) [] := fun j b k h => by
  obtain ⟨-, rfl⟩ : a = b ∧ j = k := by simpa using h
  exact (List.append_nil _).symm

theorem issues_throw (f : Failure) (ws : List Warning) : Issues (throw f : Pass α) ws :=
  fun j b k h => by cases (Prod.mk.inj h).1

theorem issues_value (e : Expr) (room : Room) : Issues (value e room) [] := fun j x k h => by
  obtain ⟨-, rfl⟩ := go_value_eq_ok.mp h
  exact (List.append_nil _).symm

theorem go_emit_none (w : Warning) (j : Journal) :
    (emit none w).go j = (.ok (), { j with notices := j.notices ++ [⟨w, j.env⟩] }) := rfl

theorem issues_emit (w : Warning) : Issues (emit none w) [w] := fun j u k h => by
  rw [go_emit_none] at h
  obtain rfl := (Prod.mk.inj h).2
  simp [Journal.warnings]

/-- Two steps in a row issue the warnings of the first one and then those of the second one. -/
theorem Issues.bind {step : Pass α} {next : α → Pass β} (h : Issues step xs)
    (hnext : ∀ j a k, step.go j = (.ok a, k) → Issues (next a) ys) :
    Issues (step >>= next) (xs ++ ys) := by
  intro j b k hgo
  obtain ⟨a, i, hstep, hgo⟩ := go_bind_eq_ok.mp hgo
  rw [hnext j a i hstep i b k hgo, h j a i hstep, List.append_assoc]

theorem Issues.map {step : Pass α} (h : Issues step xs) (f : α → β) : Issues (f <$> step) xs := by
  rw [map_eq_pure_bind]
  simpa using h.bind fun _ a _ _ => issues_pure (f a)

/-- A definition warns if it shadows a constant. -/
theorem issues_define (d : Definition) :
    Issues (define none d.name d.expr d.room) (if d.shadows then [d.warning] else []) := by
  intro j x k h
  rcases define_cases none d j with ⟨f, -, hgo⟩ | ⟨y, -, -, hgo⟩
  · rw [hgo] at h
    cases (Prod.mk.inj h).1
  · rw [hgo] at h
    obtain rfl := (Prod.mk.inj h).2
    have hissued : d.issued none = if d.shadows then [d.warning] else [] := by
      simp [Definition.issued, verdict]
    rw [← hissued, ← Journal.warnings_announce]
    rfl

end Pass

namespace Body
variable {b : Body} {name : String} {value : PropertyValue} {room : Room}

theorem named?_eq_none (h : name ∉ numericNames) : Quantity.named? name = none := by
  cases hq : Quantity.named? name with
  | none => rfl
  | some q =>
    obtain rfl := Quantity.name_of_named? hq
    exact absurd (List.mem_map_of_mem (by cases q <;> decide)) h

/-- The values that suit: expressions for the numbers, and a text for the texture. -/
theorem cases_of_suits (h : value.suits name) :
    (∃ (q : Quantity) (e : Expr), name = q.name ∧ value = .expr e) ∨
      ∃ file, name = textureName ∧ value = .text file := by
  cases value with
  | expr e =>
    obtain ⟨q, -, hq⟩ := List.mem_map.mp (of_decide_eq_true h)
    exact .inl ⟨q, e, hq.symm, rfl⟩
  | text file => exact .inr ⟨file, of_decide_eq_true h, rfl⟩
  | stray _ => cases h

theorem assign_number (policy : Option Policy) (b : Body) (q : Quantity) (e : Expr) :
    b.assign policy q.name (.expr e) room =
      do let x ← Pass.value e (room.below 1); return b.set q x := by
  simp only [assign, Quantity.named?_name]

theorem assign_texture (policy : Option Policy) (b : Body) (file : String) :
    b.assign policy textureName (.text file) room = pure { b with texture := some file } := rfl

/-- A property whose value does not suit is worth its warning and nothing else. -/
theorem assign_of_not_suits (h : ¬ value.suits name) :
    b.assign none name value room = do emit none (misfit b.name name); return b := by
  by_cases hnumeric : name ∈ numericNames
  · obtain ⟨q, -, rfl⟩ := List.mem_map.mp hnumeric
    cases value with
    | expr e => exact absurd (decide_eq_true hnumeric) h
    | text _ | stray _ => simp only [assign, Quantity.named?_name, misfit, if_pos hnumeric]
  · have hq := named?_eq_none hnumeric
    by_cases htexture : name = textureName
    · cases value with
      | text _ => exact absurd (decide_eq_true htexture) h
      | expr _ | stray _ =>
        simp only [assign, hq, misfit, if_neg hnumeric, if_pos htexture]
    · simp only [assign, hq, misfit, if_neg hnumeric, if_neg htexture]

/-- A property warns just if its visit does. -/
theorem issues_assign (b : Body) (name : String) (value : PropertyValue) :
    Issues (b.assign none name value room)
      (Visit.warnings ⟨some b.name, .property name value⟩) := by
  by_cases hsuits : value.suits name
  · rw [Visit.warnings, if_pos hsuits]
    rcases cases_of_suits hsuits with ⟨q, e, rfl, rfl⟩ | ⟨file, rfl, rfl⟩
    · rw [assign_number]
      exact (issues_value e _).bind fun _ x _ _ => issues_pure (b.set q x)
    · exact issues_pure _
  · rw [Visit.warnings, if_neg hsuits, assign_of_not_suits hsuits]
    exact (issues_emit _).bind fun _ _ _ _ => issues_pure b

/-- A property does not rename the body. -/
theorem name_of_assign {j k : Journal} {b' : Body}
    (h : (b.assign none name value room).go j = (.ok b', k)) : b'.name = b.name := by
  by_cases hsuits : value.suits name
  · rcases cases_of_suits hsuits with ⟨q, e, rfl, rfl⟩ | ⟨file, rfl, rfl⟩
    · rw [assign_number, go_bind_eq_ok] at h
      obtain ⟨x, i, -, h⟩ := h
      obtain ⟨rfl, -⟩ : b.set q x = b' ∧ i = k := by simpa using h
      exact name_set b q x
    · rw [assign_texture] at h
      obtain rfl : { b with texture := some file } = b' := by simpa using (Prod.mk.inj h).1
      rfl
  · rw [assign_of_not_suits hsuits, go_bind_eq_ok] at h
    obtain ⟨-, i, -, h⟩ := h
    obtain ⟨rfl, -⟩ : b = b' ∧ i = k := by simpa using h
    rfl

/-- Loading a body and filling one call each other. -/
theorem issues_load?_fill :
    (∀ c room, (∀ name e, c ≠ .definition name e) → (∀ name value, c ≠ .property name value) →
      ∀ body, Issues (load? none c room) ((c.visits body).flatMap Visit.warnings)) ∧
    ∀ b cs room, Issues (fill none b cs room) (Command.warningsAll (some b.name) cs) := by
  have hall := load_induction
    (P := fun c room => (∀ name e, c ≠ .definition name e) →
      (∀ name value, c ≠ .property name value) →
      ∀ body, Issues (load? none c room) ((c.visits body).flatMap Visit.warnings))
    (Q := fun b cs room => Issues (fill none b cs room) (Command.warningsAll (some b.name) cs))
  refine hall ?declaration ?other ?nil ?definition ?property ?command
  case declaration =>
    intro room name block rest ih _ _ body
    rw [Command.warnings_visits_declaration, load?_declaration]
    exact ih.map some
  case other =>
    intro c room hc hdefinition hproperty body
    rw [Command.warnings_visits_other hc hdefinition fun _ _ _ => hproperty _ _]
    rcases load?_other room hc with ⟨-, hload⟩ | ⟨reason, hload⟩
    · rw [hload]
      exact issues_pure none
    · rw [hload]
      exact issues_throw (.declaration reason) _
  case nil =>
    intro b room
    rw [fill_nil]
    exact issues_pure b
  case definition =>
    intro b room name e rest ih
    rw [fill_definition, Command.warningsAll_cons]
    refine Issues.bind ?_ fun _ _ _ _ => ih
    rw [Command.warnings_visits_definition _ ⟨name, e, room.below 2⟩]
    exact issues_define ⟨name, e, room.below 2⟩
  case property =>
    intro b room name value rest ih
    rw [fill_property, Command.warningsAll_cons]
    refine Issues.bind ?_ fun j b' k hgo => name_of_assign hgo ▸ ih b'
    simpa [Command.visits] using issues_assign b name value
  case command =>
    intro b room c rest hdefinition hproperty ihc ih
    rw [fill_command _ _ _ _ hdefinition hproperty, Command.warningsAll_cons]
    exact (ihc hdefinition hproperty (some b.name)).bind fun _ child _ _ =>
      name_withChild b child ▸ ih child

theorem issues_visit (name : String) (e : Expr) :
    Issues (visit none (.definition name e) room)
      (((Command.definition name e).visits none).flatMap Visit.warnings) := by
  rw [Command.warnings_visits_definition _ ⟨name, e, room.below 1⟩]
  exact (issues_define ⟨name, e, room.below 1⟩).map fun _ => ()

/-- A definition is applied when it is visited, anything else when it is loaded. -/
theorem issues_visit_load? (c : Command) :
    Issues (do visit none c room; load? none c room) ((c.visits none).flatMap Visit.warnings) := by
  cases c with
  | definition name e =>
    rw [← List.append_nil (List.flatMap _ _)]
    exact (issues_visit name e).bind fun _ _ _ _ => issues_pure none
  | property name value => exact issues_pure none
  | invocation args => exact issues_load?_fill.1 (.invocation args) room (by simp) (by simp) none
  | stray word => exact issues_pure none

/-- **Loading a scene issues the warnings of its visits.** -/
theorem issues_loadAll (cs : List Command) (room : Room) :
    Issues (loadAll none cs room) (Command.warningsAll none cs) := by
  induction cs with
  | nil => exact issues_pure []
  | cons c cs ih =>
    have hrest : ∀ body : Option Body, Issues
        (do let bodies ← loadAll none cs room; return body.toList ++ bodies)
        (Command.warningsAll none cs) := fun body => by
      simpa using ih.bind fun _ bodies _ _ => issues_pure (body.toList ++ bodies)
    simpa only [loadAll, bind_assoc, Command.warningsAll_cons] using
      (issues_visit_load? c).bind fun _ body _ _ => hrest body

end Body

/-! ## Ignored properties -/

/-- Some properties without effect are left out of commands, or out of the blocks of declarations
among them. -/
inductive Thinned : Option String → List Command → List Command → Prop
  | nil {body : Option String} : Thinned body [] []
  | keep {body : Option String} {c : Command} {cs cs' : List Command} :
      Thinned body cs cs' → Thinned body (c :: cs) (c :: cs')
  | leaveOut {body : Option String} {name : String} {value : PropertyValue}
      {cs cs' : List Command} :
      Visit.isIgnored ⟨body, .property name value⟩ → Thinned body cs cs' →
      Thinned body (.property name value :: cs) cs'
  | inside {body : Option String} {name : String} {block block' : List Command} {rest : List Arg}
      {cs cs' : List Command} :
      Thinned (some name) block block' → Thinned body cs cs' →
      Thinned body
        (.invocation (.word declarationWord :: .word name :: .block block :: rest) :: cs)
        (.invocation (.word declarationWord :: .word name :: .block block' :: rest) :: cs')

namespace Pass
variable {α β : Type} {policy : Option Policy}

/-- From the same variables both steps give the same and leave the same variables, whatever they
issue. -/
def Tantamount (step step' : Pass α) : Prop :=
  ∀ j j' : Journal, j.env = j'.env →
    (step.go j).1 = (step'.go j').1 ∧ (step.go j).2.env = (step'.go j').2.env

/-- No step of a pass looks at what was issued before. -/
theorem Indifferent.tantamount {step : Pass α} {reads defined : List String}
    (h : Indifferent reads step defined) : Tantamount step step := by
  intro j j' henv
  obtain ⟨hresult, -, bs, hbs, hbs', -⟩ := h j j' fun name _ _ => by rw [henv]
  exact ⟨hresult, by rw [hbs, hbs', henv]⟩

theorem tantamount_pure (a : α) : Tantamount (pure a : Pass α) (pure a) :=
  fun _ _ henv => ⟨rfl, henv⟩

theorem Tantamount.bind {step step' : Pass α} {next next' : α → Pass β}
    (h : Tantamount step step') (hnext : ∀ a, Tantamount (next a) (next' a)) :
    Tantamount (step >>= next) (step' >>= next') := by
  intro j j' henv
  obtain ⟨hresult, hleft⟩ := h j j' henv
  rw [go_bind, go_bind]
  rcases hgo : step.go j with ⟨r, i⟩
  rcases hgo' : step'.go j' with ⟨r', i'⟩
  simp only [hgo, hgo'] at hresult hleft
  subst hresult
  cases r with
  | error f => exact ⟨rfl, hleft⟩
  | ok a => exact hnext a i i' hleft

theorem Tantamount.map {step step' : Pass α} (h : Tantamount step step') (f : α → β) :
    Tantamount (f <$> step) (f <$> step') := by
  rw [map_eq_pure_bind, map_eq_pure_bind]
  exact h.bind fun a => tantamount_pure (f a)

end Pass

namespace Body
variable {room : Room}

/-- A property whose value does not suit leaves the body as it is. -/
theorem tantamount_assign {name : String} {value : PropertyValue} (h : ¬ value.suits name)
    (b : Body) : Tantamount (b.assign none name value room) (pure b) := by
  rw [assign_of_not_suits h]
  intro j j' henv
  rw [go_bind, go_emit_none]
  exact ⟨rfl, henv⟩

theorem tantamount_define (name : String) (e : Expr) :
    Tantamount (define none name e room) (define none name e room) :=
  (indifferent_define (List.Subset.refl e.idents) room).tantamount

theorem tantamount_load? {c : Command} (h : ∀ name e, c ≠ .definition name e) :
    Tantamount (load? none c (room.below 1)) (load? none c (room.below 1)) :=
  (indifferent_load?_fill.1 c _ h room rfl (List.Subset.refl c.idents)).tantamount

theorem tantamount_load?_inside {name : String} {block block' : List Command} (rest : List Arg)
    (h : ∀ b, Tantamount (fill none b block room) (fill none b block' room)) :
    Tantamount
      (load? none (.invocation (.word declarationWord :: .word name :: .block block :: rest)) room)
      (load? none (.invocation (.word declarationWord :: .word name :: .block block' :: rest))
        room) := by
  simp only [load?, if_true]
  exact (h _).map some

/-- A block that is thinned out comes to the same. -/
theorem tantamount_fill {body : Option String} {cs cs' : List Command} (h : Thinned body cs cs')
    (hbody : body ≠ none) (b : Body) :
    Tantamount (fill none b cs room) (fill none b cs' room) := by
  induction h generalizing b room with
  | nil =>
    simp only [fill]
    exact tantamount_pure b
  | @keep _ c _ _ _ ih =>
    cases c with
    | definition name e =>
      simp only [fill]
      exact (tantamount_define name e).bind fun _ => ih hbody b
    | property name value =>
      simp only [fill]
      exact (indifferent_assign b name (List.Subset.refl value.idents) _).tantamount.bind
        fun b => ih hbody b
    | invocation _ | stray _ =>
      simp only [fill]
      refine (tantamount_load? (by simp)).bind fun child => ?_
      cases child with
      | some child => exact ih hbody (b.addChild child)
      | none => exact ih hbody b
  | @leaveOut body name value cs cs' hignored _ ih =>
    obtain ⟨outer, rfl⟩ := Option.ne_none_iff_exists'.mp hbody
    simp only [fill]
    have hsuits : ¬ value.suits name := by simpa [Visit.isIgnored] using hignored
    simpa using (tantamount_assign hsuits b).bind fun b => ih hbody b
  | @inside _ name block block' rest cs cs' _ _ ihblock ih =>
    simp only [fill]
    refine (tantamount_load?_inside rest (ihblock (by simp))).bind fun child => ?_
    cases child with
    | some child => exact ih hbody (b.addChild child)
    | none => exact ih hbody b

/-- A document that is thinned out comes to the same. -/
theorem tantamount_loadAll {cs cs' : List Command} (h : Thinned none cs cs') :
    Tantamount (loadAll none cs room) (loadAll none cs' room) := by
  generalize hbody : (none : Option String) = body at h
  induction h with
  | nil => exact tantamount_pure []
  | @keep _ c _ _ _ ih =>
    simp only [loadAll, ← bind_assoc]
    exact (indifferent_visit_load? (List.Subset.refl c.idents) room).tantamount.bind fun body =>
      (ih hbody).bind fun bodies => tantamount_pure (body.toList ++ bodies)
  | @leaveOut _ name value cs cs' _ _ ih =>
    have hskip : loadAll none (.property name value :: cs) room = loadAll none cs room := by
      simp [loadAll, visit, load?, Command.declaration?]
    rw [hskip]
    exact ih hbody
  | @inside _ name block block' rest cs cs' hblock _ _ ih =>
    simp only [loadAll, visit, pure_bind]
    exact (tantamount_load?_inside rest (tantamount_fill hblock (by simp))).bind fun body =>
      (ih hbody).bind fun bodies => tantamount_pure (body.toList ++ bodies)

end Body

/-- **A scene is warned about what it visits and about nothing else.**  The warnings of a pass that
succeeds are those of its visits, in order; the variables have no say in them; and where properties
without effect are left out, the pass makes the same bodies and leaves the same variables. -/
theorem diagnostics_exact (cs : List Command) (room : Room) (env : Environment)
    (bodies : List Body) (j : Journal)
    (h : (Body.loadAll none cs room).go { env } = (.ok bodies, j)) :
    j.warnings = (Command.visitsAll none cs).flatMap Visit.warnings ∧
    (∀ room' env' bodies' j', (Body.loadAll none cs room').go { env := env' } = (.ok bodies', j') →
      j'.warnings = j.warnings) ∧
    ∀ cs', Thinned none cs cs' → ∃ j', (Body.loadAll none cs' room).go { env } = (.ok bodies, j') ∧
      j'.env = j.env ∧
      j'.warnings = (Command.visitsAll none cs').flatMap Visit.warnings := by
  have hissued : ∀ cs room env bodies j, (Body.loadAll none cs room).go { env } = (.ok bodies, j) →
      j.warnings = Command.warningsAll none cs := fun cs room env bodies j h => by
    simpa [Journal.warnings] using Body.issues_loadAll cs room { env } bodies j h
  refine ⟨hissued cs room env bodies j h, fun room' env' bodies' j' h' => ?_, fun cs' hthin => ?_⟩
  · rw [hissued cs room env bodies j h, hissued cs room' env' bodies' j' h']
  · obtain ⟨hresult, henv⟩ := Body.tantamount_loadAll hthin { env } { env } rfl
    rw [h] at hresult henv
    have hgo : (Body.loadAll none cs' room).go { env } =
        (.ok bodies, ((Body.loadAll none cs' room).go { env }).2) := Prod.ext hresult.symm rfl
    exact ⟨_, hgo, henv.symm, hissued cs' room env bodies _ hgo⟩

/-- A scene with something to say about most of its commands. -/
def mixedScene : List Command := [
  .property "color" (.text "red"),
  .invocation [.word "astro", .word "Sun", .block [
    .property "texture" (.text "sun.jpg"),
    .invocation [.word "astro", .word "Moon", .block [
      .property "color" (.text "grey"),
      .property "radius" (.text "small")]],
    .property "texture" (.expr (.ident "pi")),
    .definition "pi" (.ident "pi")]],
  .invocation [.word "note", .block [.property "color" (.text "red")]]]

/-- The scene without its ignored properties. -/
def plainScene : List Command := [
  .invocation [.word "astro", .word "Sun", .block [
    .property "texture" (.text "sun.jpg"),
    .invocation [.word "astro", .word "Moon", .block []],
    .definition "pi" (.ident "pi")]],
  .invocation [.word "note", .block [.property "color" (.text "red")]]]

theorem thinned_mixedScene : Thinned none mixedScene plainScene :=
  .leaveOut rfl (.inside (.keep (.inside (.leaveOut (by decide) (.leaveOut (by decide) .nil))
    (.leaveOut (by decide) (.keep .nil)))) (.keep .nil))

theorem diagnostics_exact_sample : ∃ bodies j j',
    (Body.loadAll none mixedScene).go {} = (.ok bodies, j) ∧
    j.warnings = [misfit "Moon" "color", misfit "Moon" "radius", misfit "Sun" "texture",
      ({ name := "pi", expr := .ident "pi" } : Definition).warning] ∧
    (Body.loadAll none plainScene).go {} = (.ok bodies, j') ∧
    j'.warnings = [({ name := "pi", expr := .ident "pi" } : Definition).warning] := by
  obtain ⟨hwarnings, -, hthin⟩ := diagnostics_exact mixedScene .standard .empty _ _ rfl
  obtain ⟨j', hgo, -, hwarnings'⟩ := hthin plainScene thinned_mixedScene
  exact ⟨_, _, j', rfl, hwarnings, hgo, hwarnings'⟩

end Planetarium
