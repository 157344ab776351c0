import Planetarium.Proofs.Scene.Visible

/-!
# What a scene means

The bodies of a scene are described without running anything: there is one for each declaration, in
order, and a quantity of a body has the value of the last expression that its block sets it to.
What an expression is worth depends on the definitions that stand before it in the text, in blocks
of declarations or outside, and on nothing after it (`Tree`, `Forest`).

That this is what loading a scene gives is an induction along the loading itself.  It carries the
definitions met so far, and says of the variables only that they are those after these definitions
(`Applies.variablesAfter`).

Blocks take room, so a property deep inside has less of it than whoever loads the scene.  Of what
has a value there this makes no difference, and so all values are those in the room of the caller,
or in any wider one.
-/
namespace Planetarium
open Pass

/-- The last expression that some commands set a quantity to, and the commands before it. -/
def LastSet (q : Quantity) (commands before : List Command) (e : Expr) : Prop :=
  ∃ after, commands = before ++ .property q.name (.expr e) :: after ∧
    ∀ e', .property q.name (.expr e') ∉ after

/-- The command begins with the word of declarations. -/
def Command.declares : Command → Bool
  | .invocation (.word first :: _) => first = declarationWord
  | _ => false

/-- The definitions that are seen of some commands, all applied in the same room. -/
def Command.seenIn (room : Room) (cs : List Command) : List Definition :=
  (Command.seenAll cs room).map (·.inRoom room)

section SeenIn
variable {room : Room}

@[simp] theorem Command.seenIn_nil : Command.seenIn room [] = [] := rfl

/-- What is seen in two lists is seen in one after the other. -/
theorem Command.seenIn_append (xs ys : List Command) :
    Command.seenIn room (xs ++ ys) = Command.seenIn room xs ++ Command.seenIn room ys := by
  rw [seenIn, seenAll_append, List.map_append, seenIn, seenIn]

theorem Command.seenIn_cons (c : Command) (cs : List Command) :
    Command.seenIn room (c :: cs) = Command.seenIn room [c] ++ Command.seenIn room cs :=
  Command.seenIn_append [c] cs

/-- Of a declaration one sees the definitions in its block. -/
theorem Command.seenIn_declaration (name : String) (block : List Command) (rest : List Arg) :
    Command.seenIn room
      [.invocation (.word declarationWord :: .word name :: .block block :: rest)] =
    Command.seenIn room block := by
  rw [seenIn, seenAll_cons, definitions_visible_declaration, seenAll_nil, List.append_nil]
  exact map_inRoom_definitionsAll room _ _ _

end SeenIn

mutual
/-- The body that a name and a block stand for after the definitions `earlier`.  A quantity has
the value of the last expression that it is set to, with the variables of that place, and without
one it has the value it has in every new body.  Definitions and expressions have the values that
they have in `room`. -/
inductive Tree (env : Environment) (room : Room) :
    List Definition → String → List Command → Body → Prop
  | body {earlier : List Definition} {name : String} {block : List Command} {b : Body} :
    b.name = name →
    (∀ q before e, LastSet q block before e →
      ∃ rho, variablesAfter env (earlier ++ Command.seenIn room before) = .ok rho ∧
        e.evaluate rho room = .ok (b.get q)) →
    (∀ q, (∀ e, .property q.name (.expr e) ∉ block) → b.get q = ({ name } : Body).get q) →
    Forest env room earlier block b.children →
    Tree env room earlier name block b

/-- The bodies that some commands stand for after the definitions `earlier`: one for each
declaration, in order. -/
inductive Forest (env : Environment) (room : Room) :
    List Definition → List Command → List Body → Prop
  | nil {earlier : List Definition} : Forest env room earlier [] []
  | declaration {earlier : List Definition} {name : String} {block : List Command}
      {rest : List Arg} {cs : List Command} {b : Body} {bs : List Body} :
    Tree env room earlier name block b →
    Forest env room (earlier ++ Command.seenIn room block) cs bs →
    Forest env room earlier
      (.invocation (.word declarationWord :: .word name :: .block block :: rest) :: cs) (b :: bs)
  | other {earlier : List Definition} {c : Command} {cs : List Command} {bs : List Body} :
    c.declares = false →
    Forest env room (earlier ++ Command.seenIn room [c]) cs bs →
    Forest env room earlier (c :: cs) bs
end

variable {env rho : Environment} {room wide : Room} {earlier : List Definition} {c : Command}
  {cs : List Command} {q : Quantity} {e : Expr} {before : List Command}

theorem lastSet_cons : LastSet q (c :: cs) before e ↔
    (before = [] ∧ c = .property q.name (.expr e) ∧ ∀ e', .property q.name (.expr e') ∉ cs) ∨
    ∃ tail, before = c :: tail ∧ LastSet q cs tail e := by
  constructor
  · rintro ⟨after, hcs, hlast⟩
    cases before with
    | nil =>
      obtain ⟨rfl, rfl⟩ := List.cons.inj hcs
      exact .inl ⟨rfl, rfl, hlast⟩
    | cons d tail =>
      obtain ⟨rfl, rfl⟩ := List.cons.inj hcs
      exact .inr ⟨tail, rfl, after, rfl, hlast⟩
  · rintro (⟨rfl, rfl, hlast⟩ | ⟨tail, rfl, after, rfl, hlast⟩)
    · exact ⟨cs, rfl, hlast⟩
    · exact ⟨after, rfl, hlast⟩

theorem not_lastSet_nil : ¬ LastSet q [] before e := by
  rintro ⟨after, hcs, -⟩
  simp at hcs

/-- What a command that has been loaded stands for: a body, or nothing. -/
inductive Declared (env : Environment) (room : Room) (earlier : List Definition) :
    Command → Option Body → Prop
  | body {name : String} {block : List Command} {rest : List Arg} {b : Body} :
    Tree env room earlier name block b →
    Declared env room earlier
      (.invocation (.word declarationWord :: .word name :: .block block :: rest)) (some b)
  | other {c : Command} : c.declares = false → Declared env room earlier c none

theorem Declared.forest {r : Option Body} {bs : List Body} (h : Declared env room earlier c r)
    (hs : Forest env room (earlier ++ Command.seenIn room [c]) cs bs) :
    Forest env room earlier (c :: cs) (r.toList ++ bs) := by
  cases h with
  | body htree =>
    rw [Command.seenIn_declaration] at hs
    exact .declaration htree hs
  | other hc => exact .other hc hs

/-- What the commands of a block make of a body. -/
structure Filled (env : Environment) (room : Room) (earlier : List Definition) (b : Body)
    (cs : List Command) (b' : Body) : Prop where
  name : b'.name = b.name
  set : ∀ q before e, LastSet q cs before e →
    ∃ rho, variablesAfter env (earlier ++ Command.seenIn room before) = .ok rho ∧
      e.evaluate rho room = .ok (b'.get q)
  kept : ∀ q, (∀ e, .property q.name (.expr e) ∉ cs) → b'.get q = b.get q
  children : ∃ more, b'.children = b.children ++ more ∧ Forest env room earlier cs more

theorem Filled.nil (b : Body) : Filled env room earlier b [] b :=
  ⟨rfl, fun _ _ _ h => absurd h not_lastSet_nil, fun _ _ => rfl, [], by simp, .nil⟩

theorem Filled.cons {b b₁ b' : Body} {new : List Body}
    (h : Filled env room (earlier ++ Command.seenIn room [c]) b₁ cs b') (hname : b₁.name = b.name)
    (hset : ∀ q e, c = .property q.name (.expr e) →
      ∃ rho, variablesAfter env earlier = .ok rho ∧ e.evaluate rho room = .ok (b₁.get q))
    (hkept : ∀ q, (∀ e, c ≠ .property q.name (.expr e)) → b₁.get q = b.get q)
    (hchildren : b₁.children = b.children ++ new)
    (hforest : ∀ bs, Forest env room (earlier ++ Command.seenIn room [c]) cs bs →
      Forest env room earlier (c :: cs) (new ++ bs)) : Filled env room earlier b (c :: cs) b' := by
  refine ⟨h.name.trans hname, fun q before e hlast => ?_, fun q hno => ?_, ?_⟩
  · rcases lastSet_cons.mp hlast with ⟨rfl, rfl, hno⟩ | ⟨tail, rfl, htail⟩
    · rw [h.kept q hno, Command.seenIn_nil, List.append_nil]
      exact hset q e rfl
    · rw [Command.seenIn_cons, ← List.append_assoc]
      exact h.set q tail e htail
  · simp only [List.mem_cons, not_or] at hno
    rw [h.kept q fun e => (hno e).2, hkept q fun e => Ne.symm (hno e).1]
  · obtain ⟨more, hmore, hs⟩ := h.children
    exact ⟨new ++ more, by rw [hmore, hchildren, List.append_assoc], hforest more hs⟩

namespace Body
variable {policy : Option Policy}

/-- What a property makes of a body: a quantity takes the value of its expression, or none
changes. -/
structure Assigned (env : Environment) (room : Room) (b : Body) (key : String) (v : PropertyValue)
    (b' : Body) : Prop where
  name : b'.name = b.name
  children : b'.children = b.children
  set : ∀ (q : Quantity) e, key = q.name → v = .expr e → e.evaluate env room = .ok (b'.get q)
  kept : ∀ q : Quantity, (∀ e, key = q.name → v ≠ .expr e) → b'.get q = b.get q

theorem Assigned.unchanged {b b' : Body} {key : String} {v : PropertyValue}
    (hno : ∀ (q : Quantity) e, key = q.name → v ≠ .expr e) (hname : b'.name = b.name)
    (hchildren : b'.children = b.children) (hget : ∀ q, b'.get q = b.get q) :
    Assigned env room b key v b' :=
  ⟨hname, hchildren, fun q e hq hv => absurd hv (hno q e hq), fun q _ => hget q⟩

theorem Assigned.warned {w : Warning} {b b' : Body} {key : String} {v : PropertyValue}
    {j k : Journal} (hno : ∀ (q : Quantity) e, key = q.name → v ≠ .expr e)
    (h : (do Pass.emit policy w; return b : Pass Body).go j = (.ok b', k)) :
    Assigned env room b key v b' := by
  obtain ⟨_, i, -, hpure⟩ := go_bind_eq_ok.mp h
  obtain ⟨rfl, -⟩ : b = b' ∧ i = k := by simpa using hpure
  exact .unchanged hno rfl rfl fun _ => rfl

/-- A property that is set on a body is assigned to it. -/
theorem assigned_of_assign {b b' : Body} {key : String} {v : PropertyValue} {j k : Journal}
    (hwide : room.AtMost wide) (h : (b.assign policy key v room).go j = (.ok b', k)) :
    Assigned j.env wide b key v b' := by
  unfold assign at h
  split at h
  · -- a quantity and an expression for it
    rename_i p e hp
    obtain ⟨x, i, hvalue, hpure⟩ := go_bind_eq_ok.mp h
    obtain ⟨rfl, -⟩ : b.set p x = b' ∧ i = k := by simpa using hpure
    obtain rfl := Quantity.name_of_named? hp
    have hx := Expr.evaluate_widen hwide.below (go_value_eq_ok.mp hvalue).1
    refine ⟨name_set b p x, children_set b p x, fun q e' hq he' => ?_, fun q hno => ?_⟩
    · have hqp : q = p :=
        Option.some.inj ((Quantity.named?_name q).symm.trans (hq ▸ Quantity.named?_name p))
      cases he'
      rw [get_set, if_pos hqp, hx]
    · rw [get_set, if_neg]
      rintro rfl
      exact hno e rfl rfl
  · -- a quantity and something else
    rename_i p hp hv
    exact .warned (fun _ e _ he => hv e he) h
  · -- no quantity
    rename_i hnone
    have hno : ∀ q : Quantity, key ≠ q.name := by
      rintro q rfl
      rw [Quantity.named?_name] at hnone
      cases hnone
    split at h
    · split at h
      · rename_i file
        obtain ⟨rfl, -⟩ : { b with texture := some file } = b' ∧ j = k := by simpa using h
        exact .unchanged (fun q _ hq => absurd hq (hno q)) rfl rfl fun q => by cases q <;> rfl
      · exact .warned (fun q _ hq => absurd hq (hno q)) h
    · exact .warned (fun q _ hq => absurd hq (hno q)) h

theorem declares_of_declaration? (h : c.declaration? = .ok none) : c.declares = false := by
  unfold Command.declaration? at h
  split at h
  · split at h
    · split at h <;> cases h
    · simpa [Command.declares]
  · rename_i hother
    unfold Command.declares
    split
    · exact absurd rfl (hother _ _)
    · rfl

/-- A step that applies what is seen of a command leaves the variables that this leaves in a wider
room. -/
theorem variablesAfter_seen {α : Type} {step : Pass α} {a : α} {j k : Journal}
    (hwide : room.AtMost wide) (hj : variablesAfter env earlier = .ok j.env)
    (hstep : Applies policy step (c.visible.definitions room)) (hgo : step.go j = (.ok a, k)) :
    variablesAfter env (earlier ++ Command.seenIn wide [c]) = .ok k.env := by
  have hroom : ∀ d ∈ c.visible.definitions room, d.room.AtMost wide := fun d hd =>
    (Command.room_of_definitions c.visible room d hd).trans hwide
  have hk := hstep.variablesAfter hroom hgo
  rw [Command.map_inRoom_definitions wide c.visible room wide] at hk
  refine variablesAfter_append hj ?_
  rw [Command.seenIn, Command.seenAll_cons, Command.seenAll_nil, List.append_nil]
  exact hk

/-- In less room than `wide` the values are those in `wide`. -/
theorem means_load?_fill (wide : Room) :
    (∀ c below, (∀ name e, c ≠ .definition name e) → ∀ room : Room, below = room.below 1 →
      room.AtMost wide → ∀ env earlier j r k, variablesAfter env earlier = .ok j.env →
      (load? policy c below).go j = (.ok r, k) → Declared env wide earlier c r) ∧
    ∀ b cs room, room.AtMost wide → ∀ env earlier j b' k,
      variablesAfter env earlier = .ok j.env → (fill policy b cs room).go j = (.ok b', k) →
      Filled env wide earlier b cs b' := by
  have hall := load_induction
    (P := fun c below => (∀ name e, c ≠ .definition name e) → ∀ room : Room,
      below = room.below 1 → room.AtMost wide → ∀ env earlier j r k,
      variablesAfter env earlier = .ok j.env →
      (load? policy c below).go j = (.ok r, k) → Declared env wide earlier c r)
    (Q := fun b cs room => room.AtMost wide → ∀ env earlier j b' k,
      variablesAfter env earlier = .ok j.env → (fill policy b cs room).go j = (.ok b', k) →
      Filled env wide earlier b cs b')
  refine hall ?declaration ?other ?nil ?definition ?property ?command
  case declaration =>
    rintro below name block rest ih - room rfl hwide env earlier j r k hj h
    rw [load?_declaration, map_eq_pure_bind] at h
    obtain ⟨b, i, hfill, hpure⟩ := go_bind_eq_ok.mp h
    obtain ⟨rfl, rfl⟩ : some b = r ∧ i = k := by simpa using hpure
    have hfilled := ih hwide.below env earlier j b i hj hfill
    refine .body (.body hfilled.name hfilled.set hfilled.kept ?_)
    obtain ⟨more, hmore, hforest⟩ := hfilled.children
    rw [hmore]
    exact hforest
  case other =>
    intro c below hc _ room _ _ env earlier j r k hj h
    rcases load?_other below hc with ⟨hdeclaration, hload⟩ | ⟨reason, hload⟩
    · obtain ⟨rfl, rfl⟩ : none = r ∧ j = k := by simpa [hload] using h
      exact .other (declares_of_declaration? hdeclaration)
    · simp [hload] at h
  case nil =>
    intro b room _ env earlier j b' k hj h
    obtain ⟨rfl, rfl⟩ : b = b' ∧ j = k := by simpa [fill_nil] using h
    exact .nil b
  case definition =>
    intro b room name e rest ih hwide env earlier j b' k hj h
    rw [fill_definition] at h
    obtain ⟨x, i, hdefine, hfill⟩ := go_bind_eq_ok.mp h
    have hroom : ∀ d ∈ [Definition.mk name e (room.below 2)], d.room.AtMost wide := by
      simpa using hwide.below
    have hi := variablesAfter_append hj ((applies_define ⟨name, e, _⟩).variablesAfter hroom hdefine)
    have hfilled := ih hwide env (earlier ++ [⟨name, e, wide⟩]) i b' k hi hfill
    have hset : ∀ (q : Quantity) e', Command.definition name e = .property q.name (.expr e') →
        ∃ rho, variablesAfter env earlier = .ok rho ∧ e'.evaluate rho wide = .ok (b.get q) := by
      intro q e' hc
      cases hc
    exact Filled.cons hfilled rfl hset (fun _ _ => rfl) (List.append_nil _).symm
      fun _ hs => .other rfl hs
  case property =>
    intro b room name value rest ih hwide env earlier j b' k hj h
    rw [fill_property] at h
    obtain ⟨b₁, i, hassign, hfill⟩ := go_bind_eq_ok.mp h
    have hnone : ∀ d ∈ ([] : List Definition), d.room.AtMost wide := by simp
    have hi := variablesAfter_append hj
      ((applies_assign b name value _).variablesAfter hnone hassign)
    have hassigned := assigned_of_assign hwide.below hassign
    refine Filled.cons (ih b₁ hwide env (earlier ++ []) i b' k hi hfill) hassigned.name ?_ ?_
      (hassigned.children.trans (List.append_nil _).symm) fun _ hs => .other rfl hs
    · rintro q e ⟨⟩
      exact ⟨j.env, hj, hassigned.set q e rfl rfl⟩
    · intro q hno
      refine hassigned.kept q fun e hq hv => hno e ?_
      rw [hq, hv]
  case command =>
    intro b room c rest hdefinition hproperty ihc ih hwide env earlier j b' k hj h
    rw [fill_command _ _ _ _ hdefinition hproperty] at h
    obtain ⟨r, i, hload, hfill⟩ := go_bind_eq_ok.mp h
    have hi := variablesAfter_seen hwide hj (applies_load? hdefinition room) hload
    have hdeclared := ihc hdefinition room rfl hwide env earlier j r i hj hload
    have hset : ∀ q e, c = .property q.name (.expr e) → ∃ rho, variablesAfter env earlier = .ok rho ∧
        e.evaluate rho wide = .ok ((b.withChild r).get q) :=
      fun q e hc => absurd hc (hproperty _ _)
    have hfilled := ih r hwide env (earlier ++ Command.seenIn wide [c]) i b' k hi hfill
    exact Filled.cons hfilled (name_withChild b r) hset (fun q _ => get_withChild b r q)
      (children_withChild b r) fun _ hs => hdeclared.forest hs

theorem declared_of_visit_load? {r : Option Body} {j k : Journal} (hwide : room.AtMost wide)
    (hj : variablesAfter env earlier = .ok j.env)
    (h : (do visit policy c (room.below 1); load? policy c (room.below 1) :
      Pass (Option Body)).go j = (.ok r, k)) :
    Declared env wide earlier c r := by
  obtain ⟨_, i, hvisit, hload⟩ := go_bind_eq_ok.mp h
  by_cases hc : ∃ name e, c = .definition name e
  · obtain ⟨name, e, rfl⟩ := hc
    obtain ⟨rfl, -⟩ : none = r ∧ i = k := by simpa [load?, Command.declaration?] using hload
    exact .other rfl
  · -- a visit leaves everything else alone
    have hstill : j = i := by
      cases c with
      | definition name e => exact absurd ⟨name, e, rfl⟩ hc
      | invocation _ | property _ _ | stray _ => exact (Prod.mk.inj hvisit).2
    subst hstill
    exact (means_load?_fill wide).1 c _ (fun name e he => hc ⟨name, e, he⟩) room rfl hwide
      env earlier j r k hj hload

/-- **The bodies that are loaded are those the document stands for.** -/
theorem forest_of_loadAll {bodies : List Body} {j k : Journal} (hwide : room.AtMost wide)
    (hj : variablesAfter env earlier = .ok j.env)
    (h : (loadAll policy cs room).go j = (.ok bodies, k)) : Forest env wide earlier cs bodies := by
  induction cs generalizing earlier bodies j with
  | nil =>
    obtain ⟨rfl, -⟩ : [] = bodies ∧ j = k := by simpa [loadAll] using h
    exact .nil
  | cons c cs ih =>
    rw [loadAll, ← bind_assoc] at h
    obtain ⟨r, i, hfirst, hrest⟩ := go_bind_eq_ok.mp h
    obtain ⟨bs, i', hbodies, hpure⟩ := go_bind_eq_ok.mp hrest
    obtain ⟨rfl, rfl⟩ : r.toList ++ bs = bodies ∧ i' = k := by simpa using hpure
    have hi := variablesAfter_seen hwide hj (applies_visit_load? c room) hfirst
    exact (declared_of_visit_load? hwide hj hfirst).forest (ih hi hbodies)

/-- Bodies are loaded from one list after the other. -/
theorem loadAll_append (xs ys : List Command) :
    loadAll policy (xs ++ ys) room = do
      let first ← loadAll policy xs room
      let second ← loadAll policy ys room
      return first ++ second := by
  induction xs with
  | nil => simp [loadAll]
  | cons c cs ih =>
    simp only [List.cons_append, loadAll, ih, bind_assoc, pure_bind, List.append_assoc]

/-- **What a scene means.**  The bodies are those that the declarations stand for, in order, each
quantity with the value of the last expression it is set to, at the place where that stands: the
value that a call of whoever loads the scene gives. -/
theorem loadAll_means (policy : Option Policy) (cs : List Command) (room : Room) (j : Journal)
    (bodies : List Body) (k : Journal) (h : (loadAll policy cs room).go j = (.ok bodies, k)) :
    (∀ wide, room.AtMost wide → Forest j.env wide [] cs bodies) ∧
    (∀ wide before name block rest between,
      Command.seenIn wide (before ++
        .invocation (.word declarationWord :: .word name :: .block block :: rest) :: between) =
      Command.seenIn wide before ++ Command.seenIn wide block ++ Command.seenIn wide between) ∧
    ∀ xs ys, cs = xs ++ ys → ∃ first i second,
      (loadAll policy xs room).go j = (.ok first, i) ∧
        (loadAll policy ys room).go i = (.ok second, k) ∧ bodies = first ++ second := by
  refine ⟨fun wide hwide => forest_of_loadAll hwide rfl h,
    fun wide before name block rest between => ?_, ?_⟩
  · rw [Command.seenIn_append, Command.seenIn_cons, Command.seenIn_declaration, List.append_assoc]
  · rintro xs ys rfl
    rw [loadAll_append] at h
    obtain ⟨first, i, hfirst, hrest⟩ := go_bind_eq_ok.mp h
    obtain ⟨second, i', hsecond, hpure⟩ := go_bind_eq_ok.mp hrest
    obtain ⟨rfl, rfl⟩ : first ++ second = bodies ∧ i' = k := by simpa using hpure
    exact ⟨first, i, second, hfirst, hsecond, rfl⟩

theorem loadAll_means_sample : ∃ bodies k,
    (loadAll none sampleScene).go {} = (.ok bodies, k) ∧
      Forest .empty .standard [] sampleScene bodies :=
  ⟨_, _, rfl, (loadAll_means none sampleScene .standard {} _ _ rfl).1 .standard .refl⟩

end Body
end Planetarium
