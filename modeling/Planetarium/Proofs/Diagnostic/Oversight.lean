import Planetarium.Scene.Body

/-!
# What a policy changes

A pass under a policy is compared with the pass without one from the same variables.  The policy
only decides about the notices that the free pass gives: as long as none of them is escalated, the
pass does the same and keeps back the suppressed ones, and at the first escalated one it fails
there and then, with the variables of that moment.

`Overseen` says so of a step that is given the policy as an argument.  It holds of issuing a
warning, it holds of every step that issues none, and it is kept by doing one step after another;
the passes over documents are made of nothing else.
-/
namespace Planetarium

/-- The notice is turned into an error. -/
def Policy.escalates (p : Policy) (n : Notice) : Bool := n.warning.code ∈ p.escalated

/-- The notice is not suppressed. -/
def Policy.keeps (p : Policy) (n : Notice) : Bool := n.warning.code ∉ p.suppressed

namespace Pass
variable {α β : Type}

/-- Under a policy the step does what the step without one, and the notices that this issues,
make of it. -/
def Overseen (step : Option Policy → Pass α) : Prop :=
  ∀ (p : Policy) (env : Environment) (before before' : List Notice), ∃ issued,
    ((step none).go ⟨env, before⟩).2.notices = before ++ issued ∧
    ((∀ n ∈ issued, ¬ p.escalates n) → (step (some p)).go ⟨env, before'⟩ =
      (((step none).go ⟨env, before⟩).1,
        ⟨((step none).go ⟨env, before⟩).2.env, before' ++ issued.filter p.keeps⟩)) ∧
    (∀ earlier n later, issued = earlier ++ n :: later → p.escalates n →
      (∀ m ∈ earlier, ¬ p.escalates m) → (step (some p)).go ⟨env, before'⟩ =
        (.error (.escalated n.warning), ⟨n.env, before' ++ earlier.filter p.keeps⟩))

/-! ## Single steps -/

/-- A step that issues nothing and does not look at the notices is not affected. -/
theorem overseen_of_silent {step : Pass α} {f : Environment → Except Failure α × Environment}
    (h : ∀ env notices, step.go ⟨env, notices⟩ = ((f env).1, ⟨(f env).2, notices⟩)) :
    Overseen fun _ => step := by
  intro p env before before'
  refine ⟨[], ?_, fun _ => ?_, fun earlier n later hnil => ?_⟩
  · simp [h]
  · simp [h]
  · simp at hnil

theorem overseen_pure (a : α) : Overseen fun _ => (pure a : Pass α) :=
  overseen_of_silent (f := fun env => (.ok a, env)) fun _ _ => rfl

theorem overseen_throw (f : Failure) : Overseen fun _ => (throw f : Pass α) :=
  overseen_of_silent (f := fun env => (.error f, env)) fun _ _ => rfl

theorem overseen_value (e : Expr) (room : Room) : Overseen fun _ => value e room := by
  refine overseen_of_silent (f := fun env => ((e.evaluate env room).mapError .evaluation, env))
    fun env notices => ?_
  rw [go_value]
  cases e.evaluate env room <;> rfl

theorem overseen_bindVariable (name : String) (x : Float) :
    Overseen fun _ => bindVariable name x :=
  overseen_of_silent (f := fun env => (.ok (), env.insert name x)) fun _ _ => rfl

/-- A warning is overseen. -/
theorem overseen_emit (w : Warning) : Overseen fun policy => emit policy w := by
  intro p env before before'
  have hfree : (emit none w).go ⟨env, before⟩ = (.ok (), ⟨env, before ++ [⟨w, env⟩]⟩) := rfl
  rw [hfree]
  refine ⟨[⟨w, env⟩], rfl, fun hno => ?_, fun earlier n later hn hesc _ => ?_⟩
  · have hesc : w.code ∉ p.escalated := by
      simpa [Policy.escalates] using hno ⟨w, env⟩ (List.mem_singleton.mpr rfl)
    by_cases hs : w.code ∈ p.suppressed
    · have hv : verdict (some p) w.code = .drop := by simp [verdict, hs]
      simp [go_emit, hv, Policy.keeps, hs]
    · have hv : verdict (some p) w.code = .issue := by simp [verdict, hs, hesc]
      simp [go_emit, hv, Policy.keeps, hs]
  · obtain ⟨rfl, rfl, rfl⟩ : earlier = [] ∧ n = ⟨w, env⟩ ∧ later = [] := by
      cases earlier <;> simp_all
    have hmem : w.code ∈ p.escalated := by simpa [Policy.escalates] using hesc
    -- no code is both suppressed and escalated
    have hv : verdict (some p) w.code = .escalate := by
      simp [verdict, p.disjoint _ hmem, hmem]
    simp [go_emit, hv]

/-! ## Steps one after another -/

/-- An element of two lists put together is in the first or in the second. -/
theorem append_eq_append_cons {γ : Type} {xs ys earlier later : List γ} {n : γ}
    (h : xs ++ ys = earlier ++ n :: later) :
    (∃ m, xs = earlier ++ n :: m) ∨ ∃ m, earlier = xs ++ m ∧ ys = m ++ n :: later := by
  rcases List.append_eq_append_iff.mp h with hm | ⟨m, hxs, hm⟩
  · exact .inr hm
  · cases m with
    | nil => exact .inr ⟨[], by simpa using hxs.symm, by simpa using hm.symm⟩
    | cons x m =>
      obtain ⟨rfl, rfl⟩ := List.cons.inj hm
      exact .inl ⟨m, hxs⟩

/-- Two overseen steps in a row are overseen. -/
theorem Overseen.bind {step : Option Policy → Pass α} {next : Option Policy → α → Pass β}
    (h : Overseen step) (hnext : ∀ a, Overseen fun policy => next policy a) :
    Overseen fun policy => step policy >>= next policy := by
  intro p env before before'
  obtain ⟨issued, hissued, hfree, hstop⟩ := h p env before before'
  simp only [go_bind]
  rcases hgo : (step none).go ⟨env, before⟩ with ⟨f | a, j⟩
  · -- the free pass ends with the first step
    rw [hgo] at hissued hfree
    refine ⟨issued, hissued, fun hno => ?_, fun earlier n later hn hesc hm => ?_⟩
    · rw [hfree hno]
    · rw [hstop earlier n later hn hesc hm]
  · -- the second step goes on from where the first one ended, in both passes
    rw [hgo] at hissued hfree
    simp only at hissued hfree
    obtain ⟨more, hmore, hfree', hstop'⟩ :=
      hnext a p j.env j.notices (before' ++ issued.filter p.keeps)
    refine ⟨issued ++ more, ?_, fun hno => ?_, fun earlier n later hn hesc hm => ?_⟩
    · rw [hmore, hissued, List.append_assoc]
    · rw [hfree fun n hn => hno n (List.mem_append_left _ hn)]
      simp only [hfree' fun n hn => hno n (List.mem_append_right _ hn), List.filter_append,
        List.append_assoc]
    · rcases append_eq_append_cons hn with ⟨m, hissued'⟩ | ⟨m, rfl, hlater⟩
      · rw [hstop earlier n m hissued' hesc hm]
      · rw [hfree fun n hn => hm n (List.mem_append_left _ hn)]
        simp only [hstop' m n later hlater hesc fun n hn => hm n (List.mem_append_right _ hn),
          List.filter_append, List.append_assoc]

/-! ## Passes over documents -/

/-- So is a definition. -/
theorem overseen_define (name : String) (e : Expr) (room : Room) :
    Overseen fun policy => define policy name e room := by
  have hrest : Overseen fun _ =>
      (do let x ← value e (room.below 1); bindVariable name x; return x : Pass Float) :=
    (overseen_value e _).bind fun x => (overseen_bindVariable name x).bind fun _ => overseen_pure x
  simp only [define]
  split
  · exact (overseen_emit _).bind fun _ => hrest
  · exact hrest

theorem overseen_visit (c : Command) (room : Room) :
    Overseen fun policy => visit policy c room := by
  cases c with
  | definition name e => exact (overseen_define name e _).bind fun _ => overseen_pure ()
  | invocation _ | property _ _ | stray _ => exact overseen_pure ()

end Pass

open Pass

mutual
theorem Command.overseen_evaluate :
    (c : Command) → (room : Room) → Overseen fun policy => c.evaluate policy room
  | .definition name e, room => by
    simp only [Command.evaluate]
    exact (overseen_define name e _).bind fun _ => overseen_pure ()
  | .invocation as, room => by
    simp only [Command.evaluate]
    exact Arg.overseen_evaluateAll as room
  | .property _ _, _ | .stray _, _ => by
    simp only [Command.evaluate]
    exact overseen_pure ()

theorem Arg.overseen_evaluate :
    (a : Arg) → (room : Room) → Overseen fun policy => a.evaluate policy room
  | .word _, _ => by
    simp only [Arg.evaluate]
    exact overseen_pure ()
  | .block cs, room => by
    simp only [Arg.evaluate]
    exact Command.overseen_evaluateAll cs (room.below 1)

theorem Arg.overseen_evaluateAll :
    (as : List Arg) → (room : Room) → Overseen fun policy => Arg.evaluateAll policy as room
  | [], _ => by
    simp only [Arg.evaluateAll]
    exact overseen_pure ()
  | a :: as, room => by
    simp only [Arg.evaluateAll]
    exact (Arg.overseen_evaluate a room).bind fun _ => Arg.overseen_evaluateAll as room

/-- The evaluation of a document is overseen. -/
theorem Command.overseen_evaluateAll :
    (cs : List Command) → (room : Room) → Overseen fun policy => Command.evaluateAll policy cs room
  | [], _ => by
    simp only [Command.evaluateAll]
    exact overseen_pure ()
  | c :: cs, room => by
    simp only [Command.evaluateAll]
    exact (Command.overseen_evaluate c room).bind fun _ => Command.overseen_evaluateAll cs room
end

namespace Body

theorem overseen_assign (b : Body) (name : String) (v : PropertyValue) (room : Room) :
    Overseen fun policy => b.assign policy name v room := by
  simp only [assign]
  split
  · exact (overseen_value _ _).bind fun x => overseen_pure _
  · exact (overseen_emit _).bind fun _ => overseen_pure b
  · split
    · split
      · exact overseen_pure _
      · exact (overseen_emit _).bind fun _ => overseen_pure b
    · exact (overseen_emit _).bind fun _ => overseen_pure b

/-- Loading a body and filling one call each other. -/
theorem overseen_load?_fill : (∀ c room, Overseen fun policy => load? policy c room) ∧
    ∀ b cs room, Overseen fun policy => fill policy b cs room := by
  refine load_induction ?declaration ?other ?nil ?definition ?property ?command
  case declaration =>
    intro room name block rest ih
    simp only [load?_declaration, map_eq_pure_bind]
    exact ih.bind fun b => overseen_pure (some b)
  case other =>
    intro c room hc
    rcases load?_other room hc with ⟨-, hload⟩ | ⟨reason, hload⟩
    · simp only [hload]
      exact overseen_pure none
    · simp only [hload]
      exact overseen_throw (.declaration reason)
  case nil =>
    intro b room
    simp only [fill_nil]
    exact overseen_pure b
  case definition =>
    intro b room name e rest ih
    simp only [fill_definition]
    exact (overseen_define name e _).bind fun _ => ih
  case property =>
    intro b room name value rest ih
    simp only [fill_property]
    exact (overseen_assign b name value _).bind fun b => ih b
  case command =>
    intro b room c rest hdefinition hproperty ihc ih
    simp only [fill_command _ _ _ _ hdefinition hproperty]
    exact ihc.bind fun child => ih child

/-- So is the loading of a scene. -/
theorem overseen_loadAll (cs : List Command) (room : Room) :
    Overseen fun policy => loadAll policy cs room := by
  induction cs with
  | nil =>
    simp only [loadAll]
    exact overseen_pure []
  | cons c cs ih =>
    simp only [loadAll]
    refine (overseen_visit c _).bind fun _ => (overseen_load?_fill.1 c _).bind fun body => ?_
    exact ih.bind fun bodies => overseen_pure (body.toList ++ bodies)

end Body

/-! ## The policy and the free pass -/

/-- What a pass under the policy is, given the pass without one from the same variables.  If the
free pass issues no notice that the policy escalates, the result, the variables and the failure
are the same, and the warnings are those that are not suppressed.  Otherwise the pass fails with
the first notice that is escalated, in its full text, where the free pass issued it. -/
def Policy.Governs {α : Type} (p : Policy) (step : Option Policy → Pass α) : Prop :=
  ∀ env : Environment,
    let free := (step none).go { env }
    let governed := (step (some p)).go { env }
    ((∀ w ∈ free.2.warnings, w.code ∉ p.escalated) →
      governed.1 = free.1 ∧ governed.2.env = free.2.env ∧
      governed.2.warnings = free.2.warnings.filter (·.code ∉ p.suppressed)) ∧
    ∀ earlier n later, free.2.notices = earlier ++ n :: later → n.warning.code ∈ p.escalated →
      (∀ m ∈ earlier, m.warning.code ∉ p.escalated) →
      ∃ failure, governed.1 = .error failure ∧ failure = .escalated n.warning ∧
        failure.message = "[" ++ n.warning.code.text ++ "] " ++ n.warning.detail ∧
        governed.2.env = n.env ∧
        governed.2.warnings = (earlier.map Notice.warning).filter (·.code ∉ p.suppressed)

/-- **A policy governs whatever is overseen.** -/
theorem Pass.Overseen.governs {α : Type} {step : Option Policy → Pass α} (h : Overseen step)
    (p : Policy) : p.Governs step := by
  intro env
  obtain ⟨issued, hissued, hfree, hstop⟩ := h p env [] []
  have hkept : ∀ notices : List Notice, (notices.filter p.keeps).map Notice.warning =
      (notices.map Notice.warning).filter (·.code ∉ p.suppressed) := by
    intro notices
    rw [List.filter_map]
    rfl
  rw [List.nil_append] at hissued
  refine ⟨fun hno => ?_, fun earlier n later hn hesc hm => ?_⟩
  · rw [hfree fun n hn => ?_]
    · refine ⟨rfl, rfl, ?_⟩
      simp only [Journal.warnings, List.nil_append]
      rw [hkept, hissued]
    · have := hno n.warning (List.mem_map_of_mem (hissued ▸ hn))
      simpa [Policy.escalates] using this
  · have hgo := hstop earlier n later (hissued ▸ hn) (by simpa [Policy.escalates] using hesc)
      (fun m hmem => by simpa [Policy.escalates] using hm m hmem)
    refine ⟨.escalated n.warning, by rw [hgo], rfl, rfl, by rw [hgo], ?_⟩
    rw [hgo]
    simp only [Journal.warnings, List.nil_append]
    exact hkept earlier

/-- **A policy only decides about notices.**  Loading the bodies of a document, evaluating a
document and a definition on its own go under a policy as they go without one, but for the
notices that are suppressed and up to the first one that is escalated. -/
theorem policy_governs (p : Policy) (room : Room) :
    (∀ cs, p.Governs fun policy => Body.loadAll policy cs room) ∧
    (∀ cs, p.Governs fun policy => Command.evaluateAll policy cs room) ∧
    ∀ name e, p.Governs fun policy => Pass.define policy name e room :=
  ⟨fun cs => (Body.overseen_loadAll cs room).governs p,
    fun cs => (Command.overseen_evaluateAll cs room).governs p,
    fun name e => (overseen_define name e room).governs p⟩

end Planetarium
