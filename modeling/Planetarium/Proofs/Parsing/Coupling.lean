import Planetarium.Proofs.Decimal.Numeral
import Mathlib.Data.List.Forall2

/-!
# Two readings side by side

A rule sees the characters from its place on and the level it is tried at, and nothing else.  So two
readings do the same, rule by rule, as long as their places and levels look alike.  A `Coupling`
says which places and levels of one reading go with which of another, and what may then differ in
what they log and in why they stop.  Its laws are about single places and levels: blanks may differ
from one reading to the other, every other character is the same in both.

From the laws it follows that the readers of tokens do the same on both sides (`Coupled`), and that
the combinators keep it so.  Two facts are carried along, so that they are proved for every attempt
at once: a value of the second reading is the image of that of the first, and an attempt that stops
because nothing that could follow follows has missed something.
-/
namespace Planetarium.Parsing
open Text Decimal

/-- What is ahead of two places: nothing, blanks of one kind or another, or the same character and
then two places that go together. -/
inductive Ahead (place : Cursor → Cursor → Prop) : Cursor → Cursor → Prop
  | nothing {k k' : Nat} : Ahead place ⟨k, []⟩ ⟨k', []⟩
  | layout {k k' : Nat} {c c' : Char} {s s' : List Char} : isLayout c → isLayout c' →
    Ahead place ⟨k, c :: s⟩ ⟨k', c' :: s'⟩
  | same {k k' : Nat} {c : Char} {s s' : List Char} : isLayout c = false →
    place ⟨k + 1, s⟩ ⟨k' + 1, s'⟩ → Ahead place ⟨k, c :: s⟩ ⟨k', c :: s'⟩

/-- Where the same characters are ahead, it is enough that the next places go together. -/
theorem ahead_self {place : Cursor → Cursor → Prop} {k k' : Nat} {s : List Char}
    (h : ∀ c t, s = c :: t → place ⟨k + 1, t⟩ ⟨k' + 1, t⟩) : Ahead place ⟨k, s⟩ ⟨k', s⟩ := by
  cases s with
  | nil => exact .nothing
  | cons c s =>
    by_cases hc : isLayout c
    · exact .layout hc hc
    · exact .same (Bool.eq_false_iff.mpr hc) (h c s rfl)

/-- The class of error that a reading stops with. -/
def Stop.errorClass : Stop → ErrorClass
  | .fault f => f.cause.errorClass
  | .unexpected => .parse
  | .exhausted => .depthLimitExceeded

/-- The class of an error depends on why the reading stopped, not on where. -/
theorem errorClass_toFault (r : Stop) (text : List Char) (limit : Int) (log : List Event) :
    (r.toFault text limit log).cause.errorClass = r.errorClass := by
  cases r <;> rfl

/-- The readings stop with errors of the same class. -/
def Stop.SameClass (r r' : Stop) : Prop := r'.errorClass = r.errorClass

theorem Stop.SameClass.refl (r : Stop) : r.SameClass r := rfl

/-- Two readings that stop for reasons of one class report errors of one class. -/
theorem Stop.SameClass.toFault {r r' : Stop} (h : r.SameClass r') (text text' : List Char)
    (limit limit' : Int) (log log' : List Event) :
    (r'.toFault text' limit' log').cause.errorClass =
      (r.toFault text limit log).cause.errorClass := by
  rw [errorClass_toFault, errorClass_toFault]
  exact h

/-- Which places, levels, events and stops of one reading go with which of another. -/
structure Coupling where
  place : Cursor → Cursor → Prop
  level : Level → Level → Prop
  event : Event → Event → Prop
  stop : Stop → Stop → Prop
  ahead : ∀ {s s'}, place s s' → Ahead place s s'
  skip : ∀ {l l' s s'}, level l l' → place s s' → place (l.skip s) (l'.skip s')
  inGroup : ∀ {l l'}, level l l' → level l.inGroup l'.inGroup
  full : ∀ {l l'}, level l l' → l'.isFull = l.isFull ∧ l'.limits.depth = l.limits.depth
  room : ∀ {l l'} k, level l l' → l'.lacks k = l.lacks k
  missed : ∀ {s s'} e, place s s' → event (.missed s.offset e) (.missed s'.offset e)
  opened : ∀ {s s'}, place s s' → event (.opened s.offset) (.opened s'.offset)
  fault : ∀ {s s'} c, place s s' → stop (.fault ⟨c, s.offset⟩) (.fault ⟨c, s'.offset⟩)
  unexpected : stop .unexpected .unexpected
  exhausted : stop .exhausted .exhausted

namespace Attempt

/-- The second attempt does what the first one does, with `f` applied to the value. -/
inductive Coupled (R : Coupling) {α β : Type} {n n' : Nat} (f : α → β) :
    Attempt α n → Attempt β n' → Prop
  | matched {v t t' h h' log log'} : R.place t t' → List.Forall₂ R.event log log' →
    Coupled R f ⟨.matched v t h, log⟩ ⟨.matched (f v) t' h', log'⟩
  | mismatched {log log'} : List.Forall₂ R.event log log' →
    Coupled R f ⟨.mismatched, log⟩ ⟨.mismatched, log'⟩
  | stopped {r r' log log'} : R.stop r r' → (r = .unexpected → misses log ≠ []) →
    List.Forall₂ R.event log log' → Coupled R f ⟨.stopped r, log⟩ ⟨.stopped r', log'⟩

variable {R : Coupling} {α α' β β' : Type} {n n' m m' : Nat} {f : α → α'} {g : β → β'}
  {s s' t t' : Cursor} {log log' : List Event} {a : Attempt α n} {a' : Attempt α' n'}
  {p : (value : α) → (next : Cursor) → next.left < n → Attempt β m}
  {p' : (value : α') → (next : Cursor) → next.left < n' → Attempt β' m'}
  {q : Unit → Attempt β m} {q' : Unit → Attempt β' m'}

/-- A match on one side is a match on the other. -/
theorem Coupled.gives {v : α} (h : Coupled R f a a') (hv : a.Gives v t) :
    ∃ t', R.place t t' ∧ a'.Gives (f v) t' := by
  obtain ⟨_, hv⟩ := hv
  cases h with
  | @matched _ _ u _ hu _ _ ht _ =>
    obtain ⟨rfl, rfl⟩ := Outcome.matched.inj hv
    exact ⟨u, ht, hu, rfl⟩
  | mismatched _ => contradiction
  | stopped _ _ _ => contradiction

/-- Acceptances at corresponding places are coupled if their values are. -/
theorem coupled_accept {v : α} {v' : α'} {h : t.left < n} {h' : t'.left < n'}
    (ht : R.place t t') (hv : v' = f v) : Coupled R f (accept v t h) (accept v' t' h') := by
  subst hv
  exact .matched ht .nil

theorem coupled_mismatch : Coupled R f (mismatch : Attempt α n) (mismatch : Attempt α' n') :=
  .mismatched .nil

theorem coupled_miss {e : Expected} (h : R.place s s') :
    Coupled R f (miss s.offset e : Attempt α n) (miss s'.offset e : Attempt α' n') :=
  .mismatched (.cons (R.missed e h) .nil)

/-- So are two stops for corresponding reasons. -/
theorem coupled_stop {r r' : Stop} (h : R.stop r r') (hr : r ≠ .unexpected) :
    Coupled R f (stop r : Attempt α n) (stop r' : Attempt α' n') :=
  .stopped h (fun hunexpected => absurd hunexpected hr) .nil

/-- So are two faults with one cause at corresponding places. -/
theorem coupled_fault {c : Cause} (h : R.place s s') :
    Coupled R f (fault c s.offset : Attempt α n) (fault c s'.offset : Attempt α' n') :=
  coupled_stop (R.fault c h) nofun

theorem coupled_unexpected {e : Expected} (h : R.place s s') :
    Coupled R f ((stop .unexpected : Attempt α n).since [.missed s.offset e])
      ((stop .unexpected : Attempt α' n').since [.missed s'.offset e]) :=
  .stopped R.unexpected (fun _ => by simp [misses]) (.cons (R.missed e h) .nil)

/-- Corresponding events before coupled attempts leave them coupled. -/
theorem Coupled.since (h : Coupled R f a a') (hlog : List.Forall₂ R.event log log') :
    Coupled R f (a.since log) (a'.since log') := by
  cases h with
  | matched ht hl => exact .matched ht (List.rel_append hlog hl)
  | mismatched hl => exact .mismatched (List.rel_append hlog hl)
  | stopped hr hmiss hl =>
    refine .stopped hr (fun hunexpected => ?_) (List.rel_append hlog hl)
    rw [misses_append]
    exact List.append_ne_nil_of_right_ne_nil _ (hmiss hunexpected)

/-- Attempts one after another are coupled if the first one is, and then the one that follows. -/
theorem Coupled.branch_of_outcome (h : Coupled R f a a')
    (hp : ∀ v t t' ht ht', a.Gives v t → R.place t t' → Coupled R g (p v t ht) (p' (f v) t' ht'))
    (hq : a.Fails → Coupled R g (q ()) (q' ())) : Coupled R g (a.branch p q) (a'.branch p' q') := by
  cases h with
  | matched ht hl => exact (hp _ _ _ _ _ ⟨_, rfl⟩ ht).since hl
  | mismatched hl => exact (hq rfl).since hl
  | stopped hr hmiss hl => exact .stopped hr hmiss hl

/-- Attempts one after another are coupled if each of them is. -/
theorem Coupled.branch (h : Coupled R f a a')
    (hp : ∀ v t t' ht ht', R.place t t' → Coupled R g (p v t ht) (p' (f v) t' ht'))
    (hq : Coupled R g (q ()) (q' ())) : Coupled R g (a.branch p q) (a'.branch p' q') :=
  h.branch_of_outcome (fun v t t' ht ht' _ => hp v t t' ht ht') fun _ => hq

theorem Coupled.andThen_of_gives (h : Coupled R f a a')
    (hp : ∀ v t t' ht ht', a.Gives v t → R.place t t' → Coupled R g (p v t ht) (p' (f v) t' ht')) :
    Coupled R g (a.andThen p) (a'.andThen p') :=
  h.branch_of_outcome hp fun _ => coupled_mismatch

/-- What goes on in a coupled way after coupled attempts is coupled. -/
theorem Coupled.andThen (h : Coupled R f a a')
    (hp : ∀ v t t' ht ht', R.place t t' → Coupled R g (p v t ht) (p' (f v) t' ht')) :
    Coupled R g (a.andThen p) (a'.andThen p') :=
  h.branch hp coupled_mismatch

/-- So are coupled alternatives. -/
theorem Coupled.orElse {o : Unit → Attempt α n} {o' : Unit → Attempt α' n'}
    (h : Coupled R f a a') (ho : Coupled R f (o ()) (o' ())) :
    Coupled R f (a.orElse o) (a'.orElse o') :=
  h.branch (fun _ _ _ _ _ ht => coupled_accept ht rfl) ho

/-- So are coupled attempts with their values changed alike. -/
theorem Coupled.map (h : Coupled R f a a') {k : α → β} {k' : α' → β'}
    (hk : ∀ v, k' (f v) = g (k v)) : Coupled R g (a.map k) (a'.map k') :=
  h.andThen fun v _ _ _ _ ht => coupled_accept ht (hk v)

theorem Coupled.widen (h : Coupled R f a a') (k : n ≤ m) (k' : n' ≤ m') :
    Coupled R f (a.widen k) (a'.widen k') :=
  h.andThen fun _ _ _ _ _ ht => coupled_accept ht rfl

section Levels
variable {l l' inside inside' : Level} {body : Level → Attempt α n} {body' : Level → Attempt α' n'}
  {rule : Unit → Attempt α n} {rule' : Unit → Attempt α' n'} {k : Nat}

/-- What is opened is coupled if its inside is, where it may be opened. -/
theorem coupled_enter (hl : R.level l l') (hs : R.place s s')
    (hb : l.isFull = false → Coupled R f (body inside) (body' inside')) :
    Coupled R f (l.enter inside s.offset body) (l'.enter inside' s'.offset body') := by
  obtain ⟨hfull, hlimit⟩ := R.full hl
  cases h : l.isFull with
  | true =>
    rw [Level.enter_of_isFull h, Level.enter_of_isFull (hfull.trans h), hlimit]
    exact (coupled_fault hs).since (.cons (R.opened hs) .nil)
  | false =>
    rw [Level.enter_of_not_isFull h, Level.enter_of_not_isFull (hfull.trans h)]
    exact (hb h).since (.cons (R.opened hs) .nil)

/-- A rule is coupled if it is where there is room for it. -/
theorem coupled_within (hl : R.level l l')
    (hrule : l.lacks k = false → Coupled R f (rule ()) (rule' ())) :
    Coupled R f (l.within k rule) (l'.within k rule') := by
  have hroom := R.room k hl
  cases h : l.lacks k with
  | true =>
    rw [Level.within_of_lacks h, Level.within_of_lacks (hroom.trans h)]
    exact coupled_stop R.exhausted nofun
  | false =>
    rw [Level.within_of_room h, Level.within_of_room (hroom.trans h)]
    exact hrule h

end Levels

end Attempt

open Attempt

namespace Coupling
variable {R : Coupling} {s s' t : Cursor} {u w : List Char} {p : Char → Bool}

/-! ## Places that go together -/

/-- Corresponding places are at the end of their texts together. -/
theorem rest_eq_nil (h : R.place s s') : s'.rest = [] ↔ s.rest = [] := by
  cases R.ahead h <;> simp

theorem left_eq_zero (h : R.place s s') : s'.left = 0 ↔ s.left = 0 := by
  unfold Cursor.left
  rw [List.length_eq_zero_iff, List.length_eq_zero_iff]
  exact rest_eq_nil h

/-- Where layout follows in the one text, layout follows in the other. -/
theorem head_layout (h : R.place s s') (hs : ∀ c ∈ s.rest.head?, isLayout c) :
    ∀ c ∈ s'.rest.head?, isLayout c := by
  cases R.ahead h with
  | nothing => nofun
  | layout _ hc' =>
    rintro c ⟨⟩
    exact hc'
  | same hc _ =>
    have := hs _ rfl
    rw [hc] at this
    contradiction

/-- What has no blanks in it is the same on both sides. -/
theorem exists_rest_append (h : R.place s s') (hs : s.rest = w ++ u)
    (hw : ∀ c ∈ w, isLayout c = false) : ∃ u', s'.rest = w ++ u' ∧
      R.place ⟨s.offset + w.length, u⟩ ⟨s'.offset + w.length, u'⟩ := by
  induction w generalizing s s' with
  | nil =>
    refine ⟨s'.rest, rfl, ?_⟩
    rw [List.nil_append] at hs
    subst hs
    exact h
  | cons c w ih =>
    rw [List.forall_mem_cons] at hw
    cases R.ahead h with
    | nothing => contradiction
    | layout hc _ =>
      obtain rfl := (List.cons.inj hs).1
      rw [hw.1] at hc
      contradiction
    | same _ hplace =>
      have hcons := List.cons.inj hs
      obtain ⟨u', hu', hu⟩ := ih hplace hcons.2 hw.2
      refine ⟨u', congrArg₂ List.cons hcons.1 hu', ?_⟩
      simp only [List.length_cons, Nat.add_comm w.length 1, ← Nat.add_assoc]
      exact hu

/-- A run of characters that are no blanks is the same on both sides. -/
theorem skip_of_not_layout (h : R.place s s') (hp : ∀ c, p c → isLayout c = false) :
    s'.rest.takeWhile p = s.rest.takeWhile p ∧ R.place (s.skip p) (s'.skip p) := by
  have hall : ∀ c ∈ s.rest.takeWhile p, isLayout c = false := fun c hc =>
    hp c (List.all_eq_true.mp List.all_takeWhile c hc)
  obtain ⟨u', hu', hu⟩ := exists_rest_append h List.takeWhile_append_dropWhile.symm hall
  -- the run ends on both sides at the same character, at a blank or at the end of the text
  have hend : ∀ c ∈ u'.head?, p c = false := by
    intro c hc
    have hstop := head_dropWhile p s.rest
    generalize s.rest.dropWhile p = r at hu hstop
    cases R.ahead hu with
    | nothing => contradiction
    | layout _ hc' =>
      obtain rfl := Option.some.inj hc
      rw [Bool.eq_false_iff]
      intro hpc
      rw [hp _ hpc] at hc'
      contradiction
    | same _ _ =>
      exact hstop c hc
  obtain ⟨htake, hdrop⟩ :=
    takeWhile_append_of_ends (t := u') (List.all_takeWhile (l := s.rest)) hend
  rw [← hu'] at htake hdrop
  refine ⟨htake, ?_⟩
  simp only [Cursor.skip, htake, hdrop]
  exact hu

/-- A word without blanks in it is at both places or at neither. -/
theorem after? (h : R.place s s') (hw : ∀ c ∈ w, isLayout c = false) :
    Option.Rel R.place (s.after? w) (s'.after? w) := by
  induction w generalizing s s' with
  | nil => exact .some h
  | cons c w ih =>
    rw [List.forall_mem_cons] at hw
    have hblank : ∀ d, isLayout d → c ≠ d := by
      rintro d hd rfl
      rw [hw.1] at hd
      contradiction
    cases R.ahead h with
    | nothing => exact .none
    | layout hd hd' =>
      simp only [Cursor.after?, if_neg (hblank _ hd), if_neg (hblank _ hd')]
      exact .none
    | same _ hplace =>
      simp only [Cursor.after?]
      split
      · exact ih hplace hw.2
      · exact .none

/-! ## Tokens -/

/-- Reading a sign that is no layout is coupled. -/
theorem sign {α : Type} {meaning : Char → Option α} (h : R.place s s')
    (hm : ∀ c, isLayout c → meaning c = none) :
    Coupled R id (sign meaning s) (Parsing.sign meaning s') := by
  cases R.ahead h with
  | nothing => exact coupled_mismatch
  | layout hc hc' =>
    simp only [Parsing.sign, hm _ hc, hm _ hc']
    exact coupled_mismatch
  | @same _ _ c _ _ _ hplace =>
    simp only [Parsing.sign]
    cases meaning c with
    | none => exact coupled_mismatch
    | some a => exact coupled_accept hplace rfl

theorem char {c : Char} (h : R.place s s') (hc : isLayout c = false) :
    Coupled R id (char c s) (Parsing.char c s') := by
  refine sign h fun d hd => if_neg ?_
  rintro rfl
  rw [hc] at hd
  contradiction

/-- So is reading an identifier. -/
theorem identifier (h : R.place s s') :
    Coupled R id (identifier s) (Parsing.identifier s') := by
  cases R.ahead h with
  | nothing => exact coupled_mismatch
  | layout hc hc' =>
    have hstart : ∀ c, isLayout c → isWordStart c = false := fun c hc =>
      of_isLayout (P := fun c => isWordStart c = false) hc rfl rfl rfl rfl
    simp only [Parsing.identifier, hstart _ hc, hstart _ hc']
    exact coupled_mismatch
  | same _ hplace =>
    obtain ⟨hrun, hskip⟩ := skip_of_not_layout (p := isWordChar) hplace fun c hc =>
      not_isLayout_of hc rfl rfl rfl rfl
    simp only [Parsing.identifier]
    split
    · exact coupled_accept hskip (by rw [hrun]; rfl)
    · exact coupled_mismatch

/-- The same numeral is split off on both sides, or none is. -/
theorem split? (h : R.place s s') : Numeral.split? s.rest = none ∧ Numeral.split? s'.rest = none ∨
    ∃ numeral u u', Numeral.split? s.rest = some (numeral, u) ∧
      Numeral.split? s'.rest = some (numeral, u') ∧
      R.place ⟨s.offset + numeral.text.length, u⟩ ⟨s'.offset + numeral.text.length, u'⟩ := by
  have hall : ∀ c ∈ s.rest.takeWhile (fun c => !isLayout c), isLayout c = false := fun c hc => by
    simpa using List.all_eq_true.mp List.all_takeWhile c hc
  have hrest := (List.takeWhile_append_dropWhile (p := fun c => !isLayout c) (l := s.rest)).symm
  obtain ⟨u', hu', hu⟩ := exists_rest_append h hrest hall
  have hblank : ∀ c ∈ (s.rest.dropWhile fun c => !isLayout c).head?, isLayout c := by
    intro c hc
    simpa using head_dropWhile (fun c => !isLayout c) s.rest c hc
  have hblank' : ∀ c ∈ u'.head?, isLayout c := head_layout hu hblank
  -- up to the first blank the texts are the same, and a numeral goes no further
  generalize s.rest.takeWhile (fun c => !isLayout c) = w at hall hrest hu' hu
  generalize s.rest.dropWhile (fun c => !isLayout c) = v at hrest hu hblank
  have hs := Numeral.split?_append_layout (s := w) hblank
  have hs' := Numeral.split?_append_layout (s := w) hblank'
  rw [← hrest] at hs
  rw [← hu'] at hs'
  cases hw : Numeral.split? w with
  | none =>
    rw [hw] at hs hs'
    exact .inl ⟨hs, hs'⟩
  | some r =>
    obtain ⟨numeral, r⟩ := r
    rw [hw] at hs hs'
    have htext := Numeral.text_append_of_split? hw
    have hnumeral : ∀ c ∈ numeral.text, isLayout c = false := fun c hc =>
      hall c (htext ▸ List.mem_append_left r hc)
    obtain ⟨x, hx, hplace⟩ := exists_rest_append (u := r ++ v) h
      (by rw [hrest, ← htext, List.append_assoc]) hnumeral
    rw [hu', ← htext, List.append_assoc] at hx
    obtain rfl := List.append_cancel_left hx
    exact .inr ⟨numeral, r ++ v, r ++ u', hs, hs', hplace⟩

/-- And a number. -/
theorem number (h : R.place s s') : Coupled R id (number s) (Parsing.number s') := by
  rcases split? h with ⟨hs, hs'⟩ | ⟨numeral, u, u', hs, hs', hplace⟩
  · rw [number_of_split? hs, number_of_split? hs']
    exact coupled_mismatch
  · rw [number_of_split?_eq_some hs, number_of_split?_eq_some hs']
    cases numeral.float? with
    | none => exact coupled_fault h
    | some x =>
      by_cases hx : isInfinite x
      · simp only [if_pos hx]
        exact coupled_fault h
      · simp only [if_neg hx]
        exact coupled_accept hplace rfl

/-- Quoted texts are coupled if both end, or neither does. -/
theorem quotedString {f : String → String} (h : R.place s s')
    (hend : ∀ cs cs', s.rest = '"' :: cs → s'.rest = '"' :: cs' →
      cs.dropWhile (· != '"') = [] ∧ cs'.dropWhile (· != '"') = [] ∨
      ∃ c u c' u', cs.dropWhile (· != '"') = c :: u ∧ cs'.dropWhile (· != '"') = c' :: u' ∧
        String.ofList (cs'.takeWhile (· != '"')) = f (String.ofList (cs.takeWhile (· != '"'))) ∧
        R.place ⟨s.offset + 1 + (cs.takeWhile (· != '"')).length + 1, u⟩
          ⟨s'.offset + 1 + (cs'.takeWhile (· != '"')).length + 1, u'⟩) :
    Coupled R f (quotedString s) (Parsing.quotedString s') := by
  cases R.ahead h with
  | nothing => exact coupled_mismatch
  | layout hc hc' =>
    have hnone : ∀ k c cs, isLayout c → Parsing.quotedString ⟨k, c :: cs⟩ = .mismatch := by
      intro k c cs hc
      refine quotedString_of_head ?_
      rintro ⟨⟩
      exact absurd hc (by decide)
    rw [hnone _ _ _ hc, hnone _ _ _ hc']
    exact coupled_mismatch
  | @same k k' c cs cs' _ _ =>
    by_cases hq : c = '"'
    · subst hq
      rcases hend cs cs' rfl rfl with ⟨hs, hs'⟩ | ⟨c, u, c', u', hs, hs', htext, hplace⟩
      · rw [quotedString_of_unterminated hs, quotedString_of_unterminated hs']
        exact coupled_fault h
      · rw [quotedString_of_terminated hs, quotedString_of_terminated hs']
        exact coupled_accept hplace htext
    · have hnone : ∀ k cs, Parsing.quotedString ⟨k, c :: cs⟩ = .mismatch := fun k cs =>
        quotedString_of_head fun heq => hq (Option.some.inj heq)
      rw [hnone, hnone]
      exact coupled_mismatch

end Coupling

/-- The second result is the first one with `f` applied, or both are faults of the same class. -/
inductive Corresponds {α β : Type} (f : α → β) : Except Fault α → Except Fault β → Prop
  | ok {v} : Corresponds f (.ok v) (.ok (f v))
  | error {e e'} : e'.cause.errorClass = e.cause.errorClass →
    Corresponds f (.error e) (.error e')

/-- A coupling of two readings of commands.  What stands between quotes may differ by `text`. -/
structure CommandCoupling extends Coupling where
  text : String → String
  skipSpace : ∀ {s s'}, place s s' → place (s.skip isSpace) (s'.skip isSpace)
  skipLayout : ∀ {s s'}, place s s' → place (s.skip isLayout) (s'.skip isLayout)
  inBlock : ∀ {l l'}, level l l' → level l.inBlock l'.inBlock
  inAssignment : ∀ {l l'}, level l l' → level l.inAssignment l'.inAssignment

/-- A coupling of two readings of documents, in which quoted texts go together everywhere. -/
structure DocumentCoupling extends CommandCoupling where
  quotedString : ∀ {s s'}, place s s' →
    Coupled toCoupling text (quotedString s) (Parsing.quotedString s')

end Planetarium.Parsing
