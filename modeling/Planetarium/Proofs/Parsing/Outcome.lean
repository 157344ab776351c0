import Planetarium.Parsing.Report
import Planetarium.Parsing.Token

/-!
# What an attempt comes to

An attempt is used through two questions.  What does it give (`Gives`, or a mismatch), and how far
does it look (`Within`)?  The combinators answer both from the answers for their parts, so a
rule of the grammar is never taken apart below its combinators.

`facing n s` is the place of a text of `n` characters at which `s` is left.  A rule that goes from
`s` to `t` goes from `facing n s` to `facing n t`, whatever stands before.
-/
namespace Planetarium.Text.Cursor

/-- The place of a text of `n` characters at which `rest` is left. -/
def facing (n : Nat) (rest : List Char) : Cursor := ⟨n - rest.length, rest⟩

variable {n : Nat} {p : Char → Bool} {s t : List Char}

@[simp] theorem facing_left : (facing n s).left = s.length := rfl

@[simp] theorem facing_offset : (facing n s).offset = n - s.length := rfl

/-- The start of a text faces the whole text. -/
theorem start_eq_facing (text : List Char) : start text = facing text.length text := by
  simp [start, facing]

/-- Of two places the one that faces less is further on. -/
theorem offset_facing_le (h : t.length ≤ s.length) :
    (facing n s).offset ≤ (facing n t).offset := by
  simp only [facing_offset]
  omega

/-- Behind what is skipped a place faces the rest. -/
theorem skip_facing (h : s.length ≤ n) : (facing n s).skip p = facing n (s.dropWhile p) := by
  have hl := congrArg List.length (List.takeWhile_append_dropWhile (p := p) (l := s))
  simp only [List.length_append] at hl
  simp only [Cursor.skip, facing, mk.injEq, and_true]
  omega

theorem skip_eq_self {s : Cursor} (h : s.rest.dropWhile p = s.rest) : s.skip p = s := by
  have hl := congrArg List.length (List.takeWhile_append_dropWhile (p := p) (l := s.rest))
  rw [h, List.length_append] at hl
  have htake : (s.rest.takeWhile p).length = 0 := by omega
  rw [Cursor.skip, h, htake, Nat.add_zero]

/-- One character further on. -/
theorem facing_cons (c : Char) (h : (c :: s).length ≤ n) :
    facing n s = ⟨(facing n (c :: s)).offset + 1, s⟩ := by
  simp only [List.length_cons] at h
  simp only [facing, List.length_cons, mk.injEq, and_true]
  omega

end Planetarium.Text.Cursor

namespace Planetarium.Parsing.Attempt
open Text

variable {α β : Type} {n m : Nat} {a : Attempt α n} {v : α} {w : β} {t u : Cursor} {b : Nat}
  {f : (value : α) → (next : Cursor) → next.left < n → Attempt β m} {g : Unit → Attempt β m}

/-- The rule matches with this value, up to `next`. -/
def Gives (a : Attempt α n) (value : α) (next : Cursor) : Prop :=
  ∃ h, a.outcome = .matched value next h

/-- The rule does not match. -/
def Fails (a : Attempt α n) : Prop := a.outcome = .mismatched

/-- Nothing was missed beyond an offset. -/
def Within (a : Attempt α n) (bound : Nat) : Prop := ∀ miss ∈ misses a.log, miss.1 ≤ bound

/-- The rule matches and looks no further than to where it ends. -/
def Matches (a : Attempt α n) (value : α) (next : Cursor) : Prop :=
  a.Gives value next ∧ a.Within next.offset

/-- The rule does not match and looks no further than to an offset. -/
def FailsWithin (a : Attempt α n) (bound : Nat) : Prop := a.Fails ∧ a.Within bound

theorem Gives.progress (h : a.Gives v t) : t.left < n := h.1

/-- An attempt does not give and fail. -/
theorem Gives.not_fails (h : a.Gives v t) : ¬ a.Fails := by
  obtain ⟨_, h⟩ := h
  rw [Fails, h]
  nofun

/-- It gives one value at one place. -/
theorem Gives.unique {x : α} (h : a.Gives v t) (k : a.Gives x u) : v = x ∧ t = u := by
  obtain ⟨_, h⟩ := h
  obtain ⟨_, k⟩ := k
  rw [h] at k
  simpa using k

theorem Within.mono {c : Nat} (h : a.Within b) (hc : b ≤ c) : a.Within c :=
  fun miss hm => Nat.le_trans (h miss hm) hc

theorem FailsWithin.mono {c : Nat} (h : a.FailsWithin b) (hc : b ≤ c) : a.FailsWithin c :=
  ⟨h.1, h.2.mono hc⟩

/-! ## The basic attempts -/

/-- An acceptance gives its value. -/
@[simp] theorem gives_accept {h : t.left < n} {x : α} :
    (accept v t h).Gives x u ↔ v = x ∧ t = u :=
  ⟨fun k => (Gives.unique ⟨h, rfl⟩ k), fun ⟨hv, ht⟩ => by subst hv ht; exact ⟨h, rfl⟩⟩

/-- Without a miss there is none beyond the bound. -/
theorem within_of_misses_eq_nil (h : misses a.log = []) : a.Within b := by
  intro miss hm
  rw [h] at hm
  exact absurd hm List.not_mem_nil

theorem within_accept {h : t.left < n} : (accept v t h).Within b := within_of_misses_eq_nil rfl

theorem matches_accept {h : t.left < n} : (accept v t h).Matches v t :=
  ⟨⟨h, rfl⟩, within_accept⟩

theorem matches_accept_of_eq {h : t.left < n} (hu : t = u) : (accept v t h).Matches v u := by
  subst hu
  exact matches_accept

@[simp] theorem not_fails_accept {h : t.left < n} : ¬ (accept v t h).Fails := nofun

@[simp] theorem not_gives_mismatch : ¬ (mismatch : Attempt α n).Gives v t := nofun

theorem failsWithin_mismatch : (mismatch : Attempt α n).FailsWithin b :=
  ⟨rfl, within_of_misses_eq_nil rfl⟩

@[simp] theorem not_gives_miss {k : Nat} {e : Expected} :
    ¬ (miss k e : Attempt α n).Gives v t := nofun

/-- A miss fails where it stands. -/
theorem failsWithin_miss {k : Nat} {e : Expected} (h : k ≤ b) :
    (miss k e : Attempt α n).FailsWithin b := by
  refine ⟨rfl, fun x hx => ?_⟩
  obtain rfl := List.mem_singleton.mp hx
  exact h

@[simp] theorem not_gives_stop {r : Stop} : ¬ (stop r : Attempt α n).Gives v t := nofun

@[simp] theorem not_fails_stop {r : Stop} : ¬ (stop r : Attempt α n).Fails := nofun

@[simp] theorem not_gives_fault {c : Cause} {k : Nat} :
    ¬ (fault c k : Attempt α n).Gives v t := nofun

@[simp] theorem not_fails_fault {c : Cause} {k : Nat} : ¬ (fault c k : Attempt α n).Fails := nofun

@[simp] theorem gives_since {l : List Event} : (a.since l).Gives v t ↔ a.Gives v t := Iff.rfl

@[simp] theorem fails_since {l : List Event} : (a.since l).Fails ↔ a.Fails := Iff.rfl

/-- Earlier misses have to be within the bound as well. -/
theorem within_since {l : List Event} :
    (a.since l).Within b ↔ (∀ miss ∈ misses l, miss.1 ≤ b) ∧ a.Within b := by
  simp only [Within, log_since, misses_append, List.mem_append]
  exact ⟨fun h => ⟨fun x hx => h x (.inl hx), fun x hx => h x (.inr hx)⟩,
    fun h x hx => hx.elim (h.1 x) (h.2 x)⟩

/-! ## The combinators -/

/-- After a success a branch goes its first way. -/
theorem branch_of_gives (h : a.Gives v t) :
    a.branch f g = (f v t h.progress).since a.log := by
  obtain ⟨outcome, log⟩ := a
  obtain ⟨p, h⟩ := h
  simp only at h
  subst h
  rfl

/-- After a failure it goes its second way. -/
theorem branch_of_fails (h : a.Fails) : a.branch f g = (g ()).since a.log := by
  obtain ⟨outcome, log⟩ := a
  simp only [Fails] at h
  subst h
  rfl

/-- What is never said of a stop, and of an attempt whatever happened before it, is said of a branch
just if it is said of the side that is taken. -/
theorem branch_iff {P : Attempt β m → Prop} (hstop : ∀ reason log, ¬ P ⟨.stopped reason, log⟩)
    (hsince : ∀ log b, P (b.since log) ↔ P b) : P (a.branch f g) ↔
      (∃ v t, ∃ h : a.Gives v t, P (f v t h.progress)) ∨ a.Fails ∧ P (g ()) := by
  constructor
  · intro h
    obtain ⟨outcome, log⟩ := a
    cases outcome with
    | matched v t p => exact .inl ⟨v, t, ⟨p, rfl⟩, (hsince _ _).mp h⟩
    | mismatched => exact .inr ⟨rfl, (hsince _ _).mp h⟩
    | stopped reason => exact absurd h (hstop reason log)
  · rintro (⟨v, t, h, hf⟩ | ⟨h, hg⟩)
    · rw [branch_of_gives h]
      exact (hsince _ _).mpr hf
    · rw [branch_of_fails h]
      exact (hsince _ _).mpr hg

/-- A branch gives what its matching or its failing side gives. -/
theorem gives_branch : (a.branch f g).Gives w u ↔
    (∃ v t, ∃ h : a.Gives v t, (f v t h.progress).Gives w u) ∨ a.Fails ∧ (g ()).Gives w u :=
  branch_iff (P := fun b => b.Gives w u) (fun _ _ h => by cases h.2) fun _ _ => gives_since

/-- A branch fails where its matching or its failing side fails. -/
theorem fails_branch : (a.branch f g).Fails ↔
    (∃ v t, ∃ h : a.Gives v t, (f v t h.progress).Fails) ∨ a.Fails ∧ (g ()).Fails :=
  branch_iff (P := fun b => b.Fails) (fun _ _ h => by cases h) fun _ _ => fails_since

/-- Two attempts in a row give a value if the first one gives something and the second one goes on
from there. -/
theorem gives_andThen : (a.andThen f).Gives w u ↔
    ∃ v t, ∃ h : a.Gives v t, (f v t h.progress).Gives w u := by
  simp [andThen, gives_branch]

/-- Alternatives give what the first one gives, or what the second one gives if the first one
fails. -/
theorem gives_orElse {o : Unit → Attempt α n} : (a.orElse o).Gives v t ↔
    a.Gives v t ∨ a.Fails ∧ (o ()).Gives v t := by
  simp [orElse, gives_branch]

/-- Alternatives fail if both fail. -/
theorem fails_orElse {o : Unit → Attempt α n} : (a.orElse o).Fails ↔ a.Fails ∧ (o ()).Fails := by
  simp [orElse, fails_branch]

/-- Two attempts in a row fail if one of them does. -/
theorem fails_andThen : (a.andThen f).Fails ↔
    (∃ v t, ∃ h : a.Gives v t, (f v t h.progress).Fails) ∨ a.Fails := by
  rw [andThen, fails_branch]
  exact or_congr_right (and_iff_left rfl)

/-- Changing the value changes nothing else. -/
theorem gives_map {h : α → β} : (a.map h).Gives w u ↔ ∃ v, a.Gives v u ∧ h v = w := by
  simp only [map, gives_andThen, gives_accept]
  constructor
  · rintro ⟨v, t, hv, rfl, rfl⟩
    exact ⟨v, hv, rfl⟩
  · rintro ⟨v, hv, rfl⟩
    exact ⟨v, u, hv, rfl, rfl⟩

@[simp] theorem fails_map {h : α → β} : (a.map h).Fails ↔ a.Fails := by
  simp [map, fails_andThen]

@[simp] theorem gives_widen {h : n ≤ m} : (a.widen h).Gives v u ↔ a.Gives v u := by
  simp only [widen, gives_andThen, gives_accept]
  constructor
  · rintro ⟨v, t, hv, rfl, rfl⟩
    exact hv
  · exact fun hv => ⟨v, u, hv, rfl, rfl⟩

@[simp] theorem fails_widen {h : n ≤ m} : (a.widen h).Fails ↔ a.Fails := by
  simp [widen, fails_andThen]

/-- What comes after a widened attempt comes after the attempt. -/
theorem widen_branch {k : Nat} {h : n ≤ k}
    {f : (value : α) → (next : Cursor) → next.left < k → Attempt β m} :
    (a.widen h).branch f g =
      a.branch (fun v t ht => f v t (Nat.lt_of_lt_of_le ht h)) g := by
  obtain ⟨_ | _ | _, log⟩ := a <;> simp [widen, andThen, branch, accept, mismatch, since]

/-- The attempt goes on as another one, having looked no further than to an offset. -/
def Resumes (a : Attempt α n) (bound : Nat) (a' : Attempt α n) : Prop :=
  ∃ log, (∀ miss ∈ misses log, miss.1 ≤ bound) ∧ a = a'.since log

section Resumes
variable {a' a'' : Attempt α n} {c : Nat}

/-- An attempt resumes itself. -/
theorem Resumes.refl : a.Resumes b a := ⟨[], nofun, rfl⟩

theorem Resumes.mono (h : a.Resumes b a') (hc : b ≤ c) : a.Resumes c a' := by
  obtain ⟨log, hlog, rfl⟩ := h
  exact ⟨log, fun miss hm => Nat.le_trans (hlog miss hm) hc, rfl⟩

/-- What resumes an attempt that resumes a third one resumes the third one. -/
theorem Resumes.trans (h : a.Resumes b a') (h' : a'.Resumes b a'') : a.Resumes b a'' := by
  obtain ⟨log, hlog, rfl⟩ := h
  obtain ⟨log', hlog', rfl⟩ := h'
  refine ⟨log ++ log', fun miss hm => ?_, since_since _ _ _⟩
  rw [misses_append, List.mem_append] at hm
  exact hm.elim (hlog miss) (hlog' miss)

/-- An attempt matches if what it resumes does. -/
theorem Resumes.matches (h : a.Resumes b a') (hm : a'.Matches v t) (hb : b ≤ t.offset) :
    a.Matches v t := by
  obtain ⟨log, hlog, rfl⟩ := h
  exact ⟨hm.1, within_since.mpr ⟨fun miss hm => Nat.le_trans (hlog miss hm) hb, hm.2⟩⟩

/-- It fails within a bound if what it resumes does. -/
theorem Resumes.failsWithin (h : a.Resumes b a') (hf : a'.FailsWithin b) : a.FailsWithin b := by
  obtain ⟨log, hlog, rfl⟩ := h
  exact ⟨hf.1, within_since.mpr ⟨hlog, hf.2⟩⟩

/-- What comes after a resumed attempt resumes as well. -/
theorem Resumes.branch (h : a.Resumes b a') :
    (a.branch f g).Resumes b (a'.branch f g) := by
  obtain ⟨log, hlog, rfl⟩ := h
  exact ⟨log, hlog, branch_since log a' f g⟩

end Resumes

/-- After a match, a branch does what its matching side does. -/
theorem Gives.branch_resumes (h : a.Gives v t) (hb : a.Within b) :
    (a.branch f g).Resumes b (f v t h.progress) :=
  ⟨a.log, hb, branch_of_gives h⟩

theorem Matches.branch_resumes (h : a.Matches v t) :
    (a.branch f g).Resumes t.offset (f v t h.1.progress) :=
  h.1.branch_resumes h.2

/-- After a mismatch, a branch does what its failing side does. -/
theorem FailsWithin.branch_resumes (h : a.FailsWithin b) :
    (a.branch f g).Resumes b (g ()) :=
  ⟨a.log, h.2, branch_of_fails h.1⟩

/-- After a match a branch matches if its first way does. -/
theorem Matches.branch (h : a.Matches v t) (hf : (f v t h.1.progress).Matches w u)
    (hu : t.offset ≤ u.offset) : (a.branch f g).Matches w u :=
  h.branch_resumes.matches hf hu

/-- After a failure it matches if its second way does. -/
theorem FailsWithin.branch (h : a.FailsWithin b) (hg : (g ()).Matches w u) (hb : b ≤ u.offset) :
    (a.branch f g).Matches w u :=
  h.branch_resumes.matches hg hb

theorem FailsWithin.branch_fails (h : a.FailsWithin b) (hg : (g ()).FailsWithin b) :
    (a.branch f g).FailsWithin b :=
  h.branch_resumes.failsWithin hg

theorem Matches.branch_fails (h : a.Matches v t) (hf : (f v t h.1.progress).FailsWithin b)
    (hb : t.offset ≤ b) : (a.branch f g).FailsWithin b :=
  (h.branch_resumes.mono hb).failsWithin hf

/-- A match and then a match is a match. -/
theorem Matches.andThen (h : a.Matches v t) (hf : (f v t h.1.progress).Matches w u)
    (hu : t.offset ≤ u.offset) : (a.andThen f).Matches w u :=
  h.branch hf hu

theorem FailsWithin.andThen (h : a.FailsWithin b) : (a.andThen f).FailsWithin b :=
  h.branch_fails failsWithin_mismatch

/-- A match and then a failure is a failure. -/
theorem Matches.andThen_fails (h : a.Matches v t) (hf : (f v t h.1.progress).FailsWithin b)
    (hb : t.offset ≤ b) : (a.andThen f).FailsWithin b :=
  h.branch_fails hf hb

/-- If the first alternative matches, the second one is not tried. -/
theorem Matches.orElse {o : Unit → Attempt α n} (h : a.Matches v t) :
    (a.orElse o).Matches v t :=
  h.branch matches_accept (Nat.le_refl _)

/-- If it fails, what the second one matches is matched. -/
theorem FailsWithin.orElse {o : Unit → Attempt α n} (h : a.FailsWithin b)
    (ho : (o ()).Matches v t) (hb : b ≤ t.offset) : (a.orElse o).Matches v t :=
  h.branch ho hb

/-- If both fail within a bound, their alternative does. -/
theorem FailsWithin.orElse_fails {o : Unit → Attempt α n} (h : a.FailsWithin b)
    (ho : (o ()).FailsWithin b) : (a.orElse o).FailsWithin b :=
  h.branch_fails ho

theorem Matches.map (h : a.Matches v t) (k : α → β) : (a.map k).Matches (k v) t :=
  h.andThen matches_accept (Nat.le_refl _)

theorem FailsWithin.map (h : a.FailsWithin b) (k : α → β) : (a.map k).FailsWithin b :=
  h.andThen

theorem Matches.widen (h : a.Matches v t) (k : n ≤ m) : (a.widen k).Matches v t :=
  h.andThen matches_accept (Nat.le_refl _)

/-! ## Nesting and room -/

variable {l inside : Level} {k : Nat} {body : Level → Attempt α n} {rule : Unit → Attempt α n}

/-- What is opened gives what its inside gives, if the limit allows it. -/
theorem gives_enter : (l.enter inside k body).Gives v t ↔
    l.isFull = false ∧ (body inside).Gives v t := by
  cases h : l.isFull with
  | true => simp [Level.enter_of_isFull h]
  | false => simp [Level.enter_of_not_isFull h]

/-- A bracket fails if its level is not full and what is inside it fails. -/
theorem fails_enter : (l.enter inside k body).Fails ↔
    l.isFull = false ∧ (body inside).Fails := by
  cases h : l.isFull with
  | true => simp [Level.enter_of_isFull h]
  | false => simp [Level.enter_of_not_isFull h]

/-- A rule gives what it gives wherever there is room for it. -/
theorem gives_within : (l.within k rule).Gives v t ↔
    l.lacks k = false ∧ (rule ()).Gives v t := by
  cases h : l.lacks k with
  | true => simp [Level.within_of_lacks h]
  | false => simp [Level.within_of_room h]

/-- A rule that needs room fails if it has the room and fails. -/
theorem fails_within : (l.within k rule).Fails ↔ l.lacks k = false ∧ (rule ()).Fails := by
  cases h : l.lacks k with
  | true => simp [Level.within_of_lacks h]
  | false => simp [Level.within_of_room h]

end Planetarium.Parsing.Attempt
