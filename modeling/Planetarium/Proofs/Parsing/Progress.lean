import Planetarium.Proofs.Parsing.Located
import Mathlib.Logic.Function.Iterate

/-!
# Reading goes forward

A rule that matches at a place of a text ends at a later place of it (`Advances`).  A rule or a
loop that goes on with itself does so at later places, too.  Let a round be what it does with
something else put in its own place: one round comes to the rule as soon as what is put there is
right at the later places of the text (`Recurs`).  Then as many rounds as there are places come to
the rule whatever the innermost calls are taken for, so nobody has to count rounds for the reading
to end.
-/
namespace Planetarium.Text.Cursor

/-- Skipping never goes back. -/
theorem offset_le_skip (s : Cursor) (p : Char → Bool) : s.offset ≤ (s.skip p).offset :=
  Nat.le_add_right _ _

end Planetarium.Text.Cursor

namespace Planetarium.Parsing
open Text

/-- Nor does skipping layout. -/
theorem Level.offset_le_skip (l : Level) (s : Cursor) : s.offset ≤ (l.skip s).offset :=
  Cursor.offset_le_skip s _

namespace Attempt

variable {α β : Type} {n m : Nat} {text : List Char} {s : Cursor} {a : Attempt α n}
  {f f' : (value : α) → (next : Cursor) → next.left < n → Attempt β m}
  {g g' : Unit → Attempt β m}

/-- If the attempt at `s` matches, it does so up to a later place of the text. -/
def Advances (text : List Char) (s : Cursor) (a : Attempt α n) : Prop :=
  ∀ v t, a.Gives v t → s.offset < t.offset ∧ t.Within text

/-- A located attempt at a place in the text goes forward. -/
theorem Located.advances {a : Attempt α s.left} (h : Located text a) (hs : s.Within text) :
    Advances text s a := by
  intro v t hg
  have ht := h.within hg
  have hprogress := hg.progress
  have hsleft := hs.offset_add_left
  have htleft := ht.offset_add_left
  exact ⟨by omega, ht⟩

/-- What comes after an attempt matters only for what it gives. -/
theorem branch_congr (hf : ∀ v t (h : a.Gives v t), f v t h.progress = f' v t h.progress)
    (hg : a.Fails → g () = g' ()) : a.branch f g = a.branch f' g' := by
  obtain ⟨outcome, log⟩ := a
  cases outcome with
  | matched v t p => exact congrArg (since log) (hf v t ⟨p, rfl⟩)
  | mismatched => exact congrArg (since log) (hg rfl)
  | stopped reason => rfl

/-- Only what is done after a success counts. -/
theorem andThen_congr (hf : ∀ v t (h : a.Gives v t), f v t h.progress = f' v t h.progress) :
    a.andThen f = a.andThen f' :=
  branch_congr hf fun _ => rfl

end Attempt

section Levels
variable {α : Type} {n k : Nat} {l inside : Level} {body body' : Level → Attempt α n}
  {rule rule' : Unit → Attempt α n}

theorem enter_congr (h : body inside = body' inside) :
    l.enter inside k body = l.enter inside k body' := by
  unfold Level.enter
  rw [h]

theorem within_congr (h : rule () = rule' ()) : l.within k rule = l.within k rule' := by
  unfold Level.within
  rw [h]

end Levels

/-- A round comes to the rule if what stands in for the rule is right at later places of the
text. -/
def Recurs {ι : Type} {A : ι → Type} (text : List Char) (place : ι → Cursor)
    (round : ((i : ι) → A i) → (i : ι) → A i) (rule : (i : ι) → A i) : Prop :=
  ∀ i rest, (place i).Within text →
    (∀ j, (place j).Within text → (place i).offset < (place j).offset → rest j = rule j) →
    round rest i = rule i

variable {ι : Type} {A : ι → Type} {text : List Char} {place : ι → Cursor}
  {round : ((i : ι) → A i) → (i : ι) → A i} {rule : (i : ι) → A i} {i : ι}

/-- Rounds enough for the rest of the text come to the rule, whatever they begin with. -/
theorem Recurs.iterate (h : Recurs text place round rule) (bottom : (i : ι) → A i) {k : Nat}
    (hi : (place i).Within text) (hk : text.length < (place i).offset + k) :
    round^[k] bottom i = rule i := by
  induction k generalizing i with
  | zero =>
    have := hi.1
    omega
  | succ k ih =>
    rw [Function.iterate_succ_apply']
    exact h i _ hi fun j hj hlt => ih hj (by omega)

/-- A rule that is computed in rounds, each of which goes on at later places of the text. -/
structure Unwinds (text : List Char) (place : ι → Cursor)
    (round : ((i : ι) → A i) → (i : ι) → A i) (rule : (i : ι) → A i) : Prop where
  recurs : Recurs text place round rule
  ends : ∀ (bottom : (i : ι) → A i) (k : Nat) (i : ι), (place i).Within text →
    text.length < (place i).offset + k → round^[k] bottom i = rule i

/-- A rule that recurs is unwound by its rounds. -/
theorem Recurs.unwinds (h : Recurs text place round rule) : Unwinds text place round rule :=
  ⟨h, fun bottom _ _ => h.iterate bottom⟩

end Planetarium.Parsing
