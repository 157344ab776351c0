import Planetarium.Proofs.Parsing.Coupling

/-!
# Attempts further on in a text

A reader sees the characters from its place on and nothing else.  When as many characters more
stand before the place, it does the same and every offset it reports is as much greater.  The two
readings are coupled (`DocumentCoupling.forward`), and that comes to the attempt further on being
the attempt moved forward (`Follows`).
-/
namespace Planetarium.Text.Cursor

/-- The place with `d` more characters before it. -/
def forward (d : Nat) (s : Cursor) : Cursor := ⟨s.offset + d, s.rest⟩

variable {d : Nat} {s : Cursor} {p : Char → Bool}

@[simp] theorem forward_offset : (s.forward d).offset = s.offset + d := rfl

@[simp] theorem forward_left : (s.forward d).left = s.left := rfl

/-- Skipping is the same further on. -/
@[simp] theorem skip_forward : (s.forward d).skip p = (s.skip p).forward d := by
  simp only [Cursor.skip, forward, mk.injEq, and_true]
  omega

end Planetarium.Text.Cursor

namespace Planetarium.Parsing
open Text Attempt

/-- The event `d` characters further on. -/
def Event.forward (d : Nat) : Event → Event
  | .missed offset expected => .missed (offset + d) expected
  | .opened offset => .opened (offset + d)

/-- The stop `d` characters further on. -/
def Stop.forward (d : Nat) : Stop → Stop
  | .fault f => .fault ⟨f.cause, f.offset + d⟩
  | .unexpected => .unexpected
  | .exhausted => .exhausted

variable {α : Type} {n n' d : Nat}

/-- A reading and the same reading `d` characters further on. -/
def Coupling.forward (d : Nat) : Coupling where
  place s s' := s' = s.forward d
  level l l' := l' = l
  event e e' := e' = e.forward d
  stop r r' := r' = r.forward d
  ahead := by
    rintro s _ rfl
    exact ahead_self fun _ _ _ => by simp [Cursor.forward, Nat.add_right_comm]
  skip := by
    rintro l _ s _ rfl rfl
    exact Cursor.skip_forward
  inGroup := by
    rintro l _ rfl
    rfl
  full := by
    rintro l _ rfl
    exact ⟨rfl, rfl⟩
  room := by
    rintro l _ k rfl
    rfl
  missed := by
    rintro s _ e rfl
    rfl
  opened := by
    rintro s _ rfl
    rfl
  fault := by
    rintro s _ c rfl
    rfl
  unexpected := rfl
  exhausted := rfl

/-- A reading of a document and the same reading `d` characters further on. -/
def DocumentCoupling.forward (d : Nat) : DocumentCoupling where
  toCoupling := .forward d
  text := id
  skipSpace := by
    rintro s _ rfl
    exact Cursor.skip_forward
  skipLayout := by
    rintro s _ rfl
    exact Cursor.skip_forward
  inBlock := by
    rintro l _ rfl
    rfl
  inAssignment := by
    rintro l _ rfl
    rfl
  quotedString := by
    rintro s _ rfl
    refine Coupling.quotedString rfl fun cs cs' hs hs' => ?_
    obtain rfl := List.cons.inj (hs.symm.trans hs') |>.2
    cases hdrop : cs.dropWhile (· != '"') with
    | nil => exact .inl ⟨rfl, rfl⟩
    | cons c u =>
      refine .inr ⟨c, u, c, u, rfl, rfl, rfl, ?_⟩
      simp only [Coupling.forward, Cursor.forward, Cursor.mk.injEq, and_true]
      omega

namespace Attempt

/-- The second attempt is the first one `d` characters further on.  Where the reading stops
because nothing that could follow follows, something has been missed. -/
inductive Follows (d : Nat) : Attempt α n → Attempt α n' → Prop
  | matched {v t h h' log} :
    Follows d ⟨.matched v t h, log⟩ ⟨.matched v (t.forward d) h', log.map (Event.forward d)⟩
  | mismatched {log} : Follows d ⟨.mismatched, log⟩ ⟨.mismatched, log.map (Event.forward d)⟩
  | stopped {reason log} : (reason = .unexpected → misses log ≠ []) →
    Follows d ⟨.stopped reason, log⟩ ⟨.stopped (reason.forward d), log.map (Event.forward d)⟩

theorem map_forward_of_forall₂ {log log' : List Event}
    (h : List.Forall₂ (fun e e' => e' = e.forward d) log log') :
    log' = log.map (Event.forward d) := by
  induction h with
  | nil => rfl
  | cons he _ ih => rw [he, ih, List.map_cons]

/-- Attempts that are coupled by moving forward are one attempt, moved forward. -/
theorem Coupled.follows {f : α → α} {a : Attempt α n} {a' : Attempt α n'} (hf : ∀ v, f v = v)
    (h : Coupled (.forward d) f a a') : Follows d a a' := by
  cases h with
  | matched ht hlog =>
    obtain rfl := ht
    rw [hf, map_forward_of_forall₂ hlog]
    exact .matched
  | mismatched hlog =>
    rw [map_forward_of_forall₂ hlog]
    exact .mismatched
  | stopped hr hmiss hlog =>
    obtain rfl := hr
    rw [map_forward_of_forall₂ hlog]
    exact .stopped hmiss

end Attempt
end Planetarium.Parsing
