import Planetarium.Proofs.Parsing.Opening

/-!
# Attempts stay in the text

A reading only ever speaks of places of its text: where it ends, where something was missed and
where a fault lies.  Alternatives that are given up leave their misses behind, so this is said of
the log of an attempt and not of its outcome alone.

A reading that stops because nothing follows that could follow says so right after it has missed
something, and no fault by itself says that something was unexpected.  So whatever is reported as
unexpected is told by the log (`Stop.Located`).
-/
namespace Planetarium.Parsing
open Text Attempt

variable {α β : Type} {n m k : Nat} {text : List Char} {log : List Event} {s t : Cursor}

/-- The fault is in the text, and is not that something is unexpected. -/
def Fault.Located (text : List Char) (f : Fault) : Prop :=
  f.offset ≤ text.length ∧ ∀ found expected, f.cause ≠ .unexpected found expected

/-- The reading stops at a place of the text.  If something is unexpected, the last thing to have
happened is a miss. -/
def Stop.Located (text : List Char) (log : List Event) : Stop → Prop
  | .fault f => f.Located text
  | .unexpected => ∃ earlier offset expected, log = earlier ++ [.missed offset expected]
  | .exhausted => True

theorem Stop.Located.since {reason : Stop} {earlier : List Event} (h : reason.Located text log) :
    reason.Located text (earlier ++ log) := by
  cases reason with
  | fault f => exact h
  | unexpected =>
    obtain ⟨before, offset, expected, rfl⟩ := h
    exact ⟨earlier ++ before, offset, expected, by rw [List.append_assoc]⟩
  | exhausted => trivial

namespace Attempt

/-- The attempt misses things in the text only, matches up to a place of it and stops at one. -/
structure Located (text : List Char) (a : Attempt α n) : Prop where
  misses_le : a.Within text.length
  within : ∀ {v t}, a.Gives v t → t.Within text
  stops : ∀ {reason}, a.outcome = .stopped reason → reason.Located text a.log

variable {a : Attempt α n} {v : α}
  {f : (value : α) → (next : Cursor) → next.left < n → Attempt β m} {g : Unit → Attempt β m}

/-- An acceptance inside the text is located. -/
theorem located_accept {h : t.left < n} (ht : t.Within text) : Located text (accept v t h) where
  misses_le := within_accept
  within hg := by
    obtain ⟨-, rfl⟩ := gives_accept.mp hg
    exact ht
  stops := nofun

/-- So is a mismatch. -/
theorem located_mismatch : Located text (mismatch : Attempt α n) :=
  ⟨failsWithin_mismatch.2, nofun, nofun⟩

theorem located_miss {expected : Expected} (h : k ≤ text.length) :
    Located text (miss k expected : Attempt α n) :=
  ⟨(failsWithin_miss h).2, nofun, nofun⟩

theorem located_stop {reason : Stop} (h : reason.Located text []) :
    Located text (stop reason : Attempt α n) where
  misses_le := within_of_misses_eq_nil rfl
  within := nofun
  stops := by
    rintro _ ⟨⟩
    exact h

/-- So is a fault inside the text. -/
theorem located_fault {cause : Cause} (h : k ≤ text.length)
    (hcause : ∀ found expected, cause ≠ .unexpected found expected) :
    Located text (fault cause k : Attempt α n) :=
  located_stop ⟨h, hcause⟩

/-- Misses inside the text may come before. -/
theorem Located.since (h : Located text a) (hlog : ∀ miss ∈ misses log, miss.1 ≤ text.length) :
    Located text (a.since log) :=
  ⟨within_since.mpr ⟨hlog, h.misses_le⟩, fun hg => h.within hg, fun hs => (h.stops hs).since⟩

/-- Whatever comes after an attempt is tried at a place of the text. -/
theorem Located.branch (ha : Located text a)
    (hf : ∀ v t (h : a.Gives v t), t.Within text → Located text (f v t h.progress))
    (hg : a.Fails → Located text (g ())) : Located text (a.branch f g) := by
  obtain ⟨outcome, log⟩ := a
  cases outcome with
  | matched v t p =>
    have hgives : (⟨.matched v t p, log⟩ : Attempt α n).Gives v t := ⟨p, rfl⟩
    exact (hf v t hgives (ha.within hgives)).since ha.misses_le
  | mismatched => exact (hg rfl).since ha.misses_le
  | stopped reason =>
    refine ⟨ha.misses_le, nofun, ?_⟩
    rintro _ ⟨⟩
    exact ha.stops rfl

/-- One located attempt after the other is located. -/
theorem Located.andThen (ha : Located text a)
    (hf : ∀ v t (h : a.Gives v t), t.Within text → Located text (f v t h.progress)) :
    Located text (a.andThen f) :=
  ha.branch hf fun _ => located_mismatch

/-- So is one or the other. -/
theorem Located.orElse {o : Unit → Attempt α n} (ha : Located text a) (ho : Located text (o ())) :
    Located text (a.orElse o) :=
  ha.branch (fun _ _ _ ht => located_accept ht) fun _ => ho

theorem Located.map (ha : Located text a) (f : α → β) : Located text (a.map f) :=
  ha.andThen fun _ _ _ ht => located_accept ht

theorem Located.widen (ha : Located text a) (h : n ≤ m) : Located text (a.widen h) :=
  ha.andThen fun _ _ _ ht => located_accept ht

end Attempt

open Attempt

/-! ## Tokens -/

/-- Reading a sign is located. -/
theorem located_sign {meaning : Char → Option α} (hs : s.Within text) :
    Located text (sign meaning s) := by
  obtain ⟨k, _ | ⟨c, cs⟩⟩ := s
  · exact located_mismatch
  · simp only [sign]
    split
    · exact located_accept (hs.advance (w := [c]) rfl)
    · exact located_mismatch

theorem located_char {c : Char} (hs : s.Within text) : Located text (char c s) := located_sign hs

/-- So is reading an identifier. -/
theorem located_identifier (hs : s.Within text) : Located text (identifier s) := by
  obtain ⟨k, _ | ⟨c, cs⟩⟩ := s
  · exact located_mismatch
  · simp only [identifier]
    split
    · exact located_accept (hs.advance (w := [c]) rfl).skip
    · exact located_mismatch

/-- So is reading a number, whose faults are where it begins. -/
theorem located_number (hs : s.Within text) : Located text (number s) := by
  unfold number
  split
  · exact located_mismatch
  · split
    · exact located_fault hs.1 nofun
    · split
      · exact located_fault hs.1 nofun
      · exact located_accept
          (hs.advance (Decimal.Numeral.text_append_of_split? (by assumption)).symm)

/-- So is reading a string, whose fault is at its first quote. -/
theorem located_quotedString (hs : s.Within text) : Located text (quotedString s) := by
  unfold quotedString
  split
  · rename_i k cs
    have hnext : Cursor.Within text ⟨k + 1, cs⟩ := hs.advance (w := ['"']) rfl
    split
    · exact located_fault hs.1 nofun
    · rename_i j c rest hskip
      have hend : Cursor.Within text ⟨j, c :: rest⟩ := hskip ▸ hnext.skip
      exact located_accept (hend.advance (w := [c]) rfl)
  · exact located_mismatch

/-! ## Levels -/

variable {l inside : Level} {body : Level → Attempt α n} {rule : Unit → Attempt α n} {m : Nat}

/-- A bracket is located where it stands, if what is inside it is. -/
theorem located_enter (hk : k ≤ text.length) (hbody : Located text (body inside)) :
    Located text (l.enter inside k body) := by
  refine Located.since ?_ nofun
  split
  · exact located_fault hk nofun
  · exact hbody

/-- A rule that needs room is located if it is where it has it. -/
theorem located_within (hrule : Located text (rule ())) : Located text (l.within m rule) := by
  unfold Level.within
  split
  · exact located_stop trivial
  · exact hrule

end Planetarium.Parsing
