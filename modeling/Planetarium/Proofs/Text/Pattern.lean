import Mathlib.Data.List.TakeWhile

/-!
# Patterns matched by backtracking

A pattern is tried at the head of a text.  What may be left out is first tried as if it were there,
and a repetition takes as many characters as there are; when what comes behind does not match, the
last choice that was made is taken back and the next one tried.  `ways` lists what is left of the
text after each choice, in the order in which they are tried, and the match is the first of them.

A choice is never taken back where the rest cannot fail (`first?_seq_of_total`).  Between two
repetitions of one class a character that must be there is the last of its kind in the run, and the
second repetition takes what is left of the run (`first?_run`).
-/
namespace Planetarium.Text

/-- A pattern of characters. -/
inductive Pattern where
  /-- One character of a class. -/
  | one (p : Char → Bool)
  /-- Any number of characters of a class, as many as there can be. -/
  | many (p : Char → Bool)
  /-- A pattern, or nothing where it cannot be there. -/
  | optional (a : Pattern)
  /-- One pattern after another. -/
  | seq (a b : Pattern)

namespace Pattern

/-- What is left after as many characters of a class as there are, then after one less, and so
on. -/
def manyWays (p : Char → Bool) : List Char → List (List Char)
  | [] => [[]]
  | c :: cs => if p c then manyWays p cs ++ [c :: cs] else [c :: cs]

/-- What is left of a text after each way in which a pattern matches, in the order in which the
ways are tried. -/
def ways : Pattern → List Char → List (List Char)
  | one _, [] => []
  | one p, c :: cs => if p c then [cs] else []
  | many p, t => manyWays p t
  | optional a, t => a.ways t ++ [t]
  | seq a b, t => (a.ways t).flatMap b.ways

/-- What is left of a text after the first way in which a pattern matches. -/
def first? (a : Pattern) (t : List Char) : Option (List Char) := (a.ways t).head?

/-- What a pattern matches at the head of a text, and what is left. -/
def match? (a : Pattern) (t : List Char) : Option (List Char × List Char) :=
  (a.first? t).map fun rest => (t.take (t.length - rest.length), rest)

variable {a b : Pattern} {p q : Char → Bool} {c : Char} {cs rest s t token : List Char}

/-! ## What is left is the end of the text -/

theorem suffix_of_mem_manyWays (h : rest ∈ manyWays p t) : rest <:+ t := by
  induction t with
  | nil =>
    obtain rfl := List.mem_singleton.mp h
    exact List.suffix_rfl
  | cons c cs ih =>
    rw [manyWays] at h
    split at h
    · rcases List.mem_append.mp h with h | h
      · exact (ih h).trans (List.suffix_cons c cs)
      · obtain rfl := List.mem_singleton.mp h
        exact List.suffix_rfl
    · obtain rfl := List.mem_singleton.mp h
      exact List.suffix_rfl

/-- What a pattern leaves is a suffix. -/
theorem suffix_of_mem_ways (h : rest ∈ a.ways t) : rest <:+ t := by
  induction a generalizing t rest with
  | one p =>
    cases t with
    | nil => contradiction
    | cons c cs =>
      rw [ways] at h
      split at h
      · obtain rfl := List.mem_singleton.mp h
        exact List.suffix_cons c rest
      · contradiction
  | many p => exact suffix_of_mem_manyWays h
  | optional a ih =>
    rcases List.mem_append.mp h with h | h
    · exact ih h
    · obtain rfl := List.mem_singleton.mp h
      exact List.suffix_rfl
  | seq a b iha ihb =>
    obtain ⟨between, hbetween, hrest⟩ := List.mem_flatMap.mp h
    exact (ihb hrest).trans (iha hbetween)

/-- What is matched and what is left make up the text. -/
theorem match?_eq_some : a.match? t = some (token, rest) ↔
    a.first? t = some rest ∧ token ++ rest = t := by
  rw [match?, Option.map_eq_some_iff]
  constructor
  · rintro ⟨rest, hfirst, heq⟩
    obtain ⟨rfl, rfl⟩ := Prod.mk.inj heq
    obtain ⟨before, rfl⟩ := suffix_of_mem_ways (List.mem_of_head? hfirst)
    simp [hfirst]
  · rintro ⟨hfirst, rfl⟩
    exact ⟨rest, hfirst, by simp⟩

/-! ## The first way -/

/-- Characters are taken as long as they match. -/
theorem first?_many : (many p).first? t = some (t.dropWhile p) := by
  rw [first?, ways]
  induction t with
  | nil => rfl
  | cons c cs ih => cases hc : p c <;> simp [manyWays, hc, ih]

/-- What may be there is taken if it is. -/
theorem first?_optional : (optional a).first? t = some ((a.first? t).getD t) := by
  cases h : a.first? t <;> simp_all [first?, ways]

/-- Of two patterns in a row the first one is tried in all its ways. -/
theorem first?_seq : (seq a b).first? t = (a.ways t).findSome? b.first? := List.head?_flatMap

/-- The first way stands where the rest cannot fail. -/
theorem first?_seq_of_total (hb : ∀ t, (b.first? t).isSome) :
    (seq a b).first? t = (a.first? t).bind b.first? := by
  rw [first?_seq, first?]
  cases a.ways t with
  | nil => rfl
  | cons rest others =>
    obtain ⟨left, hleft⟩ := Option.isSome_iff_exists.mp (hb rest)
    simp [hleft]

theorem first?_one_seq : (seq (one p) b).first? t = match t with
    | [] => none
    | c :: cs => if p c then b.first? cs else none := by
  rw [first?_seq]
  cases t with
  | nil => rfl
  | cons c cs => cases hc : p c <;> simp [ways, hc]

/-- A character of a kind between two repetitions of a class it belongs to: the repetitions and the
character are the whole run of the class, if one of its kind is in it. -/
theorem first?_run (hqp : ∀ c, q c → p c) (hb : ∀ t, (b.first? t).isSome) :
    (seq (many p) (seq (one q) (seq (many p) b))).first? t =
      if (t.takeWhile p).any q then b.first? (t.dropWhile p) else none := by
  have hrun : ∀ t, (seq (many p) b).first? t = b.first? (t.dropWhile p) := fun t => by
    rw [first?_seq_of_total hb, first?_many, Option.bind_some]
  rw [first?_seq, ways]
  induction t with
  | nil => simp [manyWays, first?_one_seq]
  | cons c cs ih =>
    cases hc : p c with
    | false =>
      have hq : q c = false := Bool.eq_false_iff.mpr fun h => by simp [hqp c h] at hc
      simp [manyWays, hc, first?_one_seq, hq]
    | true =>
      -- the rest of the run is tried first, and its last character of the kind is found there
      rw [manyWays, if_pos hc, List.findSome?_append, ih]
      simp only [List.findSome?_singleton, first?_one_seq, hrun]
      cases hany : (cs.takeWhile p).any q with
      | true =>
        obtain ⟨left, hleft⟩ := Option.isSome_iff_exists.mp (hb (cs.dropWhile p))
        simp [hc, hany, hleft]
      | false => cases hq : q c <;> simp [hc, hq, hany]

end Pattern
end Planetarium.Text
