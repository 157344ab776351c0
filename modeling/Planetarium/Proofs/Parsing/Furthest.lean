import Planetarium.Proofs.Parsing.Forward

/-!
# Reports further on in a text

A report names the furthest miss.  Misses that all lie before a certain offset are therefore of no
account as soon as there is one from there on, and a reading that starts further on in a text
reports the same as a reading that starts at the beginning, as much further on.
-/
namespace Planetarium.Parsing
open Text

variable {log log' : List Event} {text before : List Char} {b d : Nat}

theorem foldl_max_eq (misses : List (Nat × Expected)) (k : Nat) :
    misses.foldl (fun n miss => max n miss.1) k =
      max k (misses.foldl (fun n miss => max n miss.1) 0) := by
  induction misses generalizing k with
  | nil => simp
  | cons m ms ih =>
    simp only [List.foldl_cons, ih (max k m.1), ih (max 0 m.1)]
    omega

/-- The furthest miss is no further than any bound of all of them. -/
theorem furthest_le (h : ∀ miss ∈ misses log, miss.1 ≤ b) : furthest log ≤ b := by
  unfold furthest
  generalize misses log = ms at h
  induction ms with
  | nil => exact Nat.zero_le _
  | cons m ms ih =>
    rw [List.foldl_cons, foldl_max_eq]
    have hm := h m (List.mem_cons_self ..)
    have hms := ih fun x hx => h x (List.mem_cons_of_mem _ hx)
    omega

/-- No miss is beyond the furthest one. -/
theorem le_furthest {miss : Nat × Expected} (h : miss ∈ misses log) : miss.1 ≤ furthest log := by
  unfold furthest
  generalize misses log = ms at h
  induction ms with
  | nil => contradiction
  | cons m ms ih =>
    rw [List.foldl_cons, foldl_max_eq]
    rcases List.mem_cons.mp h with rfl | hmem
    · omega
    · have := ih hmem
      omega

/-- Misses are moved forward with their events. -/
theorem misses_map_forward :
    misses (log.map (Event.forward d)) = (misses log).map fun miss => (miss.1 + d, miss.2) := by
  induction log with
  | nil => rfl
  | cons e log ih =>
    cases e <;> simp_all [misses, Event.forward]

/-- Misses further on outweigh those before. -/
theorem furthest_append_forward (h : ∀ miss ∈ misses log, miss.1 < d) (hne : misses log' ≠ []) :
    furthest (log ++ log'.map (Event.forward d)) = furthest log' + d := by
  -- a miss of the whole is one from before, or one that was moved
  have hmem : ∀ miss, miss ∈ misses (log ++ log'.map (Event.forward d)) ↔
      miss ∈ misses log ∨ ∃ m ∈ misses log', (m.1 + d, m.2) = miss := by
    intro miss
    rw [misses_append, misses_map_forward, List.mem_append, List.mem_map]
  refine Nat.le_antisymm (furthest_le fun miss hmiss => ?_) ?_
  · rcases (hmem miss).mp hmiss with hm | ⟨m, hm, hmove⟩
    · have := h miss hm
      omega
    · have := le_furthest hm
      rw [← hmove]
      omega
  · have hle : ∀ m ∈ misses log', m.1 + d ≤ furthest (log ++ log'.map (Event.forward d)) :=
      fun m hm => le_furthest ((hmem _).mpr (.inr ⟨m, hm, rfl⟩))
    obtain ⟨m, hm⟩ := List.exists_mem_of_ne_nil _ hne
    have hm := hle m hm
    have : furthest log' ≤ furthest (log ++ log'.map (Event.forward d)) - d :=
      furthest_le fun m hm => Nat.le_sub_of_add_le (hle m hm)
    omega

/-- Without a miss the furthest offset is the first one. -/
theorem furthest_of_misses_eq_nil (h : misses log = []) : furthest log = 0 := by
  simp [furthest, h]

theorem misses_append_forward_of_eq_nil (h : misses log' = []) :
    misses (log ++ log'.map (Event.forward d)) = misses log := by
  simp [misses_map_forward, h]

/-- Whether a place is behind all misses does not depend on how far on it is. -/
theorem furthest_append_forward_le_iff (h : ∀ miss ∈ misses log, miss.1 < d) {k : Nat} :
    furthest (log ++ log'.map (Event.forward d)) ≤ k + d ↔ furthest log' ≤ k := by
  by_cases hne : misses log' = []
  · have hle : furthest (log ++ log'.map (Event.forward d)) ≤ k + d := by
      refine furthest_le fun miss hm => ?_
      rw [misses_append_forward_of_eq_nil hne] at hm
      have := h miss hm
      omega
    have hzero := furthest_of_misses_eq_nil hne
    exact ⟨fun _ => by omega, fun _ => hle⟩
  · rw [furthest_append_forward h hne]
    omega

/-- What is missed further on hides what was missed before. -/
theorem missedFurthest_append_forward (h : ∀ miss ∈ misses log, miss.1 < d)
    (hne : misses log' ≠ []) :
    missedFurthest (log ++ log'.map (Event.forward d)) = missedFurthest log' := by
  unfold missedFurthest
  rw [furthest_append_forward h hne]
  refine List.filter_congr fun e _ => ?_
  rw [Bool.eq_iff_iff, List.contains_iff_mem, List.contains_iff_mem, misses_append,
    misses_map_forward, List.mem_append, List.mem_map]
  constructor
  · rintro (hm | ⟨m, hm, hmove⟩)
    · have := h _ hm
      omega
    · simp only [Prod.mk.injEq, Nat.add_right_cancel_iff] at hmove
      rwa [← hmove.1, ← hmove.2]
  · exact fun hm => .inr ⟨_, hm, rfl⟩

/-- What is unexpected further on is reported as such there. -/
theorem unexpectedFault_append_forward (h : ∀ miss ∈ misses log, miss.1 < before.length)
    (hne : misses log' ≠ []) :
    unexpectedFault (before ++ text) (log ++ log'.map (Event.forward before.length)) =
      ⟨(unexpectedFault text log').cause, (unexpectedFault text log').offset + before.length⟩ := by
  simp only [unexpectedFault, furthest_append_forward h hne, missedFurthest_append_forward h hne]
  rw [List.getElem?_append_right (Nat.le_add_left _ _), Nat.add_sub_cancel]

end Planetarium.Parsing
