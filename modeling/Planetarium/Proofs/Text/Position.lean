import Planetarium.Text.Position
import Mathlib.Data.List.Induction

/-!
# Places by line and column

Line and column name a place as well as its offset does.  The line counts the line feeds before the
place, from the start of the text on; the column counts from the last of them, which is found by
looking back from the place (`lineStart`).  One character further on is one column further on or
the start of the next line, so later offsets have later places, and from a place the offset is
worked out again (`toOffset`).
-/
namespace Planetarium.Text.Position

variable {p q r : Position} {text a b : List Char} {c : Char} {j k n : Nat}

/-! ## Counting forwards and looking back -/

/-- The line is one more than the line breaks before. -/
theorem line_ofOffset : (ofOffset text k).line = (text.take k).count '\n' + 1 := by
  rw [ofOffset, line_read, Nat.add_comm]
  rfl

/-- Columns count what stands behind the last line feed. -/
theorem column_ofOffset :
    (ofOffset text k).column = ((text.take k).reverse.takeWhile (· ≠ '\n')).length + 1 := by
  rw [ofOffset]
  generalize text.take k = before
  induction before using List.reverseRecOn with
  | nil => rfl
  | append_singleton before c ih =>
    rw [read_append, List.reverse_append]
    by_cases hc : c = '\n'
    · subst hc
      rfl
    · simp only [Position.read, List.foldl_cons, List.foldl_nil, advance, if_neg hc] at ih ⊢
      simp [ih, hc]

/-- The offset just after the last line feed before an offset, or that of the start of the text;
found by looking back. -/
def lineStart (text : List Char) : Nat → Nat
  | 0 => 0
  | k + 1 => if text[k]? = some '\n' then k + 1 else lineStart text k

theorem lineStart_le : lineStart text k ≤ k := by
  induction k with
  | zero => exact Nat.le_refl 0
  | succ k ih =>
    rw [lineStart]
    split <;> omega

/-- One character further on the place has gone past it. -/
theorem ofOffset_succ (h : text[k]? = some c) :
    ofOffset text (k + 1) = (ofOffset text k).advance c := by
  rw [ofOffset, List.take_add_one, read_append, h]
  rfl

/-- The column is counted from the start of the line. -/
theorem column_add_lineStart (h : k ≤ text.length) :
    (ofOffset text k).column + lineStart text k = k + 1 := by
  induction k with
  | zero => rfl
  | succ k ih =>
    have hc : text[k]? = some text[k] := List.getElem?_eq_getElem h
    have ih := ih (Nat.le_of_succ_le h)
    rw [ofOffset_succ hc, lineStart, hc, advance]
    by_cases hfeed : text[k] = '\n'
    · rw [if_pos hfeed, if_pos (congrArg some hfeed), Nat.add_comm]
    · rw [if_neg hfeed, if_neg fun heq => hfeed (Option.some.inj heq)]
      dsimp only
      omega

/-! ## The order of places -/

/-- A place is on an earlier line than another, or on the same line in an earlier column. -/
def Before (p q : Position) : Prop := p.line < q.line ∨ p.line = q.line ∧ p.column < q.column

theorem Before.trans (h : p.Before q) (k : q.Before r) : p.Before r := by
  unfold Before at *
  omega

/-- Going past a character comes to a later place. -/
theorem before_advance (p : Position) (c : Char) : p.Before (p.advance c) := by
  rw [advance]
  split
  · exact .inl (Nat.lt_succ_self _)
  · exact .inr ⟨rfl, Nat.lt_succ_self _⟩

/-- Further on in a text is later by line and column. -/
theorem before_ofOffset (hjk : j < k) (hk : k ≤ text.length) :
    (ofOffset text j).Before (ofOffset text k) := by
  have hstep : ∀ i, i < text.length → (ofOffset text i).Before (ofOffset text (i + 1)) := by
    intro i hi
    rw [ofOffset_succ (List.getElem?_eq_getElem hi)]
    exact before_advance _ _
  induction hjk with
  | refl => exact hstep j hk
  | step _ ih => exact (ih (Nat.le_of_succ_le hk)).trans (hstep _ hk)

/-! ## From a place back to its offset -/

/-- The offset at which a line begins, given how many lines there are before it. -/
def lineOffset : List Char → Nat → Nat
  | _, 0 => 0
  | [], _ + 1 => 0
  | c :: cs, n + 1 => lineOffset cs (if c = '\n' then n else n + 1) + 1

/-- The offset of a place of a text. -/
def toOffset (text : List Char) (p : Position) : Nat :=
  lineOffset text (p.line - 1) + (p.column - 1)

/-- A line feed is followed by the line whose number counts it. -/
theorem lineOffset_of_feed (h : text[k]? = some '\n') :
    lineOffset text ((text.take k).count '\n' + 1) = k + 1 := by
  induction text generalizing k with
  | nil => contradiction
  | cons c cs ih =>
    cases k with
    | zero =>
      obtain rfl : c = '\n' := Option.some.inj h
      simp [lineOffset]
    | succ k =>
      have ih := ih (k := k) h
      rw [List.take_succ_cons, List.count_cons, lineOffset]
      by_cases hc : c = '\n'
      · simpa [hc] using ih
      · simpa [hc] using ih

/-- The line of an offset begins at the start of its line. -/
theorem lineOffset_count (h : k ≤ text.length) :
    lineOffset text ((text.take k).count '\n') = lineStart text k := by
  induction k with
  | zero => simp [lineOffset, lineStart]
  | succ k ih =>
    have hc : text[k]? = some text[k] := List.getElem?_eq_getElem h
    rw [List.take_add_one, hc, List.count_append, lineStart, hc]
    by_cases hfeed : text[k] = '\n'
    · rw [if_pos (congrArg some hfeed), hfeed]
      exact lineOffset_of_feed (hc.trans (congrArg some hfeed))
    · rw [if_neg fun heq => hfeed (Option.some.inj heq), ← ih (Nat.le_of_succ_le h)]
      simp [hfeed]

/-- **The offset is recovered from its place.** -/
theorem toOffset_ofOffset (h : k ≤ text.length) : toOffset text (ofOffset text k) = k := by
  have hcolumn := column_add_lineStart h
  have hstart : lineStart text k ≤ k := lineStart_le
  rw [toOffset, line_ofOffset, Nat.add_sub_cancel, lineOffset_count h]
  omega

/-! ## Behind other lines -/

theorem read_below : (⟨p.line + k, p.column⟩ : Position).read text =
    ⟨(p.read text).line + k, (p.read text).column⟩ := by
  induction text generalizing p with
  | nil => rfl
  | cons c text ih =>
    have hadvance : advance ⟨p.line + k, p.column⟩ c =
        ⟨(p.advance c).line + k, (p.advance c).column⟩ := by
      simp only [advance]
      split
      · simp only [mk.injEq, and_true]
        omega
      · rfl
    simp only [Position.read, List.foldl_cons] at ih ⊢
    rw [hadvance, ih]

/-- A place of a text is on a later line, in the same column, when lines are put before. -/
theorem ofOffset_append_line : ofOffset (a ++ '\n' :: b) (k + (a.length + 1)) =
    ⟨(ofOffset b k).line + 1 + a.count '\n', (ofOffset b k).column⟩ := by
  have htake : (a ++ '\n' :: b).take (k + (a.length + 1)) = (a ++ ['\n']) ++ b.take k := by
    rw [List.append_cons, List.take_append, List.take_of_length_le (by simp)]
    congr 2
    simp
  have hline : first.read (a ++ ['\n']) =
      ⟨first.line + (1 + a.count '\n'), first.column⟩ := by
    rw [read_append]
    simp only [Position.read, List.foldl_cons, List.foldl_nil, advance, if_true, mk.injEq]
    refine ⟨?_, rfl⟩
    have : (first.read a).line = first.line + a.count '\n' := line_read
    simp only [Position.read] at this
    omega
  rw [ofOffset, htake, read_append, hline, read_below, ofOffset, Nat.add_assoc]

/-- **Line and column say where a place is.**  Later offsets of a text have later places, so no two
have the same; the offset is that of the line plus the columns before the place.  The line counts
the line feeds before the place and the column what stands between the last of them and the place.
Past the end of the text there is only its end.  Behind other lines a place is that many lines
further down. -/
theorem ofOffset_faithful (text : List Char) :
    (∀ j k, j < k → k ≤ text.length → (ofOffset text j).Before (ofOffset text k)) ∧
    (∀ k, k ≤ text.length →
      (ofOffset text k).line = (text.take k).count '\n' + 1 ∧
      lineStart text k ≤ k ∧
      (ofOffset text k).column = k - lineStart text k + 1 ∧
      toOffset text (ofOffset text k) = k) ∧
    (∀ k, text.length ≤ k → ofOffset text k = ofOffset text text.length) ∧
    ∀ above k, k ≤ text.length →
      ofOffset (above ++ '\n' :: text) (above.length + 1 + k) =
        ⟨(ofOffset text k).line + (1 + above.count '\n'), (ofOffset text k).column⟩ := by
  refine ⟨fun j k => before_ofOffset, fun k hk => ?_, fun k hk => ?_, fun above k _ => ?_⟩
  · have hcolumn := column_add_lineStart hk
    have hstart : lineStart text k ≤ k := lineStart_le
    exact ⟨line_ofOffset, hstart, by omega, toOffset_ofOffset hk⟩
  · rw [ofOffset_of_length_le hk, ofOffset_of_length_le (Nat.le_refl _)]
  · rw [Nat.add_comm _ k, ofOffset_append_line, Nat.add_assoc]

/-- On a line feed, just after it, and at the end of a text that ends in an empty line. -/
theorem ofOffset_faithful_feeds :
    (⟨1, 2⟩ : Position).Before ⟨2, 1⟩ ∧
    ofOffset "a\n\n".toList 1 = ⟨1, 2⟩ ∧ ofOffset "a\n\n".toList 2 = ⟨2, 1⟩ ∧
    toOffset "a\n\n".toList ⟨2, 1⟩ = 2 ∧
    ofOffset "a\n\n".toList 7 = ⟨3, 1⟩ ∧
    ofOffset ("b\n".toList ++ '\n' :: "a\n\n".toList) (2 + 1 + 2) = ⟨4, 1⟩ := by
  obtain ⟨hbefore, hplace, hpast, habove⟩ := ofOffset_faithful "a\n\n".toList
  exact ⟨hbefore 1 2 (by decide) (by decide), rfl, rfl, (hplace 2 (by decide)).2.2.2,
    hpast 7 (by decide), habove "b\n".toList 2 (by decide)⟩

end Planetarium.Text.Position
