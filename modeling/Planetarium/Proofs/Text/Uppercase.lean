import Planetarium.Text.Blank
import Planetarium.Text.Uppercase

/-!
# Upper case and the marks of a list

Commas and white space have no other case, and no letter becomes one of them in upper case.  So a
text can be cut at its commas and rid of the white space at its ends before it is put into upper
case or after.
-/
namespace Planetarium.Text

/-- The code points of the comma and of white space. -/
def markCodes : List Nat := 0x2C :: blankCodes

/-- The character is a comma or white space. -/
def isMark (c : Char) : Bool := markCodes.contains c.toNat

/-- The marks are commas and blanks. -/
theorem isMark_eq (c : Char) : isMark c = (c == ',' || isBlank c) := by
  have hcomma : c.toNat = 0x2C ↔ c = ',' := by
    rw [← Char.toNat_inj]
    rfl
  rw [isMark, markCodes, List.contains_cons, isBlank]
  congr 1
  rw [Bool.eq_iff_iff, beq_iff_eq, beq_iff_eq, hcomma]

/-- No run of letters has a mark in it or among its capitals. -/
theorem runs_without_marks : ∀ r ∈ uppercaseRuns.toList, ∀ k ∈ markCodes,
    ¬ (r.first ≤ k ∧ k ≤ r.last) ∧ ¬ (r.first + r.shift ≤ k ∧ k ≤ r.last + r.shift) := by
  decide +kernel

/-- Nor has a letter with several capitals. -/
theorem sequences_without_marks : ∀ e ∈ uppercaseSequences.toList,
    e.1 ∉ markCodes ∧ e.2 ≠ [] ∧ ∀ k ∈ e.2, k ∉ markCodes := by
  decide +kernel

theorem not_isMark_ofNat {n : Nat} (h : n ∉ markCodes) : isMark (Char.ofNat n) = false := by
  have hcode : (Char.ofNat n).toNat ∉ markCodes := by
    by_cases hvalid : n.isValidChar
    · rw [Char.ofNat, dif_pos hvalid]
      exact h
    · rw [Char.ofNat, dif_neg hvalid]
      decide
  simpa [isMark] using hcode

/-- A mark has no capital. -/
theorem uppercaseOf_of_isMark {c : Char} (h : isMark c) : uppercaseOf c = [c] := by
  have hmem : c.toNat ∈ markCodes := by simpa [isMark] using h
  have hsequence : uppercaseSequences.find? (·.1 == c.toNat) = none := by
    rw [← Array.find?_toList, List.find?_eq_none]
    intro e he heq
    rw [beq_iff_eq] at heq
    exact (sequences_without_marks e he).1 (heq ▸ hmem)
  have hrun : uppercaseRuns.find? (·.holds c.toNat) = none := by
    rw [← Array.find?_toList, List.find?_eq_none]
    intro r hr hholds
    simp only [UppercaseRun.holds, Bool.and_eq_true, decide_eq_true_eq] at hholds
    exact (runs_without_marks r hr _ hmem).1 hholds.1
  rw [uppercaseOf, hsequence, hrun]

/-- Every other character has capitals that are no marks. -/
theorem uppercaseOf_of_not_isMark {c : Char} (h : isMark c = false) :
    uppercaseOf c ≠ [] ∧ ∀ d ∈ uppercaseOf c, isMark d = false := by
  unfold uppercaseOf
  split
  · rename_i code codes hfind
    rw [← Array.find?_toList] at hfind
    obtain ⟨-, hne, hcodes⟩ := sequences_without_marks _ (List.mem_of_find?_eq_some hfind)
    refine ⟨by simpa using hne, List.forall_mem_map.mpr fun k hk => ?_⟩
    exact not_isMark_ofNat (hcodes k hk)
  · split
    · rename_i r hfind
      rw [← Array.find?_toList] at hfind
      have hholds := List.find?_some hfind
      simp only [UppercaseRun.holds, Bool.and_eq_true, decide_eq_true_eq] at hholds
      refine ⟨List.cons_ne_nil _ _, List.forall_mem_singleton.mpr (not_isMark_ofNat fun hmem => ?_)⟩
      have hnone := (runs_without_marks r (List.mem_of_find?_eq_some hfind) _ hmem).2
      -- a code point shifted below zero would be cut off there, where no mark is
      have hmark : ∀ k ∈ markCodes, 0 < k := by decide
      have := hmark _ hmem
      omega
    · exact ⟨List.cons_ne_nil _ _, List.forall_mem_singleton.mpr h⟩

/-! ## Replacing characters but for the marks -/

/-- A list is a piece without the separator, or such a piece, the separator and another list. -/
theorem splitOn_induction {α : Type} [DecidableEq α] (a : α) {motive : List α → Prop}
    (single : ∀ piece, a ∉ piece → motive piece)
    (more : ∀ piece rest, a ∉ piece → motive rest → motive (piece ++ a :: rest)) (xs : List α) :
    motive xs := by
  by_cases h : a ∈ xs
  · obtain ⟨piece, rest, rfl, hpiece⟩ := List.eq_append_cons_of_mem h
    exact more piece rest hpiece (splitOn_induction a single more rest)
  · exact single xs h
termination_by xs.length

/-- Characters are replaced by texts of other characters, and marks stay as they are. -/
structure KeepsMarks (f : Char → List Char) : Prop where
  of_isMark : ∀ c, isMark c → f c = [c]
  ne_nil : ∀ c, f c ≠ []
  not_isMark : ∀ c, isMark c = false → ∀ d ∈ f c, isMark d = false

/-- Writing capitals keeps marks and makes none. -/
theorem keepsMarks_uppercaseOf : KeepsMarks uppercaseOf where
  of_isMark _ := uppercaseOf_of_isMark
  ne_nil c := by
    cases h : isMark c with
    | true =>
      rw [uppercaseOf_of_isMark h]
      exact List.cons_ne_nil _ _
    | false => exact (uppercaseOf_of_not_isMark h).1
  not_isMark _ h := (uppercaseOf_of_not_isMark h).2

section Replacing
variable {f : Char → List Char} (hf : KeepsMarks f) (text : List Char)
include hf

theorem KeepsMarks.reverse : KeepsMarks (List.reverse ∘ f) where
  of_isMark c h := by simp [hf.of_isMark c h]
  ne_nil c := by simpa using hf.ne_nil c
  not_isMark c h d hd := hf.not_isMark c h d (List.mem_reverse.mp hd)

/-- What is no mark of some kind is replaced by none. -/
theorem KeepsMarks.not_mark {p : Char → Prop} (hp : ∀ c, p c → isMark c) {c d : Char} (h : ¬ p c)
    (hd : d ∈ f c) : ¬ p d := by
  intro hpd
  cases hmark : isMark c with
  | true =>
    rw [hf.of_isMark c hmark, List.mem_singleton] at hd
    exact h (hd ▸ hpd)
  | false =>
    have hnot := hf.not_isMark c hmark d hd
    rw [hp d hpd] at hnot
    cases hnot

theorem KeepsMarks.not_isBlank {c d : Char} (h : isBlank c = false) (hd : d ∈ f c) :
    isBlank d = false := by
  have hp : ∀ c, isBlank c → isMark c := fun c hc => by simp [isMark_eq, hc]
  simpa using hf.not_mark hp (by simp [h]) hd

theorem KeepsMarks.ne_comma {c d : Char} (h : c ≠ ',') (hd : d ∈ f c) : d ≠ ',' :=
  hf.not_mark (p := (· = ',')) (fun c hc => by simp [isMark_eq, hc]) h hd

theorem KeepsMarks.dropWhile_flatMap :
    (text.flatMap f).dropWhile isBlank = (text.dropWhile isBlank).flatMap f := by
  induction text with
  | nil => rfl
  | cons c text ih =>
    cases hblank : isBlank c with
    | true =>
      have hmark : isMark c := by simp [isMark_eq, hblank]
      simp [hf.of_isMark c hmark, hblank, ih]
    | false =>
      obtain ⟨d, rest, hd⟩ := List.exists_cons_of_ne_nil (hf.ne_nil c)
      have hstop : isBlank d = false := hf.not_isBlank hblank (by simp [hd])
      simp [hblank, hd, hstop]

/-- A change of characters that keeps marks may be made before or after stripping. -/
theorem KeepsMarks.strip_flatMap : strip (text.flatMap f) = (strip text).flatMap f := by
  rw [strip, hf.dropWhile_flatMap, List.reverse_flatMap, hf.reverse.dropWhile_flatMap,
    List.reverse_flatMap, strip]
  congr 1
  funext c
  exact List.reverse_reverse (f c)

/-- So may it be made before or after cutting at commas. -/
theorem KeepsMarks.splitOn_flatMap :
    (text.flatMap f).splitOn ',' = (text.splitOn ',').map (·.flatMap f) := by
  have hcomma : f ',' = [','] := hf.of_isMark ',' (by decide)
  have hword {word : List Char} (h : ',' ∉ word) : ',' ∉ word.flatMap f := by
    intro hmem
    obtain ⟨c, hc, hd⟩ := List.mem_flatMap.mp hmem
    exact hf.ne_comma (fun heq => h (heq ▸ hc)) hd rfl
  induction text using splitOn_induction ',' with
  | single word h => rw [List.splitOn_eq_singleton h, List.splitOn_eq_singleton (hword h)]; rfl
  | more word rest h ih =>
    rw [List.flatMap_append, List.flatMap_cons, hcomma, List.singleton_append,
      List.splitOn_append_cons_self_of_not_mem (hword h), ih,
      List.splitOn_append_cons_self_of_not_mem h, List.map_cons]

end Replacing

section Uppercase
variable (text : List Char)

/-- Capitals are stripped as their letters are. -/
theorem strip_uppercase : strip (uppercase text) = uppercase (strip text) :=
  keepsMarks_uppercaseOf.strip_flatMap text

/-- And cut as their letters are. -/
theorem splitOn_uppercase : (uppercase text).splitOn ',' = (text.splitOn ',').map uppercase :=
  keepsMarks_uppercaseOf.splitOn_flatMap text

@[simp] theorem uppercase_eq_nil : uppercase text = [] ↔ text = [] := by
  rw [uppercase, List.flatMap_eq_nil_iff, List.eq_nil_iff_forall_not_mem]
  exact forall₂_congr fun c _ => iff_false_intro (keepsMarks_uppercaseOf.ne_nil c)

end Uppercase

end Planetarium.Text
