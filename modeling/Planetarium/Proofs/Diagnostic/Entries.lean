import Planetarium.Diagnostic.Policy
import Planetarium.Proofs.Grammar.Reads
import Planetarium.Proofs.Text.Uppercase
import Mathlib.Logic.Basic

/-!
# What a list of codes names

A word stands in a list by itself if there is nothing but white space around it up to the next
commas or the ends of the list.  A list names these words in upper case, and this is all that the
codes of a list depend on.
-/
namespace Planetarium.Policy
open Text Parsing Grammar

/-- The word can be read from a list: it has no comma in it and no white space at its ends. -/
structure IsWord (word : List Char) : Prop where
  ne_nil : word ≠ []
  no_comma : ',' ∉ word
  head : ∀ c ∈ word.head?, isBlank c = false
  last : ∀ c ∈ word.getLast?, isBlank c = false

/-- The word stands in the list by itself. -/
def StandsIn (word list : List Char) : Prop :=
  IsWord word ∧ ∃ before left right after, list = before ++ (left ++ word ++ right) ++ after ∧
    (∀ c ∈ left ++ right, isBlank c) ∧
    (∀ c ∈ before.getLast?, c = ',') ∧ (∀ c ∈ after.head?, c = ',')

/-- A word of the list is the text in upper case. -/
def Names (list text : String) : Prop :=
  ∃ word, StandsIn word list.toList ∧ String.ofList (uppercase word) = text

/-! ## Between the commas -/

/-- A piece stands between two commas, or the ends of the text. -/
theorem mem_splitOn_comma {piece list : List Char} : piece ∈ list.splitOn ',' ↔
    ',' ∉ piece ∧ ∃ before after, list = before ++ piece ++ after ∧
      (∀ c ∈ before.getLast?, c = ',') ∧ (∀ c ∈ after.head?, c = ',') := by
  constructor
  · intro h
    induction list using splitOn_induction ',' with
    | single word hword =>
      rw [List.splitOn_eq_singleton hword, List.mem_singleton] at h
      subst h
      exact ⟨hword, [], [], by simp⟩
    | more word rest hword ih =>
      rw [List.splitOn_append_cons_self_of_not_mem hword, List.mem_cons] at h
      rcases h with rfl | h
      · exact ⟨hword, [], ',' :: rest, by simp⟩
      · obtain ⟨hpiece, before, after, rfl, hbefore, hafter⟩ := ih h
        refine ⟨hpiece, word ++ ',' :: before, after, by simp, ?_, hafter⟩
        cases before with
        | nil => simp
        | cons d before => simpa [List.getLast?_cons_cons] using hbefore
  · rintro ⟨hpiece, before, after, rfl, hbefore, hafter⟩
    have hfirst : piece ∈ (piece ++ after).splitOn ',' := by
      cases after with
      | nil =>
        rw [List.append_nil, List.splitOn_eq_singleton hpiece]
        exact List.mem_singleton_self _
      | cons c after =>
        obtain rfl := hafter c rfl
        rw [List.splitOn_append_cons_self_of_not_mem hpiece]
        exact List.mem_cons_self
    rcases List.eq_nil_or_concat before with rfl | ⟨before, c, rfl⟩
    · exact hfirst
    · obtain rfl := hbefore c (by simp)
      rw [List.append_assoc, List.concat_eq_append, ← List.append_cons,
        List.splitOn_append_cons_self]
      exact List.mem_append_right _ hfirst

/-! ## Without the white space -/

theorem exists_strip (piece : List Char) : ∃ left right, piece = left ++ strip piece ++ right ∧
    (∀ c ∈ left ++ right, isBlank c) ∧ (∀ c ∈ (strip piece).head?, isBlank c = false) ∧
    (∀ c ∈ (strip piece).getLast?, isBlank c = false) := by
  have hrest : piece.dropWhile isBlank =
      strip piece ++ ((piece.dropWhile isBlank).reverse.takeWhile isBlank).reverse := by
    rw [strip, ← List.reverse_append, List.takeWhile_append_dropWhile, List.reverse_reverse]
  refine ⟨piece.takeWhile isBlank, ((piece.dropWhile isBlank).reverse.takeWhile isBlank).reverse,
    ?_, fun c hc => ?_, fun c hc => ?_, fun c hc => ?_⟩
  · rw [List.append_assoc, ← hrest, List.takeWhile_append_dropWhile]
  · rw [List.mem_append, List.mem_reverse] at hc
    exact hc.elim (List.all_eq_true.mp List.all_takeWhile c)
      (List.all_eq_true.mp List.all_takeWhile c)
  · refine head_dropWhile isBlank piece c ?_
    rw [hrest, List.head?_append, Option.mem_def.mp hc]
    rfl
  · rw [strip, List.getLast?_reverse] at hc
    exact head_dropWhile isBlank _ c hc

theorem strip_surrounded {left word right : List Char} (hblank : ∀ c ∈ left ++ right, isBlank c)
    (hword : IsWord word) : strip (left ++ word ++ right) = word := by
  obtain ⟨hleft, hright⟩ := List.forall_mem_append.mp hblank
  have hstart : (word ++ right).dropWhile isBlank = word ++ right := by
    refine dropWhile_of_head fun c hc => hword.head c ?_
    obtain ⟨d, ds, rfl⟩ := List.exists_cons_of_ne_nil hword.ne_nil
    exact hc
  have hend : word.reverse.dropWhile isBlank = word.reverse :=
    dropWhile_of_head fun c hc => hword.last c (by rwa [List.head?_reverse] at hc)
  rw [strip, List.append_assoc, List.dropWhile_append_of_pos hleft, hstart, List.reverse_append,
    List.dropWhile_append_of_pos fun c hc => hright c (List.mem_reverse.mp hc), hend,
    List.reverse_reverse]

/-- The words of a list are what is left of the pieces between its commas. -/
theorem standsIn_iff {word list : List Char} :
    StandsIn word list ↔ word ≠ [] ∧ ∃ piece ∈ list.splitOn ',', strip piece = word := by
  constructor
  · rintro ⟨hword, before, left, right, after, rfl, hblank, hbefore, hafter⟩
    have hcomma : ',' ∉ left ++ right := fun hmem => absurd (hblank _ hmem) (by decide)
    refine ⟨hword.ne_nil, left ++ word ++ right, mem_splitOn_comma.mpr
      ⟨?_, before, after, rfl, hbefore, hafter⟩, strip_surrounded hblank hword⟩
    simpa [hword.no_comma] using hcomma
  · rintro ⟨hne, piece, hmem, rfl⟩
    obtain ⟨hpiece, before, after, rfl, hbefore, hafter⟩ := mem_splitOn_comma.mp hmem
    obtain ⟨left, right, heq, hblank, hhead, hlast⟩ := exists_strip piece
    have hcomma : ',' ∉ strip piece := fun hin => hpiece (by rw [heq]; simp [hin])
    exact ⟨⟨hne, hcomma, hhead, hlast⟩, before, left, right, after, by rw [← heq], hblank, hbefore,
      hafter⟩

theorem mem_tokens {list t : String} : t ∈ tokens list ↔ Names list t := by
  simp only [tokens, Names, standsIn_iff, List.mem_map, List.mem_filter, Bool.not_eq_true',
    List.isEmpty_eq_false_iff, Function.comp_apply]
  exact exists_congr fun word => and_congr_left fun _ => and_comm

theorem names_iff {list t : String} : Names list t ↔
    t.toList ≠ [] ∧ ∃ piece ∈ list.toList.splitOn ',', uppercase (strip piece) = t.toList := by
  constructor
  · rintro ⟨word, hword, rfl⟩
    obtain ⟨hne, piece, hpiece, rfl⟩ := standsIn_iff.mp hword
    rw [String.toList_ofList]
    exact ⟨mt (uppercase_eq_nil _).mp hne, piece, hpiece, rfl⟩
  · rintro ⟨hne, piece, hpiece, ht⟩
    have hstrip : strip piece ≠ [] := fun hnil => hne (by rw [← ht, hnil]; rfl)
    refine ⟨strip piece, standsIn_iff.mpr ⟨hstrip, piece, hpiece, rfl⟩, ?_⟩
    rw [ht, String.ofList_toList]

/-! ## Lists put together -/

theorem names_append {a b t : String} : Names (a ++ "," ++ b) t ↔ Names a t ∨ Names b t := by
  have hlist : (a ++ "," ++ b).toList = a.toList ++ ',' :: b.toList := by simp
  simp only [names_iff, hlist, List.splitOn_append_cons_self, List.mem_append, or_and_right,
    exists_or, and_or_left]

/-- The list made of some pieces. -/
def listOf (pieces : List (List Char)) : String := String.ofList ([','].intercalate pieces)

theorem names_listOf {pieces : List (List Char)} (h : ∀ piece ∈ pieces, ',' ∉ piece) {t : String} :
    Names (listOf pieces) t ↔
      t.toList ≠ [] ∧ ∃ piece ∈ pieces, uppercase (strip piece) = t.toList := by
  rw [names_iff, listOf, String.toList_ofList]
  refine and_congr_right fun hne => ?_
  cases pieces with
  | nil => simpa [uppercase] using hne
  | cons piece pieces => rw [List.splitOn_intercalate ',' h (List.cons_ne_nil _ _)]

/-- Pieces that come to the same words make lists that name the same texts. -/
theorem names_listOf_congr {pieces pieces' : List (List Char)}
    (hcomma : ∀ piece ∈ pieces ++ pieces', ',' ∉ piece)
    (hwords : ∀ word ≠ [], (∃ piece ∈ pieces, uppercase (strip piece) = word) ↔
      ∃ piece ∈ pieces', uppercase (strip piece) = word) (t : String) :
    Names (listOf pieces) t ↔ Names (listOf pieces') t := by
  obtain ⟨hpieces, hpieces'⟩ := List.forall_mem_append.mp hcomma
  rw [names_listOf hpieces, names_listOf hpieces']
  exact and_congr_right (hwords t.toList)

/-! ## Letter case -/

theorem names_congr_uppercase {a b : String} (h : uppercase a.toList = uppercase b.toList)
    (t : String) : Names a t ↔ Names b t := by
  have hupper {list : String} : Names list t ↔ t.toList ≠ [] ∧
      ∃ piece ∈ (uppercase list.toList).splitOn ',', strip piece = t.toList := by
    simp [names_iff, splitOn_uppercase, strip_uppercase]
  rw [hupper, hupper, h]

end Planetarium.Policy
