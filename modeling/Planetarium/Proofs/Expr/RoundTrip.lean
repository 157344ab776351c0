import Planetarium.Proofs.Document.Depth
import Planetarium.Proofs.Document.Printer
import Planetarium.Proofs.Grammar.Coupling

/-!
# Expressions that are written are read back

The text of an expression has a pair of parentheses for each of its calls and operations and no
other brackets, so it nests just as deep as the expression does.  It is read back as it was if the
limits allow that much and there is room for it, and rejected for its nesting otherwise.

Under lower limits a text that can be read is read as under higher ones or rejected for its nesting
(`CappedResult`).  That it is rejected where it should be is because no text is read that nests
deeper than the limits allow, or than there is room for (`Reads.nested`).
-/
namespace Planetarium
open Parsing Text Decimal

mutual
theorem Expr.misplaced_of_wellFormed (e : Expr) (hw : e.wellFormed) : e.misplaced = [] := by
  cases e with
  | ident name | number x => rfl
  | call function args =>
    rw [Expr.wellFormed, Bool.and_eq_true] at hw
    exact Expr.misplacedAll_of_wellFormed args hw.2
  | binary op left right =>
    rw [Expr.wellFormed, Bool.and_eq_true, Bool.and_eq_true] at hw
    rw [Expr.misplaced, Expr.misplaced_of_wellFormed left hw.1.2,
      Expr.misplaced_of_wellFormed right hw.2]
    rfl
  | stray word => contradiction

theorem Expr.misplacedAll_of_wellFormed (es : List Expr) (hw : Expr.wellFormedAll es) :
    Expr.misplacedAll es = [] := by
  cases es with
  | nil => rfl
  | cons e es =>
    rw [Expr.wellFormedAll, Bool.and_eq_true] at hw
    rw [Expr.misplacedAll, Expr.misplaced_of_wellFormed e hw.1,
      Expr.misplacedAll_of_wellFormed es hw.2]
    rfl
end

/-! ## How deep the text nests -/

/-- The stretch is balanced, and so many brackets are open in it at once. -/
structure Nests (w : List Char) (n : Nat) : Prop where
  balanced : Balanced w
  deepest : ∀ k, deepest false k w = k + n

variable {v w : List Char} {m n : Nat}

theorem nests_of_isPlain (h : w.all isPlain) : Nests w 0 :=
  ⟨balanced_of_isPlain h, fun _ => deepest_of_isPlain h⟩

/-- Two texts that nest do so one after the other, as deep as the deeper one. -/
theorem Nests.append (hv : Nests v m) (hw : Nests w n) : Nests (v ++ w) (max m n) where
  balanced := .append hv.balanced hw.balanced
  deepest k := by
    rw [hv.balanced.deepest_append, hv.deepest, hw.deepest]
    omega

/-- In parentheses a text nests one deeper. -/
theorem Nests.parenthesized (hw : Nests w n) : Nests ('(' :: (w ++ [')'])) (n + 1) where
  balanced := .enclosed rfl rfl hw.balanced
  deepest k := by
    rw [deepest_cons_of_opens rfl, hw.balanced.deepest_append, hw.deepest,
      deepest_cons_of_closes rfl, deepest_nil]
    omega

theorem nests_name {name : String} (h : isName name.toList) : Nests name.toList 0 :=
  nests_of_isPlain (all_isPlain_of (all_isWordChar h) (by decide))

theorem nests_shortestText {x : Float} (h : isFinite x) : Nests (shortestText x).toList 0 := by
  obtain ⟨numeral, hsplit, -, -⟩ := number_shortestText (t := []) h nofun
  have htext := Numeral.text_append_of_split? hsplit
  rw [List.append_nil, List.append_nil] at htext
  rw [← htext]
  exact nests_of_isPlain (all_isPlain_text (Numeral.proper_of_split? hsplit))

theorem nests_operator (op : Operator) : Nests [' ', op.symbol, ' '] 0 :=
  nests_of_isPlain (by cases op <;> rfl)

mutual
/-- The text of an expression nests as deep as the expression. -/
theorem Expr.nests_chars (e : Expr) (hw : e.wellFormed) : Nests e.chars e.nesting := by
  cases e with
  | ident name => exact nests_name hw
  | number x => exact nests_shortestText hw
  | call function args =>
    rw [Expr.wellFormed, Bool.and_eq_true] at hw
    have h := (nests_name hw.1).append (Expr.nests_charsAll args hw.2).parenthesized
    rw [Nat.zero_max] at h
    simpa [Expr.chars, Expr.nesting] using h
  | binary op left right =>
    rw [Expr.wellFormed, Bool.and_eq_true, Bool.and_eq_true] at hw
    have hleft := Expr.nests_chars left hw.1.2
    have hright := Expr.nests_chars right hw.2
    have h := (hleft.append ((nests_operator op).append hright)).parenthesized
    rw [Nat.zero_max] at h
    simpa [Expr.chars, Expr.nesting] using h
  | stray word => contradiction

theorem Expr.nests_charsAll (es : List Expr) (hw : Expr.wellFormedAll es) :
    Nests (Expr.charsAll es) (Expr.nestingAll es) := by
  cases es with
  | nil => exact nests_of_isPlain rfl
  | cons e es =>
    rw [Expr.wellFormedAll, Bool.and_eq_true] at hw
    have he := Expr.nests_chars e hw.1
    have hes := Expr.nests_charsAll es hw.2
    cases es with
    | nil => simpa [Expr.charsAll, Expr.nestingAll] using he
    | cons e' es =>
      have hcomma : Nests [',', ' '] 0 := nests_of_isPlain rfl
      have h := he.append (hcomma.append hes)
      rw [Nat.zero_max] at h
      simpa [Expr.charsAll, Expr.nestingAll] using h
end

/-- **The brackets of an expression are as deep as it nests.** -/
theorem Expr.bracketDepth_chars {e : Expr} (hw : e.wellFormed) :
    bracketDepth e.chars = e.nesting := by
  rw [bracketDepth, (Expr.nests_chars e hw).deepest, Nat.zero_add]

/-! ## How deep a text may nest where it is read -/

namespace Grammar

variable {l : Level} {s t u : List Char} {p : Phrase} {c : Char} {limits : Limits}

/-- Between the two texts brackets stand inside each other no deeper than there is room for, if
there is room for an expression at all. -/
def NestedIn (l : Level) (s t : List Char) : Prop :=
  ∃ w n, s = w ++ t ∧ Nests w n ∧
    (l.lacks Level.expressionFrames = false → l.lacks (framesForNesting n) = false)

theorem nestedIn_of_isPlain (hs : s = w ++ t) (hw : w.all isPlain) : NestedIn l s t :=
  ⟨w, 0, hs, nests_of_isPlain hw, id⟩

theorem NestedIn.refl : NestedIn l s s := nestedIn_of_isPlain (w := []) rfl rfl

theorem NestedIn.trans (h : NestedIn l s t) (h' : NestedIn l t u) : NestedIn l s u := by
  obtain ⟨v, m, rfl, hv, hm⟩ := h
  obtain ⟨w, n, rfl, hw, hn⟩ := h'
  refine ⟨v ++ w, max m n, by rw [List.append_assoc], hv.append hw, fun hroom => ?_⟩
  rcases Nat.le_total m n with hle | hle
  · rw [Nat.max_eq_right hle]
    exact hn hroom
  · rw [Nat.max_eq_left hle]
    exact hm hroom

/-- A group, or a call from its parenthesis on, takes the frames of an expression more than what it
holds. -/
theorem NestedIn.parenthesized (h : NestedIn l.inGroup s (')' :: t))
    (hroom : l.inGroup.lacks Level.expressionFrames = false) : NestedIn l ('(' :: s) t := by
  obtain ⟨w, n, rfl, hw, hn⟩ := h
  refine ⟨'(' :: (w ++ [')']), n + 1, by simp, hw.parenthesized, fun _ => ?_⟩
  rw [framesForNesting_succ, Nat.add_comm, ← Level.lacks_inGroup]
  exact hn hroom

theorem nestedIn_trim : NestedIn l s (trim l s) := by
  refine nestedIn_of_isPlain List.takeWhile_append_dropWhile.symm ?_
  split
  · exact all_isPlain_of List.all_takeWhile (by decide)
  · exact all_isPlain_of List.all_takeWhile (by decide)

theorem nestedIn_operator (h : isOperator c) : NestedIn l (c :: t) t := by
  refine nestedIn_of_isPlain (w := [c]) rfl ?_
  rw [List.all_cons, isPlain_of h (by decide)]
  rfl

theorem nestedIn_afterComma : NestedIn l t (afterComma l t) := by
  by_cases h : ∃ u, t = ',' :: u
  · obtain ⟨u, rfl⟩ := h
    exact (nestedIn_of_isPlain (w := [',']) rfl rfl).trans nestedIn_trim
  · rw [afterComma]
    · exact nestedIn_trim
    · exact fun u hu => h ⟨u, hu⟩

/-- What is known of the brackets of a phrase. -/
def Phrase.Nested (l : Level) (s : List Char) : Phrase → List Char → Prop
  | .atom _, t | .factor _, t | .term _, t | .expression _, t => NestedIn l s t
  | .arguments _, t => NestedIn l s (')' :: t)
  | .command _, _ | .args _, _ | .commands _, _ => True

/-- An expression that is derived nests no deeper than there is room for. -/
theorem Reads.nested (h : Reads l s p t) : p.Nested l s t := by
  induction h with
  | number h =>
    obtain ⟨numeral, hs, -, -⟩ := h
    exact nestedIn_of_isPlain (Numeral.text_append_of_split? hs).symm
      (all_isPlain_text (Numeral.proper_of_split? hs))
  | name h _ =>
    exact nestedIn_of_isPlain h.text_eq (all_isPlain_of (all_isWordChar h.isName) (by decide))
  | @call l s name t u v es h ht _ hes ih =>
    have hname : NestedIn l s t :=
      nestedIn_of_isPlain h.text_eq (all_isPlain_of (all_isWordChar h.isName) (by decide))
    have hopen : NestedIn l t ('(' :: u) := ht ▸ nestedIn_trim
    exact (hname.trans hopen).trans ((nestedIn_trim.trans ih).parenthesized hes.room_arguments)
  | group _ he ih => exact ih.parenthesized he.room_expression
  | factor _ ih => exact (nestedIn_trim.trans ih).trans nestedIn_trim
  | term _ ih => exact ih
  | expression _ _ ih => exact ih
  | product _ hop _ ih ihr =>
    exact (ih.trans (nestedIn_operator (by simp [isOperator, hop]))).trans ihr
  | sum _ hop _ ih ihr =>
    exact (ih.trans (nestedIn_operator (by simp [isOperator, hop]))).trans ihr
  | noArguments _ => exact .refl
  | argument _ _ _ ih ihs => exact (ih.trans nestedIn_afterComma).trans ihs
  | _ => trivial

end Grammar

namespace Expr
open Grammar Attempt

variable {limits : Limits} {text : List Char} {e : Expr}

/-- A text that is read as an expression nests no deeper than there is room for. -/
theorem framesForNesting_bracketDepth_le (h : ofChars limits text = .ok e) :
    ∀ room ∈ limits.room, framesForNesting (bracketDepth text) ≤ room := by
  have hreads := ofChars_expression.mp h
  obtain ⟨w, n, hw, hn, hroom⟩ := hreads.nested
  rw [List.append_nil] at hw
  subst hw
  rw [bracketDepth, hn.deepest, Nat.zero_add]
  intro room hr
  have := Level.lacks_eq_false.mp (hroom hreads.room_expression) room hr
  rwa [Nat.zero_add] at this

/-- An expression that the limits allow is read back. -/
theorem ofChars_chars (hw : e.wellFormed) (hdepth : e.nesting ≤ limits.depth)
    (hroom : ∀ room ∈ limits.room, e.readingFrames ≤ room) : ofChars limits e.chars = .ok e := by
  have hfits : Fits { limits, multiline := true } e.nesting e.readingFrames :=
    ⟨by simpa using hdepth, by simpa using hroom⟩
  have h := reads_chars e (t := []) hw hfits ⟨nofun, nofun⟩
  rw [List.append_nil] at h
  exact ofChars_expression.mpr (h.expression_of_atom hfits.lacks_expressionFrames)

/-- An expression that the limits do not allow is rejected for its nesting. -/
theorem parse_chars_error (hw : e.wellFormed) (hdepth : 0 ≤ limits.depth)
    (h : limits.depth < e.nesting ∨ ∃ room ∈ limits.room, room < e.readingFrames) :
    ∃ err, parse (String.ofList e.chars) limits = .error err ∧
      err.fault.cause.errorClass = .depthLimitExceeded := by
  -- under limits that allow it, and no less than these, it is read back
  have hlim : limits.AtMost { depth := max limits.depth e.nesting, room := none } :=
    ⟨Int.le_max_left _ _, nofun⟩
  have hread : parse (String.ofList e.chars)
      { depth := max limits.depth e.nesting, room := none } = .ok e := by
    refine mapError_eq_ok.mpr ?_
    rw [String.toList_ofList]
    exact ofChars_chars hw (Int.le_max_right _ _) nofun
  have hcapped := capped_parse (String.ofList e.chars) hlim
  rw [hread, String.toList_ofList, bracketDepth_chars hw] at hcapped
  rcases hcapped.of_ok with hok | ⟨err, herr, ⟨-, hcause⟩ | hcause⟩
  · -- so under these it would be read back as well, and its brackets would be allowed
    rw [hok] at hcapped
    have hnesting := hcapped.ok.2
    have hframes := framesForNesting_bracketDepth_le (mapError_eq_ok.mp hok)
    rw [String.toList_ofList, bracketDepth_chars hw] at hframes
    rcases h with h | ⟨room, hr, hlt⟩
    · omega
    · exact absurd (hframes room hr) (Nat.not_le_of_lt hlt)
  · exact ⟨err, herr, by rw [hcause]; rfl⟩
  · exact ⟨err, herr, by rw [hcause]; rfl⟩

/-- A well-formed expression has a text. -/
theorem format_eq {e : Expr} (hw : e.wellFormed) : e.format = .ok (String.ofList e.chars) := by
  rw [format, misplaced_of_wellFormed e hw]
  rfl

/-- A call, with a negative zero and a numeral in scientific form among its operands. -/
def sample : Expr :=
  .call "max" [.binary .sub (.ident "r") (.number (-0.0)),
    .binary .mul (.number (-2.5)) (.number 1e22)]

end Expr
end Planetarium
