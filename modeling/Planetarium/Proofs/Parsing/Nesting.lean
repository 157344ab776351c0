import Planetarium.Proofs.Decimal.Numeral

/-!
# Brackets inside each other

How deep a text nests can be told without reading it.  All brackets share one counter, which an
opening one raises and a closing one lowers again; what stands between quotes does not count
(`deepest`).  Over a balanced stretch the counter ends where it began.

A reading under limits is a reading under any greater limits, cut short where they do not allow one
more bracket or where there is no room (`Capped`).  Two bounds are carried along, so that they are
proved for every attempt at once: the limit on the nesting cuts the reading short only if the text
ahead nests deeper, and what a rule has matched does not.
-/
namespace Planetarium.Parsing
open Text Decimal

/-- The character opens a block, a group or a call. -/
def opens (c : Char) : Bool := c = '(' || c = '{'

/-- The character closes a block, a group or a call. -/
def closes (c : Char) : Bool := c = ')' || c = '}'

/-- The character is neither a bracket nor a quote. -/
def isPlain (c : Char) : Bool := !opens c && !closes c && c != '"'

/-- The greatest number of brackets open at once from here on, where `k` are open here; `q` tells
whether a quote is open as well. -/
def deepest : (q : Bool) → (k : Nat) → List Char → Nat
  | _, k, [] => k
  | q, k, c :: cs =>
    if c = '"' then deepest (!q) k cs
    else if q then deepest q k cs
    else if opens c then deepest false (k + 1) cs
    else if closes c then max k (deepest false (k - 1) cs)
    else deepest false k cs

/-- The greatest number of brackets open at once in a text. -/
def bracketDepth (text : List Char) : Nat := deepest false 0 text

/-- Every bracket of the stretch is closed in it, and every quote. -/
inductive Balanced : List Char → Prop
  | nil : Balanced []
  | plain {c : Char} : isPlain c → Balanced [c]
  | quoted {text : List Char} : '"' ∉ text → Balanced ('"' :: (text ++ ['"']))
  | enclosed {o c : Char} {w : List Char} : opens o → closes c → Balanced w →
    Balanced (o :: (w ++ [c]))
  | append {v w : List Char} : Balanced v → Balanced w → Balanced (v ++ w)

variable {q : Bool} {d k : Nat} {c o : Char} {v w text : List Char} {s t u : Cursor}

/-! ## Counting brackets -/

theorem ne_quote_of_opens (h : opens c) : c ≠ '"' := by
  rintro rfl
  contradiction

theorem ne_quote_of_closes (h : closes c) : c ≠ '"' := by
  rintro rfl
  contradiction

/-- No character opens a bracket and closes one. -/
theorem not_opens_of_closes (h : closes c) : opens c = false := by
  simp only [closes, Bool.or_eq_true, decide_eq_true_eq] at h
  rcases h with rfl | rfl <;> rfl

@[simp] theorem deepest_nil : deepest q k [] = k := by
  cases q <;> rfl

/-- An opening bracket goes one level down. -/
theorem deepest_cons_of_opens (h : opens o) :
    deepest false k (o :: w) = deepest false (k + 1) w := by
  simp [deepest, h, ne_quote_of_opens h]

/-- A closing bracket goes one level up, and the level it leaves counts. -/
theorem deepest_cons_of_closes (h : closes c) :
    deepest false k (c :: w) = max k (deepest false (k - 1) w) := by
  simp [deepest, h, ne_quote_of_closes h, not_opens_of_closes h]

/-- Plain characters do not count. -/
theorem deepest_cons_of_isPlain (h : isPlain c) : deepest false k (c :: w) = deepest false k w := by
  simp only [isPlain, Bool.and_eq_true, Bool.not_eq_true', bne_iff_ne] at h
  simp [deepest, h.1.1, h.1.2, h.2]

/-- A quote begins what does not count. -/
theorem deepest_cons_quote : deepest false k ('"' :: w) = deepest true k w := by
  simp [deepest]

/-- Brackets between quotes do not count. -/
theorem deepest_of_quoted (h : '"' ∉ text) :
    deepest true k (text ++ '"' :: w) = deepest false k w := by
  induction text with
  | nil => simp [deepest]
  | cons c text ih =>
    simp only [List.mem_cons, not_or] at h
    simp [deepest, Ne.symm h.1, ih h.2]

/-- The deepest level is at least the one that is started from. -/
theorem le_deepest : k ≤ deepest q k w := by
  induction w generalizing q k with
  | nil => simp
  | cons c w ih =>
    simp only [deepest]
    split
    · exact ih
    · split
      · exact ih
      · split
        · exact Nat.le_trans (Nat.le_succ k) ih
        · split
          · exact Nat.le_max_left _ _
          · exact ih

/-- A bracket that is not there is not open. -/
theorem deepest_le : deepest q k w ≤ k + w.countP opens := by
  induction w generalizing q k with
  | nil => simp
  | cons c w ih =>
    have hsame := ih (q := q) (k := k)
    have hflip := ih (q := !q) (k := k)
    have hplain := ih (q := false) (k := k)
    have hopen := ih (q := false) (k := k + 1)
    have hclose := ih (q := false) (k := k - 1)
    simp only [deepest, List.countP_cons]
    split
    · omega
    · split
      · omega
      · split
        · omega
        · split <;> omega

/-- Brackets are no deeper than there are opening ones. -/
theorem bracketDepth_le : bracketDepth text ≤ text.countP opens := by
  have := deepest_le (q := false) (k := 0) (w := text)
  rwa [Nat.zero_add] at this

example : bracketDepth "a \x7b n: \"(((\" r: f(2 * (x + 1)) \x7d b \x7b\x7d".toList = 3 := by decide

/-- Behind a balanced stretch as many brackets are open as before it. -/
theorem Balanced.deepest_append (h : Balanced w) :
    deepest false k (w ++ v) = max (deepest false k w) (deepest false k v) := by
  induction h generalizing k v with
  | nil => simp [le_deepest]
  | plain hc =>
    rw [List.singleton_append, deepest_cons_of_isPlain hc, deepest_cons_of_isPlain hc, deepest_nil,
      Nat.max_eq_right le_deepest]
  | quoted hq =>
    rw [List.cons_append, List.append_assoc, deepest_cons_quote, deepest_cons_quote,
      deepest_of_quoted hq, List.singleton_append, deepest_of_quoted hq, deepest_nil,
      Nat.max_eq_right le_deepest]
  | @enclosed o c w ho hc _ ih =>
    have hle : k ≤ deepest false k v := le_deepest
    rw [List.cons_append, List.append_assoc, List.singleton_append, deepest_cons_of_opens ho,
      deepest_cons_of_opens ho, ih, ih, deepest_cons_of_closes hc, deepest_cons_of_closes hc,
      Nat.add_sub_cancel, deepest_nil]
    omega
  | append _ _ ihv ihw => rw [List.append_assoc, ihv, ihw, ihv, Nat.max_assoc]

/-- A text of plain characters is balanced. -/
theorem balanced_of_isPlain (h : w.all isPlain) : Balanced w := by
  induction w with
  | nil => exact .nil
  | cons c w ih =>
    rw [List.all_cons, Bool.and_eq_true] at h
    exact .append (.plain h.1) (ih h.2)

theorem deepest_of_isPlain (h : w.all isPlain) : deepest false k w = k := by
  induction w with
  | nil => simp
  | cons c w ih =>
    rw [List.all_cons, Bool.and_eq_true] at h
    rw [deepest_cons_of_isPlain h.1, ih h.2]

/-! ## From one place to another -/

/-- Between the two places the text is balanced, and no more than `d` brackets are open in it at
once, where `k` are open around it. -/
def Spans (d k : Nat) (s t : Cursor) : Prop :=
  ∃ w, s.rest = w ++ t.rest ∧ Balanced w ∧ deepest false k w ≤ max k d

theorem spans_of_isPlain (hw : s.rest = w ++ t.rest) (h : w.all isPlain) : Spans d k s t :=
  ⟨w, hw, balanced_of_isPlain h, by rw [deepest_of_isPlain h]; exact Nat.le_max_left _ _⟩

theorem Spans.refl : Spans d k s s := spans_of_isPlain (w := []) rfl rfl

/-- What spans from here to there and what spans on from there span it all. -/
theorem Spans.trans (h : Spans d k s t) (h' : Spans d k t u) : Spans d k s u := by
  obtain ⟨v, hv, hbv, hlv⟩ := h
  obtain ⟨w, hw, hbw, hlw⟩ := h'
  refine ⟨v ++ w, by rw [hv, hw, List.append_assoc], .append hbv hbw, ?_⟩
  rw [hbv.deepest_append]
  exact Nat.max_le.mpr ⟨hlv, hlw⟩

/-- What is ahead of a later place nests no deeper. -/
theorem Spans.deepest_le (h : Spans d k s t) :
    deepest false k t.rest ≤ deepest false k s.rest := by
  obtain ⟨w, hw, hb, -⟩ := h
  rw [hw, hb.deepest_append]
  exact Nat.le_max_right _ _

/-- A bracket, what it holds and the bracket that closes it. -/
theorem Spans.enclosed {i j : Cursor} (h : Spans d (k + 1) i j) (hi : s.rest = o :: i.rest)
    (ho : opens o) (hj : j.rest = c :: t.rest) (hc : closes c) (hd : k + 1 ≤ d) :
    Spans d k s t := by
  obtain ⟨w, hw, hb, hle⟩ := h
  refine ⟨o :: (w ++ [c]), by rw [hi, hw, hj]; simp, .enclosed ho hc hb, ?_⟩
  rw [deepest_cons_of_opens ho, hb.deepest_append, deepest_cons_of_closes hc, deepest_nil]
  omega

/-- A character of a kind that leaves brackets and quotes out is plain. -/
theorem isPlain_of {f : Char → Bool} (h : f c) (hf : ['(', ')', '{', '}', '"'].any f = false) :
    isPlain c := by
  have hne : ∀ x ∈ ['(', ')', '{', '}', '"'], c ≠ x := by
    rintro x hx rfl
    rw [List.any_eq_false] at hf
    exact hf c hx h
  simp only [List.forall_mem_cons] at hne
  simp [isPlain, opens, closes, hne]

/-- No bracket and no quote is among characters of such a kind. -/
theorem all_isPlain_of {f : Char → Bool} (h : w.all f)
    (hf : ['(', ')', '{', '}', '"'].any f = false) : w.all isPlain :=
  List.all_eq_true.mpr fun c hc => isPlain_of (List.all_eq_true.mp h c hc) hf

/-- What is skipped is balanced, if it is no bracket and no quote. -/
theorem spans_skip {p : Char → Bool} (hp : ['(', ')', '{', '}', '"'].any p = false) :
    Spans d k s (s.skip p) :=
  spans_of_isPlain (Cursor.run_append_skip p s).symm (all_isPlain_of List.all_takeWhile hp)

theorem spans_skip_isSpace : Spans d k s (s.skip isSpace) := spans_skip rfl

theorem spans_skip_isLayout : Spans d k s (s.skip isLayout) := spans_skip rfl

theorem Level.spans_skip {l : Level} : Spans d k s (l.skip s) := by
  unfold Level.skip
  split
  · exact spans_skip_isLayout
  · exact spans_skip_isSpace

/-- So is a word. -/
theorem spans_of_word {name : String} (h : Word s.rest name t.rest) : Spans d k s t :=
  spans_of_isPlain h.text_eq (all_isPlain_of (all_isWordChar h.isName) (by decide))

theorem all_isPlain_option {f : Char → Bool} {x : Option Char} (h : ∀ c ∈ x, f c)
    (hf : ['(', ')', '{', '}', '"'].any f = false) : x.toList.all isPlain :=
  List.all_eq_true.mpr fun c hc => isPlain_of (h c (Option.mem_toList.mp hc)) hf

/-- No bracket stands in a numeral. -/
theorem all_isPlain_text {numeral : Numeral} (h : numeral.Proper) : numeral.text.all isPlain := by
  have hsign := all_isPlain_option h.sign (by decide)
  have hrun := all_isPlain_of h.run (by decide)
  simp only [Numeral.text, List.all_append, hsign, hrun, Bool.true_and]
  cases hp : numeral.power with
  | none => rfl
  | some p =>
    have hproper := h.power p hp
    simp only [Option.map_some, Option.getD_some, PowerOfTen.text, List.cons_append,
      List.all_cons, List.all_append, isPlain_of hproper.mark (by decide),
      all_isPlain_option hproper.sign (by decide), all_isPlain_of hproper.digits (by decide),
      Bool.and_self]

/-- So is a number. -/
theorem spans_of_number {x : Float} (h : Number s.rest x t.rest) : Spans d k s t := by
  obtain ⟨numeral, hs, -, -⟩ := h
  exact spans_of_isPlain (Numeral.text_append_of_split? hs).symm
    (all_isPlain_text (Numeral.proper_of_split? hs))

/-- So is a string, whatever brackets stand in it. -/
theorem spans_of_quotation {text : String} (h : Quotation s.rest text t.rest) : Spans d k s t := by
  obtain ⟨hs, hq⟩ := h
  refine ⟨'"' :: (text.toList ++ ['"']), by simp [hs], .quoted hq, ?_⟩
  rw [deepest_cons_quote, deepest_of_quoted hq, deepest_nil]
  exact Nat.le_max_left _ _

theorem spans_after? {word : List Char} (hw : word.all isPlain)
    (h : s.after? word = some t) : Spans d k s t :=
  spans_of_isPlain (Cursor.after?_offset h).2 hw

/-! ## Under limits and under greater ones -/

/-- The text is rejected because of how deep it nests. -/
def Cause.ofNesting : Cause → Bool
  | .nestedTooDeep _ | .stackExhausted _ => true
  | _ => false

/-- The reading stops because of how deep the text nests. -/
def Stop.ofNesting : Stop → Bool
  | .fault f => f.cause.ofNesting
  | .exhausted => true
  | .unexpected => false

/-- The level under other limits. -/
def Level.limited (l : Level) (limits : Limits) : Level := { l with limits }

/-- The first limits allow no more than the second ones. -/
structure Limits.AtMost (lim lim' : Limits) : Prop where
  depth : lim.depth ≤ lim'.depth
  room : lim.room.AtMost lim'.room

namespace Attempt
variable {α β : Type} {n m b b' : Nat} {lim lim' : Limits} {P Q : Cursor → Prop}
  {a a' : Attempt α n}
  {f f' : (value : α) → (next : Cursor) → next.left < n → Attempt β m} {g g' : Unit → Attempt β m}

/-- The first attempt is the second one under lower limits: what it matches ends at a place that
satisfies `P`, and it is cut short only if so many brackets as `b` are not allowed, or where there
is no room. -/
inductive Capped (lim : Limits) (b : Nat) (P : Cursor → Prop) : Attempt α n → Attempt α n → Prop
  | matched {v t h log} : P t → Capped lim b P ⟨.matched v t h, log⟩ ⟨.matched v t h, log⟩
  | mismatched {log} : Capped lim b P ⟨.mismatched, log⟩ ⟨.mismatched, log⟩
  | stopped {reason log} : reason.ofNesting = false →
    Capped lim b P ⟨.stopped reason, log⟩ ⟨.stopped reason, log⟩
  | cut {k log a'} : lim.depth.toNat < b →
    Capped lim b P ⟨.stopped (.fault ⟨.nestedTooDeep lim.depth, k⟩), log⟩ a'
  | exhausted {log a'} : lim.room ≠ none → Capped lim b P ⟨.stopped .exhausted, log⟩ a'

/-- The attempts of a rule at a place with `k` brackets open around it. -/
abbrev CappedAt (lim : Limits) (k : Nat) (s : Cursor) (a a' : Attempt α n) : Prop :=
  Capped lim (deepest false k s.rest) (Spans lim.depth.toNat k s) a a'

theorem capped_accept {v : α} {h : t.left < n} (ht : P t) :
    Capped lim b P (accept v t h) (accept v t h) := .matched ht

theorem capped_mismatch : Capped lim b P (mismatch : Attempt α n) mismatch := .mismatched

theorem capped_miss {e : Expected} : Capped lim b P (miss k e : Attempt α n) (miss k e) :=
  .mismatched

/-- A stop that has nothing to do with nesting is the same under both limits. -/
theorem capped_stop {r : Stop} (h : r.ofNesting = false) :
    Capped lim b P (stop r : Attempt α n) (stop r) := .stopped h

/-- An attempt that does not depend on the limit. -/
theorem capped_self (hp : ∀ v t, a.Gives v t → P t)
    (hr : ∀ r, a.outcome = .stopped r → r.ofNesting = false) : Capped lim b P a a := by
  obtain ⟨_ | _ | _, log⟩ := a
  · exact .matched (hp _ _ ⟨_, rfl⟩)
  · exact .mismatched
  · exact .stopped (hr _ rfl)

/-- What is said of a bound holds of a greater one. -/
theorem Capped.mono (h : Capped lim b P a a') (hb : b ≤ b') (hp : ∀ t, P t → Q t) :
    Capped lim b' Q a a' := by
  cases h with
  | matched ht => exact .matched (hp _ ht)
  | mismatched => exact .mismatched
  | stopped hr => exact .stopped hr
  | cut hd => exact .cut (Nat.lt_of_lt_of_le hd hb)
  | exhausted hr => exact .exhausted hr

/-- Events may come before. -/
theorem Capped.since (h : Capped lim b P a a') (l : List Event) :
    Capped lim b P (a.since l) (a'.since l) := by
  cases h with
  | matched ht => exact .matched ht
  | mismatched => exact .mismatched
  | stopped hr => exact .stopped hr
  | cut hd => exact .cut hd
  | exhausted hr => exact .exhausted hr

/-- Attempts one after another are cut short where one of them is. -/
theorem Capped.branch (h : Capped lim b P a a')
    (hf : ∀ v t ht, P t → Capped lim b Q (f v t ht) (f' v t ht))
    (hg : Capped lim b Q (g ()) (g' ())) : Capped lim b Q (a.branch f g) (a'.branch f' g') := by
  cases h with
  | matched ht => exact (hf _ _ _ ht).since _
  | mismatched => exact hg.since _
  | stopped hr => exact .stopped hr
  | cut hd => exact .cut hd
  | exhausted hr => exact .exhausted hr

/-- One attempt after the other differs under the limits only by their own stops. -/
theorem Capped.andThen (h : Capped lim b P a a')
    (hf : ∀ v t ht, P t → Capped lim b Q (f v t ht) (f' v t ht)) :
    Capped lim b Q (a.andThen f) (a'.andThen f') :=
  h.branch hf capped_mismatch

/-- So does one or the other. -/
theorem Capped.orElse {o o' : Unit → Attempt α n} (h : Capped lim b P a a')
    (ho : Capped lim b P (o ()) (o' ())) : Capped lim b P (a.orElse o) (a'.orElse o') :=
  h.branch (fun _ _ _ ht => capped_accept ht) ho

theorem Capped.map (h : Capped lim b P a a') (k : α → β) : Capped lim b P (a.map k) (a'.map k) :=
  h.andThen fun _ _ _ ht => capped_accept ht

theorem Capped.widen (h : Capped lim b P a a') (k : n ≤ m) :
    Capped lim b P (a.widen k) (a'.widen k) :=
  h.andThen fun _ _ _ ht => capped_accept ht

/-- What is read from a later place is read from an earlier one. -/
theorem Capped.from (h : CappedAt lim k t a a') (hs : Spans lim.depth.toNat k s t) :
    CappedAt lim k s a a' :=
  h.mono hs.deepest_le fun _ ht => hs.trans ht

end Attempt

open Attempt

variable {α : Type} {n b : Nat} {lim lim' : Limits} {P : Cursor → Prop} {l inside inside' : Level}

@[simp] theorem Level.skip_limited : (l.limited lim).skip s = l.skip s := rfl

/-- A level that is not full is not full under higher limits. -/
theorem Limits.AtMost.isFull (h : lim.AtMost lim') (hfull : (l.limited lim).isFull = false) :
    (l.limited lim').isFull = false := by
  rw [Level.isFull_eq_false] at hfull ⊢
  exact Int.lt_of_lt_of_le hfull h.depth

/-- A level that has room has it under higher limits. -/
theorem Limits.AtMost.lacks (h : lim.AtMost lim') (hroom : (l.limited lim).lacks k = false) :
    (l.limited lim').lacks k = false := by
  rw [Level.lacks_eq_false] at hroom ⊢
  intro room' hr'
  obtain ⟨room, hr, hle⟩ := h.room room' hr'
  exact Nat.le_trans (hroom room hr) hle

/-- One bracket more is opened unless it is one too many, and then it counts for what is read
behind it. -/
theorem capped_enter {i : Nat} {body body' : Level → Attempt α n} (hlim : lim.AtMost lim')
    (hs : s.rest = o :: t.rest) (ho : opens o)
    (h : l.depth + 1 ≤ lim.depth.toNat →
      Capped lim (deepest false (l.depth + 1) t.rest) P (body inside) (body' inside')) :
    Capped lim (deepest false l.depth s.rest) P ((l.limited lim).enter inside i body)
      ((l.limited lim').enter inside' i body') := by
  rw [hs, deepest_cons_of_opens ho]
  have hiff : (l.limited lim).isFull = false ↔ (l.depth : Int) < lim.depth := Level.isFull_eq_false
  cases hfull : (l.limited lim).isFull with
  | true =>
    rw [Level.enter_of_isFull hfull]
    have hle : l.depth + 1 ≤ deepest false (l.depth + 1) t.rest := le_deepest
    simp only [hfull, Bool.true_eq_false, false_iff] at hiff
    exact .cut (by omega)
  | false =>
    rw [Level.enter_of_not_isFull hfull, Level.enter_of_not_isFull (hlim.isFull hfull)]
    have := hiff.mp hfull
    exact (h (by omega)).since _

/-- A rule is tried unless there is no room for it. -/
theorem capped_within {rule rule' : Unit → Attempt α n} (hlim : lim.AtMost lim')
    (h : Capped lim b P (rule ()) (rule' ())) :
    Capped lim b P ((l.limited lim).within k rule) ((l.limited lim').within k rule') := by
  cases hroom : (l.limited lim).lacks k with
  | true =>
    rw [Level.within_of_lacks hroom]
    refine .exhausted fun hnone => ?_
    have : (l.limited lim).lacks k = false := Level.lacks_eq_false.mpr fun room hr =>
      nomatch hnone.symm.trans (Option.mem_def.mp hr)
    rw [this] at hroom
    contradiction
  | false =>
    rw [Level.within_of_room hroom, Level.within_of_room (hlim.lacks hroom)]
    exact h

/-! ## Tokens -/

theorem capped_sign {meaning : Char → Option α} :
    Capped lim b (fun t => ∃ c a, s.rest = c :: t.rest ∧ meaning c = some a) (sign meaning s)
      (sign meaning s) := by
  refine capped_self (fun a t h => ?_) fun r hr => ?_
  · obtain ⟨c, hs, hc⟩ := sign_of_gives h
    exact ⟨c, a, hs, hc⟩
  · obtain ⟨_, _ | _⟩ := s
    · contradiction
    · simp only [sign] at hr
      split at hr <;> contradiction

theorem capped_char : Capped lim b (fun t => s.rest = c :: t.rest) (char c s) (char c s) := by
  refine capped_sign.mono (Nat.le_refl _) fun t ht => ?_
  obtain ⟨x, _, hs, hx⟩ := ht
  split at hx
  · rename_i hxc
    rw [hs, hxc]
  · contradiction

/-- An identifier is read alike under all limits. -/
theorem capped_identifier : CappedAt lim k s (identifier s) (identifier s) := by
  refine capped_self (fun name t h => spans_of_word (word_of_gives h)) fun r hr => ?_
  obtain ⟨_, _ | _⟩ := s
  · contradiction
  · simp only [identifier] at hr
    split at hr <;> contradiction

/-- So is a number. -/
theorem capped_number : CappedAt lim k s (number s) (number s) := by
  refine capped_self (fun x t h => spans_of_number (number_of_gives h)) fun r hr => ?_
  unfold number at hr
  split at hr
  · contradiction
  · split at hr
    · cases hr
      rfl
    · split at hr
      · cases hr
        rfl
      · contradiction

/-- So is a string. -/
theorem capped_quotedString : CappedAt lim k s (quotedString s) (quotedString s) := by
  refine capped_self (fun text t h => spans_of_quotation (quotation_of_gives h)) fun r hr => ?_
  unfold quotedString at hr
  split at hr
  · split at hr
    · cases hr
      rfl
    · contradiction
  · contradiction

end Planetarium.Parsing
