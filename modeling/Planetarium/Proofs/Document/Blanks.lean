import Planetarium.Proofs.Document.Append
import Planetarium.Proofs.Grammar.Coupling
import Planetarium.Proofs.Grammar.Located

/-!
# One blank for another

Blanks of one kind are as good as blanks of another.  In an expression that is every blank; in a
document a space is as good as a tab and a carriage return as a line feed, except between quotes.
When some blanks of a text are exchanged at their places (`Exchange`), the reading of the one text
and that of the other go through the same places with the same log, so they come to the same tree or
to errors of the same class at the same offset.

What is between quotes is told by the reading itself: the spans at which it looks for a quoted text
and finds one (`Scanned`), be they in the tree in the end or in something that was given up.
-/
namespace Planetarium.Text

/-- A text with the characters at some offsets replaced, where its first one is at offset `k`. -/
def replaceAt (chosen : Nat → Bool) (blank : Char → Char) : Nat → List Char → List Char
  | _, [] => []
  | k, c :: cs => (if chosen k then blank c else c) :: replaceAt chosen blank (k + 1) cs

variable {chosen : Nat → Bool} {blank : Char → Char} {p : Char → Bool} {k : Nat} {cs : List Char}

theorem replaceAt_eq_self (h : ∀ i, k ≤ i → i < k + cs.length → chosen i = false) :
    replaceAt chosen blank k cs = cs := by
  induction cs generalizing k with
  | nil => rfl
  | cons c cs ih =>
    have hk : chosen k = false := h k (Nat.le_refl k) (by simp)
    rw [replaceAt, hk, ih fun i hi hlt => h i (by omega) (by simp only [List.length_cons]; omega)]
    rfl

/-- A run is a run still, if no character comes to be in it or out of it. -/
theorem run_replaceAt (chosen : Nat → Bool) (hp : ∀ c, p (blank c) = p c) (k : Nat)
    (cs : List Char) :
    (replaceAt chosen blank k cs).takeWhile p = replaceAt chosen blank k (cs.takeWhile p) ∧
      (replaceAt chosen blank k cs).dropWhile p =
        replaceAt chosen blank (k + (cs.takeWhile p).length) (cs.dropWhile p) := by
  induction cs generalizing k with
  | nil => exact ⟨rfl, rfl⟩
  | cons c cs ih =>
    have hc : p (if chosen k then blank c else c) = p c := by
      split
      · exact hp c
      · rfl
    obtain ⟨htake, hdrop⟩ := ih (k + 1)
    by_cases hpc : p c
    · rw [replaceAt, List.takeWhile_cons_of_pos (hc.trans hpc), List.takeWhile_cons_of_pos hpc,
        List.dropWhile_cons_of_pos (hc.trans hpc), List.dropWhile_cons_of_pos hpc, htake, hdrop,
        replaceAt, List.length_cons, Nat.add_assoc, Nat.add_comm 1]
      exact ⟨rfl, rfl⟩
    · have hpc' : ¬ p (if chosen k then blank c else c) := by rwa [hc]
      rw [replaceAt, List.takeWhile_cons_of_neg hpc', List.takeWhile_cons_of_neg hpc,
        List.dropWhile_cons_of_neg hpc', List.dropWhile_cons_of_neg hpc]
      exact ⟨rfl, rfl⟩

theorem length_replaceAt : (replaceAt chosen blank k cs).length = cs.length := by
  induction cs generalizing k with
  | nil => rfl
  | cons c cs ih => rw [replaceAt, List.length_cons, List.length_cons, ih]

end Planetarium.Text

namespace Planetarium.Parsing
open Text Attempt

/-- An exchange of blanks: at which offsets it takes place, and what each blank is exchanged for. -/
structure Exchange where
  chosen : Nat → Bool
  blank : Char → Char
  isLayout_blank : ∀ c, isLayout (blank c) = isLayout c
  blank_of_not_layout : ∀ {c}, isLayout c = false → blank c = c

namespace Exchange
variable (x : Exchange) {s s' : Cursor} {p : Char → Bool}

/-- The place in the text in which the blanks are exchanged. -/
def cursor (s : Cursor) : Cursor := ⟨s.offset, replaceAt x.chosen x.blank s.offset s.rest⟩

/-- The text in which the blanks are exchanged. -/
def chars (text : List Char) : List Char := replaceAt x.chosen x.blank 0 text

/-- The text in which the blanks are exchanged. -/
def apply (text : String) : String := String.ofList (x.chars text.toList)

theorem start_chars (text : List Char) : Cursor.start (x.chars text) = x.cursor (.start text) := rfl

theorem skip_cursor (hp : ∀ c, p (x.blank c) = p c) (s : Cursor) :
    (x.cursor s).skip p = x.cursor (s.skip p) := by
  obtain ⟨htake, hdrop⟩ := run_replaceAt x.chosen hp s.offset s.rest
  simp only [cursor, Cursor.skip, htake, hdrop, length_replaceAt]

theorem ahead_cursor (s : Cursor) : Ahead (fun s s' => s' = x.cursor s) s (x.cursor s) := by
  obtain ⟨k, _ | ⟨c, cs⟩⟩ := s
  · exact .nothing
  · by_cases hc : isLayout c
    · refine .layout hc ?_
      split
      · rw [x.isLayout_blank, hc]
      · exact hc
    · rw [Bool.not_eq_true] at hc
      have hsame : (if x.chosen k then x.blank c else c) = c := by
        split
        · exact x.blank_of_not_layout hc
        · rfl
      simp only [cursor, replaceAt, hsame]
      exact .same hc rfl

/-- The reading of a text and of the one in which the blanks are exchanged.  Where line breaks are
no blanks, they must not be exchanged for any. -/
def coupling : Coupling where
  place s s' := s' = x.cursor s
  level l l' := l' = l ∧ (l.multiline = false → ∀ c, isSpace (x.blank c) = isSpace c)
  event := Eq
  stop := Eq
  ahead := by
    rintro s _ rfl
    exact x.ahead_cursor s
  skip := by
    rintro l _ s _ ⟨rfl, hspace⟩ rfl
    refine x.skip_cursor ?_ s
    split
    · exact x.isLayout_blank
    · rename_i hl
      exact hspace (Bool.eq_false_iff.mpr hl)
  inGroup := by
    rintro l _ ⟨rfl, -⟩
    exact ⟨rfl, nofun⟩
  full := by
    rintro l _ ⟨rfl, -⟩
    exact ⟨rfl, rfl⟩
  room := by
    rintro l _ k ⟨rfl, -⟩
    rfl
  missed := by
    rintro s _ e rfl
    rfl
  opened := by
    rintro s _ rfl
    rfl
  fault := by
    rintro s _ c rfl
    rfl
  unexpected := rfl
  exhausted := rfl

/-- The reading of commands in both texts. -/
def commandCoupling (hspace : ∀ c, isSpace (x.blank c) = isSpace c) : CommandCoupling where
  toCoupling := x.coupling
  text := id
  skipSpace := by
    rintro s _ rfl
    exact x.skip_cursor hspace s
  skipLayout := by
    rintro s _ rfl
    exact x.skip_cursor x.isLayout_blank s
  inBlock := by
    rintro l _ ⟨rfl, hl⟩
    exact ⟨rfl, hl⟩
  inAssignment := by
    rintro l _ ⟨rfl, hl⟩
    exact ⟨rfl, hl⟩

/-- A quoted text is the same if nothing is exchanged in it. -/
theorem coupled_quotedString {f : String → String} (hf : ∀ text, f text = text)
    (h : ∀ text t, (quotedString s).Gives text t →
      ∀ k, s.offset ≤ k → k < t.offset → x.chosen k = false) :
    Coupled x.coupling f (quotedString s) (quotedString (x.cursor s)) := by
  refine Coupling.quotedString rfl fun cs cs' hs hs' => ?_
  obtain ⟨offset, rest⟩ := s
  subst hs
  obtain rfl : replaceAt x.chosen x.blank (offset + 1) cs = cs' := (List.cons.inj hs').2
  have hquote : ∀ c, (x.blank c != '"') = (c != '"') := by
    intro c
    by_cases hc : isLayout c
    · have hne : ∀ d, isLayout d → (d != '"') = true := fun d hd =>
        of_isLayout (P := fun d => (d != '"') = true) hd rfl rfl rfl rfl
      rw [hne c hc, hne _ ((x.isLayout_blank c).trans hc)]
    · rw [x.blank_of_not_layout (Bool.eq_false_iff.mpr hc)]
  obtain ⟨htake, hdrop⟩ :=
    run_replaceAt x.chosen (p := (· != '"')) hquote (offset + 1) cs
  cases hrest : cs.dropWhile (· != '"') with
  | nil => exact .inl ⟨rfl, by rw [hdrop, hrest]; rfl⟩
  | cons c u =>
    have hgives := h _ _ (by
      rw [quotedString_of_terminated hrest]
      exact gives_accept.mpr ⟨rfl, rfl⟩)
    have hself : replaceAt x.chosen x.blank (offset + 1) (cs.takeWhile (· != '"')) =
        cs.takeWhile (· != '"') :=
      replaceAt_eq_self fun i hi hlt => hgives i (by simp only; omega) (by simp only; omega)
    rw [hrest] at hdrop
    rw [hself] at htake
    refine .inr ⟨c, u, _, _, rfl, hdrop, ?_, ?_⟩
    · rw [htake, hf]
    · rw [htake]
      rfl

end Exchange

/-! ## How the readings end -/

/-- What a fault is told by: its class and its offset. -/
def Fault.site (f : Fault) : ErrorClass × Nat := (f.cause.errorClass, f.offset)

/-- What the report of a fault is told by: its class and its offset. -/
def ParseError.site (e : ParseError) : ErrorClass × Nat := e.fault.site

theorem site_toFault (text text' : List Char) (limit : Int) (log : List Event) (r : Stop) :
    (r.toFault text' limit log).site = (r.toFault text limit log).site := by
  cases r <;> rfl

theorem mapError_site_inText {α : Type} (r : Except Fault α) (text : List Char) :
    (r.mapError (·.inText text)).mapError ParseError.site = r.mapError Fault.site := by
  cases r <;> rfl

variable {x : Exchange} {limits : Limits}

theorem Exchange.peek?_cursor {c : Char} (hc : isLayout c = false) (s : Cursor) :
    (x.cursor s).peek? = some c ↔ s.peek? = some c := by
  have hne : ∀ d, isLayout d → some d ≠ some c := by
    rintro d hd ⟨⟩
    rw [hc] at hd
    contradiction
  have := x.ahead_cursor s
  generalize x.cursor s = s' at this
  cases this with
  | nothing => rfl
  | layout hd hd' => exact ⟨fun h => absurd h (hne _ hd'), fun h => absurd h (hne _ hd)⟩
  | same _ _ => rfl

theorem Exchange.left_cursor (s : Cursor) : (x.cursor s).left = s.left := length_replaceAt

/-- Coupled readings of a document end alike. -/
theorem Exchange.conclude_eq {n n' : Nat} {f : List Command → List Command} (hf : ∀ cs, f cs = cs)
    {a : Attempt (List Command) n} {a' : Attempt (List Command) n'}
    (h : Coupled x.coupling f a a') (text text' : List Char) :
    (Document.conclude limits text' a').mapError Fault.site =
      (Document.conclude limits text a).mapError Fault.site := by
  cases h with
  | @matched cs t _ _ _ log log' ht hlog =>
    obtain rfl := ht
    obtain rfl : log = log' := List.forall₂_eq_eq_eq ▸ hlog
    simp only [Document.conclude, x.skip_cursor x.isLayout_blank, left_cursor, hf]
    split
    · rfl
    · have hoffset : (x.cursor (t.skip isLayout)).offset = (t.skip isLayout).offset := rfl
      simp only [peek?_cursor (x := x) (c := '}') rfl, hoffset]
      split <;> rfl
  | @mismatched log log' hlog =>
    obtain rfl : log = log' := List.forall₂_eq_eq_eq ▸ hlog
    rfl
  | @stopped r r' log log' hr _ hlog =>
    obtain rfl : r = r' := hr
    obtain rfl : log = log' := List.forall₂_eq_eq_eq ▸ hlog
    exact congrArg Except.error (site_toFault text text' limits.depth log r)

/-- Coupled readings of an expression end alike. -/
theorem Exchange.ofChars_eq (limits : Limits) (text : List Char) :
    (Expr.ofChars limits (x.chars text)).mapError Fault.site =
      (Expr.ofChars limits text).mapError Fault.site := by
  have hcoupled := Grammar.coupled_expression (R := x.coupling) (s := .start text)
    (l := { limits, multiline := true }) ⟨rfl, nofun⟩ rfl
  have hskip : ((x.cursor (.start text)).skip isLayout).offset =
      ((Cursor.start text).skip isLayout).offset := by
    rw [x.skip_cursor x.isLayout_blank]
    rfl
  simp only [Expr.ofChars, x.start_chars, hskip]
  generalize Grammar.expression _ _ = a at hcoupled ⊢
  generalize Grammar.expression _ _ = a' at hcoupled ⊢
  cases hcoupled with
  | @matched e t _ _ _ log log' ht hlog =>
    obtain rfl := ht
    obtain rfl : log = log' := List.forall₂_eq_eq_eq ▸ hlog
    simp only [x.skip_cursor x.isLayout_blank, left_cursor]
    split <;> rfl
  | @mismatched log log' hlog =>
    obtain rfl : log = log' := List.forall₂_eq_eq_eq ▸ hlog
    rfl
  | @stopped r r' log log' hr _ hlog =>
    obtain rfl : r = r' := hr
    obtain rfl : log = log' := List.forall₂_eq_eq_eq ▸ hlog
    exact congrArg Except.error (site_toFault text _ limits.depth log r)

end Planetarium.Parsing

namespace Planetarium.Grammar
open Parsing Text Attempt

variable {limits : Limits} {l : Level} {s t u : Cursor} {text : List Char}

/-! ## Spans between quotes -/

/-- The reading of the text as a document takes the character at the offset `k` for a part of a
quoted text, with its quotes. -/
def Scanned (limits : Limits) (text : List Char) (k : Nat) : Prop :=
  ∃ u v words, Tries { limits } (.start text) u ∧ (quotedString u).Gives words v ∧
    u.offset ≤ k ∧ k < v.offset

theorem ArgumentPlace.within (h : ArgumentPlace l s t) (hs : s.Within text) : t.Within text := by
  induction h with
  | first => exact hs
  | next _ hgives ih =>
    exact ((located_argument (fun _ _ _ => located_commands) ih).within hgives).skip

theorem Tries.within (h : Tries l s u) (hs : s.Within text) : u.Within text := by
  induction h with
  | value _ hhead => exact (located_head hs.skip).within hhead
  | block _ _ hplace hbrace _ _ ih =>
    exact ih ((located_char (hplace.within hs.skip)).within hbrace)
  | later hgives _ ih =>
    exact ih ((located_command (fun _ _ _ => located_commands) hs).within hgives)

/-- There is a quote at or before whatever is taken for a part of a quoted text. -/
theorem Scanned.quote_mem {k : Nat} (h : Scanned limits text k) : '"' ∈ text.take (k + 1) := by
  obtain ⟨u, v, words, htries, hgives, hle, -⟩ := h
  have hu := htries.within Cursor.within_start
  have hquote : u.rest.head? = some '"' := by
    by_contra hne
    rw [quotedString_of_head hne] at hgives
    exact not_gives_mismatch hgives
  rw [hu.2, List.head?_drop] at hquote
  obtain ⟨hlt, hchar⟩ := List.getElem?_eq_some_iff.mp hquote
  exact List.mem_take_iff_getElem.mpr ⟨u.offset, by omega, hchar⟩

/-! ## Exchanges -/

/-- Spaces in place of blanks of any kind. -/
def toSpaces (chosen : Nat → Bool) : Exchange where
  chosen := chosen
  blank c := if isLayout c then ' ' else c
  isLayout_blank c := by
    split
    · rename_i hc
      exact hc.symm
    · rfl
  blank_of_not_layout h := by rw [h]; rfl

/-- A space for a tab, a carriage return for a line feed. -/
def spaceOrReturn (c : Char) : Char := if c = '\t' then ' ' else if c = '\n' then '\r' else c

/-- What does not tell a space from a tab, nor a carriage return from a line feed, holds of the
character that is put in place of another one as it does of that. -/
theorem apply_spaceOrReturn {p : Char → Bool} (htab : p ' ' = p '\t') (hfeed : p '\r' = p '\n')
    (c : Char) : p (spaceOrReturn c) = p c := by
  unfold spaceOrReturn
  split
  · rename_i hc
    rw [hc, htab]
  · split
    · rename_i hc
      rw [hc, hfeed]
    · rfl

/-- Spaces in place of tabs, and carriage returns in place of line feeds. -/
def toSpacesAndReturns (chosen : Nat → Bool) : Exchange where
  chosen := chosen
  blank := spaceOrReturn
  isLayout_blank := apply_spaceOrReturn rfl rfl
  blank_of_not_layout h := by
    rw [spaceOrReturn, if_neg (by rintro rfl; contradiction), if_neg (by rintro rfl; contradiction)]

theorem isSpace_toSpacesAndReturns (chosen : Nat → Bool) (c : Char) :
    isSpace ((toSpacesAndReturns chosen).blank c) = isSpace c :=
  apply_spaceOrReturn rfl rfl c

theorem ofChars_toSpacesAndReturns (chosen : Nat → Bool)
    (h : ∀ k, chosen k → ¬ Scanned limits text k) :
    (Document.ofChars limits ((toSpacesAndReturns chosen).chars text)).mapError Fault.site =
      (Document.ofChars limits text).mapError Fault.site := by
  rw [Document.ofChars_eq_conclude, Document.ofChars_eq_conclude]
  refine Exchange.conclude_eq (x := toSpacesAndReturns chosen) Command.mapTextsAll_id ?_ _ _
  refine coupled_commands_of_tries (D := (toSpacesAndReturns chosen).commandCoupling
    (isSpace_toSpacesAndReturns chosen)) ⟨rfl, fun _ => isSpace_toSpacesAndReturns chosen⟩ rfl ?_
  rintro u _ htries rfl
  refine Exchange.coupled_quotedString _ (fun _ => rfl) fun words v hgives k hle hlt => ?_
  exact Bool.eq_false_iff.mpr fun hk => h k hk ⟨u, v, words, htries, hgives, hle, hlt⟩

/-- **Blanks are interchangeable.**  In an expression blanks of any kind may be replaced by spaces.
In a document tabs may be replaced by spaces and line feeds by carriage returns, wherever the
reading does not take them for a part of a quoted text.  What comes out is the same tree, or an
error of the same class at the same offset. -/
theorem parse_exchange (text : String) (limits : Limits) (chosen : Nat → Bool) :
    (Expr.parse ((toSpaces chosen).apply text) limits).mapError ParseError.site =
      (Expr.parse text limits).mapError ParseError.site ∧
    ((∀ k, chosen k → ¬ Scanned limits text.toList k) →
      (Document.parse ((toSpacesAndReturns chosen).apply text) limits).mapError ParseError.site =
        (Document.parse text limits).mapError ParseError.site) := by
  constructor
  · simp only [Expr.parse, mapError_site_inText, Exchange.apply, String.toList_ofList]
    exact Exchange.ofChars_eq limits text.toList
  · intro h
    simp only [Document.parse, mapError_site_inText, Exchange.apply, String.toList_ofList]
    exact ofChars_toSpacesAndReturns chosen h

/-- A property with a tab on each side of its colon and one between its quotes. -/
def sampleTabs : String := "a\t:\t\"x\ty\""

theorem parse_exchange_sample :
    (∀ k, decide (k < 4) → ¬ Scanned {} sampleTabs.toList k) ∧
    (toSpacesAndReturns fun k => k < 4).apply sampleTabs = "a : \"x\ty\"" ∧
    (Document.parse "a : \"x\ty\"").mapError ParseError.site =
      (Document.parse sampleTabs).mapError ParseError.site := by
  have hscanned : ∀ k, decide (k < 4) → ¬ Scanned {} sampleTabs.toList k := by
    intro k hk hscanned
    have hk : k + 1 ≤ 4 := of_decide_eq_true hk
    have hmem := (List.take_subset_take_left sampleTabs.toList hk) hscanned.quote_mem
    exact absurd hmem (by decide)
  have happly : (toSpacesAndReturns fun k => k < 4).apply sampleTabs = "a : \"x\ty\"" := by decide
  have hparse := (parse_exchange sampleTabs {} fun k => k < 4).2 hscanned
  rw [happly] at hparse
  exact ⟨hscanned, happly, hparse⟩

end Planetarium.Grammar
