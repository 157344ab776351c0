import Planetarium.Document.File
import Planetarium.Proofs.Document.Append
import Planetarium.Proofs.Text.Utf8

/-!
# A document in a file

A file is read with every line end as one line feed.  Between words a line end is a blank of some
kind, and between two blanks one line end more or less makes no difference, so only the texts
between quotes notice.  A reading of a text and the reading of the same text with its line ends
unified are therefore coupled (`lineEnds`): they give the same commands but for these texts, or
fail with the same class of error, if not at the same offset.
-/
namespace Planetarium.Text

/-- The text with every line end as one line feed. -/
def unifiedLines (text : String) : String := String.ofList (unifyLineEnds text.toList)

variable {p : Char → Bool} {c : Char} {s : List Char}

/-- A character stands for itself unless it is a carriage return, and a carriage return for a line
feed unless one follows. -/
theorem unifyLineEnds_cons (h : c = '\r' → s.head? ≠ some '\n') :
    unifyLineEnds (c :: s) = (if c = '\r' then '\n' else c) :: unifyLineEnds s := by
  rw [unifyLineEnds.eq_def]
  split
  · contradiction
  · rename_i heq
    obtain ⟨rfl, rfl⟩ := List.cons.inj heq
    exact absurd rfl (h rfl)
  · rename_i heq
    obtain ⟨rfl, rfl⟩ := List.cons.inj heq
    rfl

theorem unifyLineEnds_of_ne (h : c ≠ '\r') :
    unifyLineEnds (c :: s) = c :: unifyLineEnds s := by
  rw [unifyLineEnds_cons fun hc => absurd hc h, if_neg h]

/-- A run is a run still, if the two halves of a line end are both in it or both not. -/
theorem run_unifyLineEnds (hp : p '\r' = p '\n') :
    (unifyLineEnds s).takeWhile p = unifyLineEnds (s.takeWhile p) ∧
      (unifyLineEnds s).dropWhile p = unifyLineEnds (s.dropWhile p) := by
  fun_induction unifyLineEnds s with
  | case1 => exact ⟨rfl, rfl⟩
  | case2 rest ih =>
    cases hfeed : p '\n' with
    | true => simp [hp, hfeed, ih, unifyLineEnds]
    | false => simp [hp, hfeed, unifyLineEnds]
  | case3 c rest hpair ih =>
    have hunify : ∀ t, t.head? = rest.head? ∨ t = [] →
        unifyLineEnds (c :: t) = (if c = '\r' then '\n' else c) :: unifyLineEnds t := by
      rintro t ht
      refine unifyLineEnds_cons fun hc hhead => ?_
      rcases ht with ht | rfl
      · obtain ⟨more, hmore⟩ := List.head?_eq_some_iff.mp (ht.symm.trans hhead)
        exact hpair more hc hmore
      · contradiction
    have hsame : p (if c = '\r' then '\n' else c) = p c := by
      split
      · rename_i hc
        rw [hc, hp]
      · rfl
    by_cases hc : p c
    · -- the run goes on with what is next, or it ends here
      have hhead : (rest.takeWhile p).head? = rest.head? ∨ rest.takeWhile p = [] := by
        cases rest with
        | nil => exact .inr rfl
        | cons d rest => by_cases hd : p d <;> simp [hd]
      rw [List.takeWhile_cons_of_pos (hsame.trans hc), List.dropWhile_cons_of_pos (hsame.trans hc),
        List.takeWhile_cons_of_pos hc, List.dropWhile_cons_of_pos hc, ih.1, ih.2, hunify _ hhead]
      exact ⟨rfl, rfl⟩
    · have hc' : ¬ p (if c = '\r' then '\n' else c) := by rwa [hsame]
      rw [List.takeWhile_cons_of_neg hc', List.dropWhile_cons_of_neg hc',
        List.takeWhile_cons_of_neg hc, List.dropWhile_cons_of_neg hc, hunify _ (.inl rfl)]
      exact ⟨rfl, rfl⟩

end Planetarium.Text

namespace Planetarium.Parsing
open Text

theorem ahead_unifyLineEnds {s s' : Cursor} (h : s'.rest = unifyLineEnds s.rest) :
    Ahead (fun s s' => s'.rest = unifyLineEnds s.rest) s s' := by
  obtain ⟨k, rest⟩ := s
  obtain ⟨k', rest'⟩ := s'
  subst h
  fun_cases unifyLineEnds rest with
  | case1 => exact .nothing
  | case2 rest => exact .layout rfl rfl
  | case3 c rest hpair =>
    by_cases hc : c = '\r'
    · subst hc
      exact .layout rfl rfl
    · rw [if_neg hc]
      by_cases hlayout : isLayout c
      · exact .layout hlayout hlayout
      · exact .same (Bool.eq_false_iff.mpr hlayout) rfl

theorem skip_unifyLineEnds {s s' : Cursor} {p : Char → Bool} (hp : p '\r' = p '\n')
    (h : s'.rest = unifyLineEnds s.rest) : (s'.skip p).rest = unifyLineEnds (s.skip p).rest := by
  simp only [Cursor.skip, h, (run_unifyLineEnds hp).2]

/-- A quoted text ends at the same quote. -/
theorem quoted_unifyLineEnds {k k' : Nat} {cs cs' : List Char} (h : cs' = unifyLineEnds cs) :
    cs.dropWhile (· != '"') = [] ∧ cs'.dropWhile (· != '"') = [] ∨
    ∃ c u c' u', cs.dropWhile (· != '"') = c :: u ∧ cs'.dropWhile (· != '"') = c' :: u' ∧
      String.ofList (cs'.takeWhile (· != '"')) =
        unifiedLines (String.ofList (cs.takeWhile (· != '"'))) ∧
      (Cursor.mk k' u').rest = unifyLineEnds (Cursor.mk k u).rest := by
  subst h
  obtain ⟨htake, hdrop⟩ := run_unifyLineEnds (p := (· != '"')) (s := cs) rfl
  rw [htake, hdrop, unifiedLines, String.toList_ofList]
  have hquote := head_dropWhile (· != '"') cs
  cases hrest : cs.dropWhile (· != '"') with
  | nil => exact .inl ⟨rfl, rfl⟩
  | cons c u =>
    rw [hrest] at hquote
    obtain rfl : c = '"' := by simpa using hquote c rfl
    exact .inr ⟨'"', u, '"', unifyLineEnds u, rfl, unifyLineEnds_of_ne (by decide), rfl, rfl⟩

/-- A reading and the reading of the same text with its line ends unified. -/
def lineEnds : DocumentCoupling where
  place s s' := s'.rest = unifyLineEnds s.rest
  level := Eq
  event _ _ := True
  stop := Stop.SameClass
  ahead := ahead_unifyLineEnds
  skip := by
    rintro l _ s s' rfl h
    refine skip_unifyLineEnds ?_ h
    split <;> rfl
  inGroup := congrArg Level.inGroup
  full := by
    rintro l _ rfl
    exact ⟨rfl, rfl⟩
  room := by
    rintro l _ k rfl
    rfl
  missed _ _ := trivial
  opened _ := trivial
  fault _ _ := rfl
  unexpected := .refl _
  exhausted := .refl _
  text := unifiedLines
  skipSpace := skip_unifyLineEnds rfl
  skipLayout := skip_unifyLineEnds rfl
  inBlock := congrArg Level.inBlock
  inAssignment := congrArg Level.inAssignment
  quotedString h := Coupling.quotedString h fun _ _ hs hs' => by
    rw [hs, hs', unifyLineEnds_of_ne (by decide)] at h
    exact quoted_unifyLineEnds (List.cons.inj h).2

end Planetarium.Parsing

namespace Planetarium.Document
open Parsing Text Grammar Attempt

variable {limits : Limits} {n n' : Nat} {text text' : List Char}

/-- Whatever the end of the text is like, coupled readings end alike. -/
theorem corresponds_conclude {a : Attempt (List Command) n} {a' : Attempt (List Command) n'}
    (h : Coupled lineEnds.toCoupling (Command.mapTextsAll lineEnds.text) a a') :
    Corresponds (Command.mapTextsAll unifiedLines) (conclude limits text a)
      (conclude limits text' a') := by
  cases h with
  | matched ht _ =>
    have hend := Coupling.left_eq_zero (lineEnds.skipLayout ht)
    simp only [conclude, hend]
    split
    · exact .ok
    · split <;> split <;> exact .error rfl
  | mismatched _ => exact .error rfl
  | stopped hr _ _ => exact .error (hr.toFault _ _ _ _ _ _)

theorem corresponds_ofChars (limits : Limits) (text : List Char) :
    Corresponds (Command.mapTextsAll unifiedLines) (ofChars limits text)
      (ofChars limits (unifyLineEnds text)) := by
  rw [ofChars_eq_conclude, ofChars_eq_conclude]
  exact corresponds_conclude (coupled_commands (D := lineEnds) rfl rfl)

/-- **Reading a file and reading a string agree up to line ends.**  A text is accepted if and only
if it is accepted with its line ends unified; then both give the same commands, but for the line
ends between quotes.  Otherwise both are rejected with the same class of error.  What a file gives
that holds the text as UTF-8 is what the text gives with its line ends unified. -/
theorem parse_unifiedLines (text : String) (limits : Limits) :
    (∀ cs, parse text limits = .ok cs →
      parse (unifiedLines text) limits = .ok (Command.mapTextsAll unifiedLines cs)) ∧
    (∀ e, parse text limits = .error e → ∃ e', parse (unifiedLines text) limits = .error e' ∧
      e'.fault.cause.errorClass = e.fault.cause.errorClass) ∧
    (∀ cs', parse (unifiedLines text) limits = .ok cs' → ∃ cs, parse text limits = .ok cs ∧
      cs' = Command.mapTextsAll unifiedLines cs) ∧
    (∀ e', parse (unifiedLines text) limits = .error e' → ∃ e, parse text limits = .error e ∧
      e'.fault.cause.errorClass = e.fault.cause.errorClass) ∧
    ∀ path, ofFile path (.bytes text.toUTF8.data.toList) limits =
      (parse (unifiedLines text) limits).mapError .rejected := by
  have hfile : ∀ path, ofFile path (.bytes text.toUTF8.data.toList) limits =
      (parse (unifiedLines text) limits).mapError .rejected := by
    intro path
    simp only [ofFile, FileState.text, Utf8.decode_toUTF8, parse, unifiedLines,
      String.toList_ofList]
    cases ofChars limits (unifyLineEnds text.toList) <;> rfl
  have hunified := corresponds_ofChars limits text.toList
  simp only [parse, unifiedLines, String.toList_ofList] at hfile ⊢
  generalize ofChars limits text.toList = r at hunified
  generalize ofChars limits (unifyLineEnds text.toList) = r' at hunified hfile ⊢
  cases hunified with
  | @ok cs =>
    refine ⟨?_, ?_, ?_, ?_, hfile⟩
    · rintro _ ⟨⟩
      rfl
    · rintro _ ⟨⟩
    · rintro _ ⟨⟩
      exact ⟨cs, rfl, rfl⟩
    · rintro _ ⟨⟩
  | @error f f' hclass =>
    refine ⟨?_, ?_, ?_, ?_, hfile⟩
    · rintro _ ⟨⟩
    · rintro _ ⟨⟩
      exact ⟨_, rfl, hclass⟩
    · rintro _ ⟨⟩
    · rintro _ ⟨⟩
      exact ⟨_, rfl, hclass⟩

/-- A text with a line end between its quotes. -/
def quotedLines : String := "a: \"x\r\ny\""

theorem parse_unifiedLines_sample :
    parse quotedLines = .ok [.property "a" (.text "x\r\ny")] ∧
      parse (unifiedLines quotedLines) = .ok [.property "a" (.text "x\ny")] := by
  have hread : parse quotedLines = .ok [.property "a" (.text "x\r\ny")] := by
    refine parse_document.mpr ⟨[], .commands ?_ (.noCommands rfl), rfl⟩
    refine .text (t := ": \"x\r\ny\"".toList) (u := " \"x\r\ny\"".toList) ⟨rfl, by decide, ?_⟩ rfl
      (v := []) ⟨rfl, by decide⟩
    rintro c ⟨⟩
    rfl
  exact ⟨hread, (parse_unifiedLines quotedLines {}).1 _ hread⟩

end Planetarium.Document
