import Planetarium.Proofs.Document.Append
import Planetarium.Proofs.Grammar.Located
import Planetarium.Proofs.Parsing.Report

/-!
# Where a text is rejected

A text that is rejected is rejected at one of its places.  What the rules of the grammar raise is
reported as it was raised, with line and column; what is unexpected is reported at the furthest
miss of the whole reading (`parse_error_located`).

One thing is reported for what it is, whatever was missed there: a closing brace outside all blocks.
The commands before it have been derived, so no alternative that was given up on the way has looked
behind it (`Document.parse_strayBrace`).
-/
namespace Planetarium
open Parsing Text Attempt

variable {limits : Limits} {text : List Char}

/-- All that happens in the reading of a text as an expression, up to the miss at its end. -/
def Expr.trail (limits : Limits) (text : List Char) : List Event :=
  match Grammar.expression { limits, multiline := true } (.start text) with
  | ⟨.stopped _, log⟩ => log
  | ⟨.mismatched, log⟩ =>
    log ++ [.missed ((Cursor.start text).skip isLayout).offset .expression]
  | ⟨.matched _ next _, log⟩ => log ++ [.missed (next.skip isLayout).offset .operator]

/-- All that happens in the reading of a text as a document, up to the miss at its end. -/
def Document.trail (limits : Limits) (text : List Char) : List Event :=
  match Grammar.commands { limits } (.start text) with
  | ⟨.stopped _, log⟩ | ⟨.mismatched, log⟩ => log
  | ⟨.matched _ next _, log⟩ => log ++ [.missed (next.skip isLayout).offset .command]

/-- What is wrong with an expression is reported from its reading. -/
theorem Expr.reported_of_ofChars {f : Fault} (h : ofChars limits text = .error f) :
    Reported text (trail limits text) (f.inText text) := by
  have hstart : (Cursor.start text).Within text := Cursor.within_start
  have hlocated := Grammar.located_expression (l := { limits, multiline := true }) hstart
  dsimp only [ofChars] at h
  unfold trail
  generalize Grammar.expression _ (.start text) = a at h hlocated ⊢
  obtain ⟨outcome, log⟩ := a
  cases outcome with
  | matched e next p =>
    have hnext : next.Within text := hlocated.within ⟨p, rfl⟩
    have hlast : (next.skip isLayout).Within text := hnext.skip
    simp only at h ⊢
    split at h
    · contradiction
    · cases h
      exact reported_unexpectedFault (misses_concat_le hlocated.misses_le hlast.1)
  | mismatched =>
    have hfirst : ((Cursor.start text).skip isLayout).Within text := hstart.skip
    cases h
    exact reported_unexpectedFault (misses_concat_le hlocated.misses_le hfirst.1)
  | stopped reason =>
    cases h
    exact reported_toFault (hlocated.stops rfl) hlocated.misses_le

/-- So is what is wrong with a document. -/
theorem Document.reported_of_ofChars {f : Fault} (h : ofChars limits text = .error f) :
    Reported text (trail limits text) (f.inText text) := by
  have hstart : (Cursor.start text).Within text := Cursor.within_start
  have hlocated := Grammar.located_commands (l := { limits }) hstart
  have hmatched := not_mismatched_commands (l := { limits }) (s := .start text)
  unfold ofChars at h
  unfold trail
  generalize Grammar.commands _ (.start text) = a at h hlocated hmatched ⊢
  obtain ⟨outcome, log⟩ := a
  cases outcome with
  | matched cs next p =>
    have hnext : next.Within text := hlocated.within ⟨p, rfl⟩
    have hlast : (next.skip isLayout).Within text := hnext.skip
    simp only at h ⊢
    split at h
    · contradiction
    · split at h
      · cases h
        exact reported_inText hlast.1 nofun
      · cases h
        exact reported_unexpectedFault (misses_concat_le hlocated.misses_le hlast.1)
  | mismatched => exact absurd rfl hmatched
  | stopped reason =>
    cases h
    exact reported_toFault (hlocated.stops rfl) hlocated.misses_le

/-- **Every report of a rejected text says where it is.**  Its offset is a place of the text, line
and column are those of the offset, and its message ends in them once.  What was unexpected is
reported at the furthest miss of the reading, with the character there and all that was missed
there.  A fault that a rule raises is reported for its own cause at its own offset. -/
theorem parse_error_located (text : String) (limits : Limits) :
    (∀ e, Document.parse text limits = .error e →
      Reported text.toList (Document.trail limits text.toList) e) ∧
    (∀ e, Expr.parse text limits = .error e →
      Reported text.toList (Expr.trail limits text.toList) e) ∧
    (∀ f, (Grammar.commands { limits } (.start text.toList)).outcome = .stopped (.fault f) →
      Document.parse text limits = .error (f.inText text.toList)) ∧
    ∀ f, (Grammar.expression { limits, multiline := true } (.start text.toList)).outcome =
      .stopped (.fault f) → Expr.parse text limits = .error (f.inText text.toList) := by
  refine ⟨fun e h => ?_, fun e h => ?_, fun f h => ?_, fun f h => ?_⟩
  · obtain ⟨f, hf, rfl⟩ := Document.parse_eq_error.mp h
    exact Document.reported_of_ofChars hf
  · obtain ⟨f, hf, rfl⟩ := Grammar.mapError_eq_error.mp h
    exact Expr.reported_of_ofChars hf
  · refine Document.parse_eq_error.mpr ⟨f, ?_, rfl⟩
    rw [Document.ofChars]
    generalize Grammar.commands _ (.start text.toList) = a at h ⊢
    obtain ⟨outcome, log⟩ := a
    cases h
    rfl
  · refine Grammar.mapError_eq_error.mpr ⟨f, ?_, rfl⟩
    dsimp only [Expr.ofChars]
    generalize Grammar.expression _ (.start text.toList) = a at h ⊢
    obtain ⟨outcome, log⟩ := a
    cases h
    rfl

/-- A parenthesis on the second line, where a command could stand. -/
theorem parse_error_located_second_line :
    Document.parse "\n)" {} =
      .error ⟨⟨.unexpected (some ')') [.openBrace, .command, .identifier], 1⟩, ⟨2, 1⟩⟩ ∧
    Reported "\n)".toList (Document.trail {} "\n)".toList)
      ⟨⟨.unexpected (some ')') [.openBrace, .command, .identifier], 1⟩, ⟨2, 1⟩⟩ := by
  have hfault : Document.ofChars {} "\n)".toList =
      .error ⟨.unexpected (some ')') [.openBrace, .command, .identifier], 1⟩ := by
    rw [Document.ofChars, Grammar.commands_eq]
    rfl
  have hparse : Document.parse "\n)" {} =
      .error ⟨⟨.unexpected (some ')') [.openBrace, .command, .identifier], 1⟩, ⟨2, 1⟩⟩ :=
    Document.parse_eq_error.mpr ⟨_, hfault, rfl⟩
  exact ⟨hparse, (parse_error_located "\n)" {}).1 _ hparse⟩

namespace Document

theorem conclude_strayBrace {n : Nat} {a : Attempt (List Command) n} {cs : List Command}
    {next : Cursor} (hg : a.Gives cs next) (hbrace : (next.skip isLayout).peek? = some '}')
    (hle : a.Within (next.skip isLayout).offset) :
    conclude limits text a = .error ⟨.strayBrace, (next.skip isLayout).offset⟩ := by
  have hleft : (next.skip isLayout).left ≠ 0 := by
    intro hzero
    rw [Cursor.peek?, List.length_eq_zero_iff.mp hzero] at hbrace
    contradiction
  have hfurthest : furthest a.log ≤ (next.skip isLayout).offset := furthest_le hle
  obtain ⟨outcome, log⟩ := a
  obtain ⟨p, rfl⟩ := hg
  simp only [conclude, if_neg hleft]
  rw [if_pos (by simp [hbrace, hfurthest])]

/-- **A closing brace outside all blocks is always reported as such.**  Where the commands of a
text end in front of one, nothing was missed behind it, and the text is rejected for that brace. -/
theorem parse_strayBrace (text : String) (limits : Limits) (cs : List Command) (next : Cursor)
    (hcommands : (Grammar.commands { limits } (.start text.toList)).Gives cs next)
    (hbrace : (next.skip isLayout).peek? = some '}') :
    (Grammar.commands { limits } (.start text.toList)).Within (next.skip isLayout).offset ∧
    text.toList[(next.skip isLayout).offset]? = some '}' ∧
    parse text limits =
      .error (Fault.inText ⟨.strayBrace, (next.skip isLayout).offset⟩ text.toList) ∧
    (Fault.inText ⟨.strayBrace, (next.skip isLayout).offset⟩ text.toList).message =
      "Unexpected '\x7d' without matching '\x7b'" ++
        (Position.ofOffset text.toList (next.skip isLayout).offset).suffix := by
  have hstart : (Cursor.start text.toList).Within text.toList := Cursor.within_start
  have hlocated := Grammar.located_commands (l := { limits }) hstart
  have hnext : next.Within text.toList := hlocated.within hcommands
  have hlast : (next.skip isLayout).Within text.toList := hnext.skip
  have hended : Grammar.Ended next.rest := fun c hc => Option.some.inj (hc.symm.trans hbrace)
  -- what was read is derived, and what is derived is read without looking behind the brace
  have hreads := Grammar.reads_of_commands hcommands hended
  have hwithin : (Grammar.commands { limits } (.start text.toList)).Within
      (next.skip isLayout).offset := by
    rw [Cursor.start_eq_facing, hlast.eq_facing]
    exact (Grammar.commands_gives_of_reads hreads hended (Nat.le_refl _)).2
  have hfault : ofChars limits text.toList = .error ⟨.strayBrace, (next.skip isLayout).offset⟩ := by
    rw [ofChars_eq_conclude]
    exact conclude_strayBrace hcommands hbrace hwithin
  refine ⟨hwithin, hlast.getElem?.trans hbrace, parse_eq_error.mpr ⟨_, hfault, rfl⟩, ?_⟩
  exact (reported_of_ofChars hfault).message_eq

/-- A brace on the line after a word, which might have been a definition or a property. -/
theorem parse_strayBrace_word :
    parse "sun\n\x7d" {} = .error ⟨⟨.strayBrace, 4⟩, ⟨2, 1⟩⟩ := by
  have hword : Word ("sun\n\x7d".toList.dropWhile isLayout) "sun" "\n\x7d".toList :=
    ⟨rfl, by decide, fun c hc => Option.some.inj hc ▸ rfl⟩
  have hline : Grammar.EndsLine ("\n\x7d".toList.dropWhile isSpace) :=
    fun c hc => .inl (Option.some.inj hc ▸ rfl)
  have hreads : Grammar.Reads { limits := {} } "sun\n\x7d".toList
      (.commands [.invocation [.word "sun"]]) "\n\x7d".toList :=
    .commands (.invocation (.word hword (.noArgs hline))) (.noCommands (by decide))
  have hended : Grammar.Ended "\n\x7d".toList := fun c hc => (Option.some.inj hc).symm
  have hgives := (Grammar.commands_gives_of_reads hreads hended (Nat.le_refl _)).1
  rw [← Cursor.start_eq_facing] at hgives
  exact (parse_strayBrace "sun\n\x7d" {} _ _ hgives rfl).2.2.1

end Document
end Planetarium
