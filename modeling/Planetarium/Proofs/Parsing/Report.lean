import Planetarium.Proofs.Parsing.Furthest
import Planetarium.Proofs.Parsing.Located
import Planetarium.Proofs.Text.Position

/-!
# What a report says

A report names a place of its text and says where that is, once, at the end of its message.  If
something is unexpected there, the place is the furthest one at which anything was missed, and the
report lists all that was missed there and nothing else (`FurthestMiss`).

The log keeps the misses of all alternatives in the order in which they were met.  The report
depends on which of them are furthest and not on that order.
-/
namespace Planetarium.Text.Position

/-- How a report says where it is. -/
def suffix (p : Position) : String :=
  " (line " ++ toString p.line ++ ", column " ++ toString p.column ++ ")"

end Planetarium.Text.Position

namespace Planetarium.Parsing
open Text

variable {text : List Char} {log : List Event} {c : Char} {s : List Char} {k : Nat}

/-! ## The end of a message -/

/-- The text ends in the character. -/
def EndsIn (s : String) (c : Char) : Prop := s.toList.getLast? = some c

instance (s : String) (c : Char) : Decidable (EndsIn s c) :=
  inferInstanceAs (Decidable (_ = _))

/-- A text ends as its last part does. -/
theorem EndsIn.append {t : String} (h : EndsIn t c) (s : String) : EndsIn (s ++ t) c := by
  rw [EndsIn, String.toList_append, List.getLast?_append, h]
  rfl

theorem EndsIn.append_empty {s : String} (h : EndsIn s c) : EndsIn (s ++ "") c := by
  rwa [String.append_empty]

/-- A text has one last character. -/
theorem EndsIn.unique {s : String} {d : Char} (h : EndsIn s c) (h' : EndsIn s d) : c = d :=
  Option.some.inj (h.symm.trans h')

/-- The suffix with the place ends in a parenthesis. -/
theorem endsIn_suffix (p : Position) : EndsIn p.suffix ')' :=
  EndsIn.append (by decide) _

/-- And there is a comma in it. -/
theorem comma_mem_suffix (p : Position) : ',' ∈ p.suffix.toList := by
  simp [Position.suffix]

/-- No label ends in a parenthesis. -/
theorem Expected.endsIn_label (e : Expected) : ∃ c, EndsIn e.label c ∧ c ≠ ')' := by
  cases e with
  | closeParen | colon | define | openBrace | closeBrace => exact ⟨'\'', by decide, by decide⟩
  | command => exact ⟨'d', by decide, by decide⟩
  | expression => exact ⟨'n', by decide, by decide⟩
  | identifier | operator => exact ⟨'r', by decide, by decide⟩

/-- Nor do several of them. -/
theorem endsIn_intercalate (e : Expected) (es : List Expected) :
    ∃ c, EndsIn (" or ".intercalate ((e :: es).map Expected.label)) c ∧ c ≠ ')' := by
  induction es generalizing e with
  | nil =>
    rw [List.map_singleton, String.intercalate_singleton]
    exact e.endsIn_label
  | cons d es ih =>
    obtain ⟨c, hc, hne⟩ := ih d
    rw [List.map_cons, List.map_cons, String.intercalate_cons_cons]
    exact ⟨c, hc.append _, hne⟩

/-- Nor does a quoted word. -/
theorem endsIn_quoted (word : String) : ∃ c, EndsIn (quoted word) c ∧ c ≠ ')' := by
  refine ⟨quoteMark word.toList, ?_, ?_⟩
  · rw [EndsIn, quoted, String.toList_ofList, quotedChars, List.getLast?_append]
    rfl
  · unfold quoteMark
    split <;> decide

/-- The message for what was not expected, put together from its parts. -/
theorem message_unexpected (found : Option Char) (expected : List Expected) :
    (Cause.unexpected found expected).message =
      "Unexpected " ++ found.elim "end of input" (fun c => quoted (String.singleton c)) ++
        ", expected " ++ " or ".intercalate (expected.map Expected.label) := by
  cases found <;> rfl

/-- Messages end in a word or a quote, unless they tell the limit in parentheses. -/
theorem Cause.endsIn_message {cause : Cause} (h : ∀ limit, cause ≠ .stackExhausted limit) :
    ∃ c, EndsIn cause.message c ∧ c ≠ ')' := by
  cases cause with
  | unexpected found expected =>
    rw [message_unexpected]
    cases expected with
    | nil =>
      rw [List.map_nil, String.intercalate_nil]
      exact ⟨' ', EndsIn.append_empty (EndsIn.append (t := ", expected ") (by decide) _), by decide⟩
    | cons e es =>
      obtain ⟨c, hc, hne⟩ := endsIn_intercalate e es
      exact ⟨c, hc.append _, hne⟩
  | strayBrace => exact ⟨'\'', by decide, by decide⟩
  | malformedNumber literal =>
    obtain ⟨c, hc, hne⟩ := endsIn_quoted literal
    exact ⟨c, hc.append "Malformed number literal ", hne⟩
  | numberOutOfRange literal =>
    exact ⟨'e', EndsIn.append (t := " is out of range") (by decide) _, by decide⟩
  | unterminatedString => exact ⟨'l', by decide, by decide⟩
  | unterminatedBlock => exact ⟨'d', by decide, by decide⟩
  | nestedTooDeep limit => exact ⟨'s', EndsIn.append (t := " levels") (by decide) _, by decide⟩
  | stackExhausted limit => exact absurd rfl (h limit)

theorem comma_not_mem_toString (n : Int) : ',' ∉ (toString n).toList := by
  have hdigits : ∀ m : Nat, ',' ∉ m.repr.toList := by
    intro m hmem
    rw [Nat.toList_repr] at hmem
    exact absurd (Nat.isDigit_of_mem_toDigits (by decide) (by decide) hmem) (by decide)
  cases n with
  | ofNat m => exact hdigits m
  | negSucc m =>
    show ',' ∉ ("-" ++ m.succ.repr).toList
    simpa using hdigits m.succ

/-- There is no comma in the message for a stack that is exhausted. -/
theorem comma_not_mem_message (limit : Int) :
    ',' ∉ (Cause.stackExhausted limit).message.toList := by
  have hmessage : (Cause.stackExhausted limit).message =
      "Nesting too deep for the interpreter stack (max_depth=" ++ toString limit ++ ")" := rfl
  rw [hmessage, String.toList_append, String.toList_append, List.mem_append, List.mem_append]
  rintro ((hmem | hmem) | hmem)
  · exact absurd hmem (by decide)
  · exact comma_not_mem_toString limit hmem
  · exact absurd hmem (by decide)

/-- No cause says where it is. -/
theorem Cause.message_ne_append_suffix (cause : Cause) (s : String) (p : Position) :
    cause.message ≠ s ++ p.suffix := by
  intro heq
  by_cases h : ∃ limit, cause = .stackExhausted limit
  · -- a column comes after a comma
    obtain ⟨limit, rfl⟩ := h
    refine comma_not_mem_message limit ?_
    rw [heq, String.toList_append]
    exact List.mem_append_right _ (comma_mem_suffix p)
  · obtain ⟨c, hc, hne⟩ := cause.endsIn_message fun limit hl => h ⟨limit, hl⟩
    rw [heq] at hc
    exact hne (hc.unique ((endsIn_suffix p).append s))

/-! ## The furthest miss -/

/-- Something is reported as unexpected at the furthest miss of a log, with all that was missed
there. -/
structure FurthestMiss (text : List Char) (log : List Event) (offset : Nat) (found : Option Char)
    (expected : List Expected) : Prop where
  /-- The rule that gave up stood at the last miss, and that is not behind the place. -/
  raised : ∃ earlier stood missed, log = earlier ++ [.missed stood missed] ∧ stood ≤ offset
  le_offset : ∀ miss ∈ misses log, miss.1 ≤ offset
  found_eq : found = text[offset]?
  found_eq_none_iff : found = none ↔ offset = text.length
  ne_nil : expected ≠ []
  sorted : (expected.map Expected.label).Pairwise (· < ·)
  mem_iff : ∀ e, e ∈ expected ↔ (offset, e) ∈ misses log
  message_eq : (Cause.unexpected found expected).message =
    "Unexpected " ++ found.elim "end of input" (fun c => quoted (String.singleton c)) ++
      ", expected " ++ " or ".intercalate (expected.map Expected.label)

/-- Where anything is missed, something is missed furthest. -/
theorem exists_miss_furthest (h : misses log ≠ []) : ∃ e, (furthest log, e) ∈ misses log := by
  by_contra hnone
  -- otherwise all misses are before the furthest one
  have hlt : ∀ miss ∈ misses log, miss.1 < furthest log := by
    intro miss hmiss
    refine Nat.lt_of_le_of_ne (le_furthest hmiss) fun heq => ?_
    exact hnone ⟨miss.2, heq ▸ hmiss⟩
  obtain ⟨miss, hmiss⟩ := List.exists_mem_of_ne_nil _ h
  have hle : furthest log ≤ furthest log - 1 :=
    furthest_le fun miss hmiss => Nat.le_sub_one_of_lt (hlt miss hmiss)
  have := hlt miss hmiss
  omega

/-- One more miss in the text. -/
theorem misses_concat_le {missed : Expected} (hlog : ∀ miss ∈ misses log, miss.1 ≤ text.length)
    (hk : k ≤ text.length) : ∀ miss ∈ misses (log ++ [.missed k missed]), miss.1 ≤ text.length := by
  rw [misses_append]
  exact List.forall_mem_append.mpr ⟨hlog, List.forall_mem_singleton.mpr hk⟩

/-- What was missed furthest on are the misses at the furthest offset. -/
theorem mem_missedFurthest {e : Expected} :
    e ∈ missedFurthest log ↔ (furthest log, e) ∈ misses log := by
  simp [missedFurthest, Expected.mem_all]

/-- The fault that is made of the misses names the furthest offset and all that was missed there.
-/
theorem furthestMiss_unexpectedFault {stood : Nat} {missed : Expected}
    (h : ∀ miss ∈ misses (log ++ [.missed stood missed]), miss.1 ≤ text.length) :
    FurthestMiss text (log ++ [.missed stood missed]) (furthest (log ++ [.missed stood missed]))
      text[furthest (log ++ [.missed stood missed])]?
      (missedFurthest (log ++ [.missed stood missed])) := by
  have hlast : (stood, missed) ∈ misses (log ++ [.missed stood missed]) := by simp [misses]
  have hle := furthest_le h
  refine ⟨⟨log, stood, missed, rfl, le_furthest hlast⟩, fun _ => le_furthest, rfl, ?_, ?_, ?_,
    fun _ => mem_missedFurthest, message_unexpected _ _⟩
  · rw [List.getElem?_eq_none_iff]
    omega
  · obtain ⟨e, he⟩ := exists_miss_furthest (List.ne_nil_of_mem hlast)
    exact List.ne_nil_of_mem (mem_missedFurthest.mpr he)
  · rw [List.pairwise_map]
    exact Expected.all_sorted.filter _

/-! ## Reports -/

/-- What is said of a report of a text, where `log` is all that happened until it was made. -/
structure Reported (text : List Char) (log : List Event) (e : ParseError) : Prop where
  offset_le : e.fault.offset ≤ text.length
  line_eq : e.position.line = (text.take e.fault.offset).count '\n' + 1
  column_eq : e.position.column =
    ((text.take e.fault.offset).reverse.takeWhile (· ≠ '\n')).length + 1
  message_eq : e.message = e.fault.cause.message ++ e.position.suffix
  suffix_once : ∀ (s : String) (p : Position), e.fault.cause.message ≠ s ++ p.suffix
  unexpected : ∀ found expected, e.fault.cause = .unexpected found expected →
    FurthestMiss text log e.fault.offset found expected

/-- A fault inside the text is reported with the line and column of its offset. -/
theorem reported_inText {f : Fault} (hle : f.offset ≤ text.length)
    (hunexpected : ∀ found expected, f.cause = .unexpected found expected →
      FurthestMiss text log f.offset found expected) : Reported text log (f.inText text) where
  offset_le := hle
  line_eq := Position.line_ofOffset
  column_eq := Position.column_ofOffset
  message_eq := by
    simp only [ParseError.message, Position.suffix, String.append_assoc]
  suffix_once := f.cause.message_ne_append_suffix
  unexpected := hunexpected

theorem reported_unexpectedFault {stood : Nat} {missed : Expected}
    (h : ∀ miss ∈ misses (log ++ [.missed stood missed]), miss.1 ≤ text.length) :
    Reported text (log ++ [.missed stood missed])
      ((unexpectedFault text (log ++ [.missed stood missed])).inText text) := by
  refine reported_inText (furthest_le h) ?_
  rintro _ _ ⟨⟩
  exact furthestMiss_unexpectedFault h

/-- What stops a reading in its text is reported in the text. -/
theorem reported_toFault {reason : Stop} {limit : Int} (h : reason.Located text log)
    (hlog : ∀ miss ∈ misses log, miss.1 ≤ text.length) :
    Reported text log ((reason.toFault text limit log).inText text) := by
  cases reason with
  | fault f => exact reported_inText h.1 fun found expected hf => absurd hf (h.2 found expected)
  | unexpected =>
    obtain ⟨earlier, stood, missed, rfl⟩ := h
    exact reported_unexpectedFault hlog
  | exhausted => exact reported_inText (furthest_le hlog) nofun

end Planetarium.Parsing
