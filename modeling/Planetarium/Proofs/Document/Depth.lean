import Planetarium.Proofs.Grammar.Nesting
import Mathlib.Data.Nat.Find

/-!
# The limit on the nesting is a threshold

For each text there is one number that decides all about the limit on its nesting.  Below it the
limit is what the text is rejected for; from it on the reading comes to the same whatever the limit,
and whatever is then wrong with the text, it is not its nesting.

The number is never above the count of opening brackets, nor above the greatest number of brackets
open at once: brackets of all kinds share one counter, and a bracket that is closed, or was tried in
vain, does not go on counting.  For a text that can be read it is just that depth.

That is so where there is room for everything.  Where there is not, a text that is read in some room
is still read in the same way in any greater one, and in a lower one it is read so or rejected for
its nesting (`CappedResult`).
-/
namespace Planetarium
open Parsing Text Attempt

variable {α : Type} {d b : Nat} {lim lim' : Limits} {text : List Char}
  {read : Int → Except ParseError α}

/-- The limit on the nesting is not what the text is rejected for. -/
def Settled (r : Except ParseError α) : Prop :=
  ∀ e, r = .error e → e.fault.cause.ofNesting = false

/-- What the readings of a text come to under all limits: below `D` the limit is exceeded, and from
`D` on the result is `r`. -/
structure Threshold (text : List Char) (read : Int → Except ParseError α) (D : Nat)
    (r : Except ParseError α) : Prop where
  below : ∀ d : Int, 0 ≤ d → d < D → ∃ e, read d = .error e ∧ e.fault.cause = .nestedTooDeep d
  above : ∀ d : Int, D ≤ d → read d = r
  settled : Settled r
  le_countP : D ≤ text.countP opens
  /-- Brackets that have been closed, or were tried in vain, do not count. -/
  le_bracketDepth : D ≤ bracketDepth text
  /-- In a text that can be read all brackets count alike. -/
  eq_bracketDepth : ∀ v, r = .ok v → D = bracketDepth text

/-- The first result is the second one under lower limits, where `b` brackets are open at once in
the text. -/
inductive CappedResult (lim : Limits) (b : Nat) :
    Except ParseError α → Except ParseError α → Prop
  | same {r} : Settled r → (∀ v, r = .ok v → b ≤ lim.depth.toNat) → CappedResult lim b r r
  | cut {e r'} : lim.depth.toNat < b → e.fault.cause = .nestedTooDeep lim.depth →
    CappedResult lim b (.error e) r'
  | exhausted {e r'} : lim.room ≠ none → e.fault.cause = .stackExhausted lim.depth →
    CappedResult lim b (.error e) r'

variable {r r' : Except ParseError α}

theorem settled_ok {v : α} : Settled (.ok v) := nofun

theorem settled_error {e : ParseError} (h : e.fault.cause.ofNesting = false) :
    Settled (.error e : Except ParseError α) := by
  rintro _ ⟨⟩
  exact h

theorem cappedResult_ok {v : α} (h : b ≤ lim.depth.toNat) :
    CappedResult lim b (.ok v : Except ParseError α) (.ok v) := .same settled_ok fun _ _ => h

theorem cappedResult_error {e : ParseError} (h : e.fault.cause.ofNesting = false) :
    CappedResult lim b (.error e : Except ParseError α) (.error e) := .same (settled_error h) nofun

theorem not_settled_of_ofNesting {e : ParseError} (h : e.fault.cause.ofNesting) :
    ¬ Settled (.error e : Except ParseError α) := by
  intro hs
  rw [hs e rfl] at h
  contradiction

/-- A result that is settled under the lower limit is the result under the higher one. -/
theorem CappedResult.of_settled (h : CappedResult lim b r r') (hr : Settled r) :
    r' = r ∧ ∀ v, r = .ok v → b ≤ lim.depth.toNat := by
  cases h with
  | same _ hok => exact ⟨rfl, hok⟩
  | cut _ he | exhausted _ he => exact absurd hr (not_settled_of_ofNesting (by rw [he]; rfl))

theorem CappedResult.of_not_settled (h : CappedResult lim b r r') (hroom : lim.room = none)
    (hr : ¬ Settled r) :
    lim.depth.toNat < b ∧ ∃ e, r = .error e ∧ e.fault.cause = .nestedTooDeep lim.depth := by
  cases h with
  | same hs _ => exact absurd hs hr
  | cut hd he => exact ⟨hd, _, rfl, he⟩
  | exhausted hne _ => exact absurd hroom hne

/-- What is read under higher limits is read under lower ones or rejected for its nesting. -/
theorem CappedResult.of_ok {v : α} (h : CappedResult lim b r (.ok v)) : r = .ok v ∨
    ∃ e, r = .error e ∧ (lim.depth.toNat < b ∧ e.fault.cause = .nestedTooDeep lim.depth ∨
      e.fault.cause = .stackExhausted lim.depth) := by
  cases h with
  | same _ _ => exact .inl rfl
  | cut hd he => exact .inr ⟨_, rfl, .inl ⟨hd, he⟩⟩
  | exhausted _ he => exact .inr ⟨_, rfl, .inr he⟩

/-- What is read under lower limits is read under higher ones. -/
theorem CappedResult.ok {v : α} (h : CappedResult lim b (.ok v) r') :
    r' = .ok v ∧ b ≤ lim.depth.toNat :=
  ⟨(h.of_settled settled_ok).1, (h.of_settled settled_ok).2 v rfl⟩

/-- If limits do nothing but cut readings short, the least limit that does not is a threshold. -/
theorem exists_threshold
    (h : ∀ d d' : Nat, d ≤ d' →
      CappedResult { depth := d, room := none } (bracketDepth text) (read d) (read d')) :
    ∃ D r, Threshold text read D r := by
  classical
  have hcut := fun d => (h d d (Nat.le_refl d)).of_not_settled rfl
  -- where as many brackets are allowed as are open at once, nothing is cut short
  have henough : ∃ d : Nat, Settled (read d) :=
    ⟨bracketDepth text, not_not.mp fun hn => Nat.lt_irrefl _ (hcut _ hn).1⟩
  generalize hD : Nat.find henough = D
  have hsettled : Settled (read D) := hD ▸ Nat.find_spec henough
  have hmin : ∀ d < D, ¬ Settled (read d) := fun d hd => Nat.find_min henough (hD ▸ hd)
  have hle : D ≤ bracketDepth text :=
    Nat.not_lt.mp fun hlt => Nat.lt_irrefl _ (hcut _ (hmin _ hlt)).1
  refine ⟨D, read D, ?_, ?_, hsettled, Nat.le_trans hle bracketDepth_le, hle, ?_⟩
  · intro d hnonneg hlt
    obtain ⟨d, rfl⟩ := Int.eq_ofNat_of_zero_le hnonneg
    exact (hcut d (hmin d (by omega))).2
  · intro d hge
    obtain ⟨d, rfl⟩ := Int.eq_ofNat_of_zero_le (Int.le_trans (Int.natCast_nonneg D) hge)
    exact ((h D d (by omega)).of_settled hsettled).1
  · exact fun v hv => Nat.le_antisymm hle (((h D D (Nat.le_refl D)).of_settled hsettled).2 v hv)

/-! ## The two readers -/

/-- A text that is read up to layout at its end nests as deep as what was read. -/
theorem bracketDepth_le_of_spans {t : Cursor} (h : Spans d 0 (.start text) t)
    (ht : (t.skip isLayout).left = 0) : bracketDepth text ≤ d := by
  obtain ⟨w, hw, -, hle⟩ := h.trans spans_skip_isLayout
  rw [List.length_eq_zero_iff.mp ht, List.append_nil] at hw
  rw [bracketDepth, show text = w from hw]
  simpa using hle

theorem ofNesting_toFault {reason : Stop} {limit : Int} {log : List Event}
    (h : reason.ofNesting = false) : (reason.toFault text limit log).cause.ofNesting = false := by
  cases reason with
  | fault f => exact h
  | unexpected => rfl
  | exhausted => contradiction

/-- Unless the reading stops for lack of room, the limit is not in its report. -/
theorem cappedResult_stopped {reason : Stop} {limit limit' : Int} {log : List Event}
    (h : reason.ofNesting = false) :
    CappedResult lim b (.error ((reason.toFault text limit log).inText text) : Except ParseError α)
      (.error ((reason.toFault text limit' log).inText text)) := by
  have hlimit : reason.toFault text limit' log = reason.toFault text limit log := by
    cases reason with
    | fault f => rfl
    | unexpected => rfl
    | exhausted => contradiction
  rw [hlimit]
  exact cappedResult_error (ofNesting_toFault h)

/-- A document is read alike under both limits, or exceeds the lower one. -/
theorem Document.capped_parse (text : String) (hlim : lim.AtMost lim') :
    CappedResult lim (bracketDepth text.toList) (parse text lim) (parse text lim') := by
  have hcapped := Grammar.capped_commands hlim (l := { limits := {} }) (s := .start text.toList)
  unfold parse ofChars
  simp only [Level.limited] at hcapped ⊢
  generalize Grammar.commands _ _ = a at hcapped ⊢
  generalize Grammar.commands _ _ = a' at hcapped ⊢
  cases hcapped with
  | matched hspan =>
    simp only
    split
    · exact cappedResult_ok (bracketDepth_le_of_spans hspan ‹_›)
    · split <;> exact cappedResult_error rfl
  | mismatched => exact cappedResult_error rfl
  | stopped hr => exact cappedResult_stopped hr
  | cut hlt => exact .cut hlt rfl
  | exhausted hne => exact .exhausted hne rfl

/-- So is an expression. -/
theorem Expr.capped_parse (text : String) (hlim : lim.AtMost lim') :
    CappedResult lim (bracketDepth text.toList) (parse text lim) (parse text lim') := by
  have hcapped := Grammar.capped_expression hlim (l := { limits := {}, multiline := true })
    (s := .start text.toList)
  unfold parse ofChars
  simp only [Level.limited] at hcapped ⊢
  generalize Grammar.expression _ _ = a at hcapped ⊢
  generalize Grammar.expression _ _ = a' at hcapped ⊢
  cases hcapped with
  | matched hspan =>
    simp only
    split
    · exact cappedResult_ok (bracketDepth_le_of_spans hspan ‹_›)
    · exact cappedResult_error rfl
  | mismatched => exact cappedResult_error rfl
  | stopped hr => exact cappedResult_stopped hr
  | cut hlt => exact .cut hlt rfl
  | exhausted hne => exact .exhausted hne rfl

/-- A document that can be read is read so in less room, or its nesting is found to be too much for
the stack. -/
theorem Document.parse_narrow {text : String} {cs : List Command} (h : parse text lim' = .ok cs)
    (hdepth : lim.depth = lim'.depth) (hroom : lim.room.AtMost lim'.room) :
    parse text lim = .ok cs ∨
      ∃ e, parse text lim = .error e ∧ e.fault.cause = .stackExhausted lim.depth := by
  have hsame : lim'.AtMost lim' := ⟨Int.le_refl _, .refl⟩
  have hless : lim.AtMost lim' := ⟨Int.le_of_eq hdepth, hroom⟩
  have hself := capped_parse text hsame
  have hnarrow := capped_parse text hless
  rw [h] at hself hnarrow
  rcases hnarrow.of_ok with hok | ⟨e, he, ⟨hlt, -⟩ | hcause⟩
  · exact .inl hok
  · -- as many brackets are allowed as before
    rw [hdepth] at hlt
    exact absurd hself.ok.2 (Nat.not_le_of_lt hlt)
  · exact .inr ⟨e, he, hcause⟩

/-- A lower limit on the nesting, with room for everything. -/
theorem atMost_of_le {d d' : Nat} (h : d ≤ d') :
    ({ depth := d, room := none } : Limits).AtMost { depth := d', room := none } :=
  ⟨Int.ofNat_le.mpr h, nofun⟩

/-- With room for everything, documents and expressions are read under a limit alike: each text has
a threshold. -/
theorem exists_depth_threshold (text : String) :
    (∃ D r, Threshold text.toList
      (fun depth => Document.parse text { depth, room := none }) D r) ∧
    ∃ D r, Threshold text.toList (fun depth => Expr.parse text { depth, room := none }) D r :=
  ⟨exists_threshold fun _ _ h => Document.capped_parse text (atMost_of_le h),
    exists_threshold fun _ _ h => Expr.capped_parse text (atMost_of_le h)⟩

end Planetarium
