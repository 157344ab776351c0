import Planetarium.Proofs.Grammar.Exact
import Planetarium.Proofs.Grammar.Forward
import Planetarium.Proofs.Grammar.Room
import Planetarium.Proofs.Grammar.Prefix
import Planetarium.Proofs.Parsing.Furthest
import Planetarium.Proofs.Text.Position
import Mathlib.Data.List.TakeWhile

/-!
# Documents one after another

A document and another text on the lines after it are read like the two apart.  The first is
still derived, so reading the whole comes down to reading what comes after it, and that is
reading the second text further on: what it gives is put behind the commands of the first, and what
is wrong with it is reported where it is now.

There is one exception.  A reading that runs out of room is reported at the furthest miss, and if
the second text has none, that is a place of the first one.
-/
namespace Planetarium.Document
open Parsing Text Grammar Attempt Cursor

variable {limits : Limits} {text before : List Char} {n n' d b : Nat} {cs cs' : List Command}

/-! ## How a reading ends -/

/-- What the reading of a text comes to, given the attempt at its commands. -/
def conclude (limits : Limits) (text : List Char) (a : Attempt (List Command) n) :
    Except Fault (List Command) :=
  match a with
  | ⟨.stopped reason, log⟩ => .error (reason.toFault text limits.depth log)
  | ⟨.mismatched, log⟩ => .error (unexpectedFault text log)
  | ⟨.matched commands next _, log⟩ =>
    let last := next.skip isLayout
    if last.left = 0 then .ok commands
    else if last.peek? = some '}' && furthest log ≤ last.offset then
      .error ⟨.strayBrace, last.offset⟩
    else .error (unexpectedFault text (log ++ [.missed last.offset .command]))

theorem ofChars_eq_conclude :
    ofChars limits text = conclude limits text (Grammar.commands { limits } (.start text)) := by
  unfold ofChars
  generalize Grammar.commands { limits } (.start text) = a
  obtain ⟨_ | _ | _, log⟩ := a <;> rfl

/-- The second attempt goes on like the first one `d` characters further on, behind some commands
and after misses up to an offset.  The places they end at need only be the same up to layout. -/
inductive Continues (d b : Nat) (cs : List Command) :
    Attempt (List Command) n → Attempt (List Command) n' → Prop
  | matched {ds t t' h h' log earlier} : (∀ miss ∈ misses earlier, miss.1 ≤ b) →
    t'.skip isLayout = (t.skip isLayout).forward d →
    Continues d b cs ⟨.matched ds t h, log⟩
      ⟨.matched (cs ++ ds) t' h', earlier ++ log.map (Event.forward d)⟩
  | stopped {reason log earlier} : (∀ miss ∈ misses earlier, miss.1 ≤ b) →
    (reason = .unexpected → misses log ≠ []) →
    Continues d b cs ⟨.stopped reason, log⟩
      ⟨.stopped (reason.forward d), earlier ++ log.map (Event.forward d)⟩

variable {a : Attempt (List Command) n} {a' : Attempt (List Command) n'}

theorem Continues.conclude_ok (h : Continues d b cs a a') (ha : conclude limits text a = .ok cs') :
    conclude limits (before ++ text) a' = .ok (cs ++ cs') := by
  cases h with
  | matched hb hskip =>
    simp only [conclude, hskip, forward_left] at ha ⊢
    split at ha
    · rename_i hend
      rw [if_pos hend, Except.ok.inj ha]
    · split at ha <;> contradiction
  | stopped hb he => contradiction

theorem Continues.conclude_error {f : Fault} (h : Continues before.length b cs a a')
    (hb : b < before.length) (ha : conclude limits text a = .error f) :
    ∃ f', conclude limits (before ++ text) a' = .error f' ∧ f'.cause = f.cause ∧
      (¬ a.RunsOut → f'.offset = f.offset + before.length) ∧
      (a.RunsOut → f'.offset ≤ b) := by
  cases h with
  | @matched ds t t' h h' log earlier hle hskip =>
    -- the commands end before the text does, at a stray brace or at anything else
    have hlt : ∀ miss ∈ misses earlier, miss.1 < before.length :=
      fun miss hm => Nat.lt_of_le_of_lt (hle miss hm) hb
    have hseen : ¬ (⟨.matched ds t h, log⟩ : Attempt (List Command) n).RunsOut :=
      fun hu => absurd hu.1 (by simp)
    simp only [conclude, hskip, forward_left] at ha ⊢
    split at ha
    · contradiction
    · rename_i hend
      rw [if_neg hend]
      have hpeek : ((t.skip isLayout).forward before.length).peek? = (t.skip isLayout).peek? := rfl
      simp only [hpeek, forward_offset, furthest_append_forward_le_iff hlt]
      split at ha
      · rename_i hstray
        rw [if_pos hstray]
        obtain rfl := Except.error.inj ha
        exact ⟨_, rfl, rfl, fun _ => rfl, fun hu => absurd hu hseen⟩
      · rename_i hstray
        rw [if_neg hstray]
        obtain rfl := Except.error.inj ha
        have hmove : earlier ++ log.map (Event.forward before.length) ++
            [Event.missed ((t.skip isLayout).offset + before.length) .command] = earlier ++
            (log ++ [Event.missed (t.skip isLayout).offset .command]).map
              (Event.forward before.length) := by
          simp [Event.forward]
        rw [hmove, unexpectedFault_append_forward hlt (by simp [misses])]
        exact ⟨_, rfl, rfl, fun _ => rfl, fun hu => absurd hu hseen⟩
  | @stopped reason log earlier hle he =>
    have hlt : ∀ miss ∈ misses earlier, miss.1 < before.length :=
      fun miss hm => Nat.lt_of_le_of_lt (hle miss hm) hb
    simp only [conclude] at ha ⊢
    obtain rfl := Except.error.inj ha
    refine ⟨_, rfl, ?_⟩
    cases reason with
    | fault f => exact ⟨rfl, fun _ => rfl, fun hu => absurd hu.1 (by simp)⟩
    | unexpected =>
      simp only [Stop.forward, Stop.toFault, unexpectedFault_append_forward hlt (he rfl)]
      exact ⟨trivial, fun _ => trivial, fun hu => absurd hu.1 (by simp)⟩
    | exhausted =>
      simp only [Stop.forward, Stop.toFault, RunsOut, true_and]
      -- with no miss of its own, the attempt is reported at the furthest miss before it
      refine ⟨fun hseen => furthest_append_forward hlt hseen, fun hunseen => furthest_le ?_⟩
      rw [misses_append_forward_of_eq_nil hunseen]
      exact hle

/-! ## The reading of the whole -/

/-- The attempts come to the same, but for layout at the places they end at. -/
inductive SameUpToLayout : Attempt (List Command) n → Attempt (List Command) n' → Prop
  | matched {cs t t' h h' log} : t.skip isLayout = t'.skip isLayout →
    SameUpToLayout ⟨.matched cs t h, log⟩ ⟨.matched cs t' h', log⟩
  | stopped {reason log} : SameUpToLayout ⟨.stopped reason, log⟩ ⟨.stopped reason, log⟩

theorem within_widen {α : Type} {l : Level} {k : Nat} {a : Attempt α n} (h : n ≤ m) :
    (l.within k fun _ => a.widen h) = (l.within k fun _ => a).widen h := by
  cases hroom : l.lacks k with
  | true =>
    rw [Level.within_of_lacks hroom, Level.within_of_lacks hroom]
    rfl
  | false => rw [Level.within_of_room hroom, Level.within_of_room hroom]

theorem commands_eq_commandAt {l : Level} {s r : Cursor} (hr : r = s.skip isLayout) :
    ∃ h : r.left ≤ s.left, Grammar.commands l s =
      (l.within Level.commandFrames fun _ => commandAt l r).branch
        (fun first t ht => prepend [first] (Grammar.commands l t) (by omega))
        (fun _ => .accept [] s (Nat.lt_succ_self _)) := by
  subst hr
  have hle := left_skip_le (p := isLayout) (s := s)
  refine ⟨hle, ?_⟩
  rw [commands_eq, command_eq, within_widen, widen_branch]
  rfl

theorem not_mismatched_commands {l : Level} {s : Cursor} : ¬ (Grammar.commands l s).Fails := by
  intro hf
  rw [commands_eq] at hf
  rcases fails_branch.mp hf with ⟨_, t, ht, hf⟩ | ⟨_, hf⟩
  · have := ht.progress
    rcases fails_andThen.mp hf with ⟨_, _, _, hf⟩ | hf
    · exact not_fails_accept hf
    · exact not_mismatched_commands hf
  · exact not_fails_accept hf
termination_by s.left

/-- Commands may as well be read from after the layout before them. -/
theorem commands_sameUpToLayout {l : Level} {p q : Cursor}
    (h : p.skip isLayout = q.skip isLayout) :
    SameUpToLayout (Grammar.commands l p) (Grammar.commands l q) := by
  obtain ⟨hp, hpe⟩ := commands_eq_commandAt (l := l) (s := p) rfl
  obtain ⟨hq, hqe⟩ := commands_eq_commandAt (l := l) h
  rw [hpe, hqe]
  rcases l.within _ fun _ => commandAt l (p.skip isLayout) with ⟨_ | _ | _, log⟩
  · rename_i first t ht
    have hnf := not_mismatched_commands (l := l) (s := t)
    simp only [Attempt.branch, prepend, andThen]
    generalize Grammar.commands l t = a at hnf ⊢
    obtain ⟨_ | _ | _, log⟩ := a
    · exact .matched rfl
    · exact absurd rfl hnf
    · exact .stopped
  · exact .matched h
  · exact .stopped

/-- Commands read further on, behind others and from before some layout, go on like the same
commands read at the beginning. -/
theorem continues_of_follows {a : Attempt (List Command) n} {m m' : Nat}
    {a' : Attempt (List Command) m} {a'' : Attempt (List Command) m'} {whole : Attempt _ n'}
    {hm : m' ≤ n'} (ha : ¬ a.Fails) (hf : Follows d a a') (hs : SameUpToLayout a' a'')
    (hr : whole.Resumes b (prepend cs a'' hm)) : Continues d b cs a whole := by
  obtain ⟨log, hlog, rfl⟩ := hr
  cases hf with
  | matched =>
    cases hs with
    | matched hskip =>
      simp only [prepend, andThen, Attempt.branch, accept, since, List.append_nil]
      exact .matched hlog (hskip.symm.trans skip_forward)
  | mismatched => exact absurd rfl ha
  | stopped he =>
    cases hs with
    | stopped => exact .stopped hlog he

theorem start_forward {text : List Char} :
    (start text).forward d = facing (d + text.length) text := by
  simp [start, forward, facing]

/-- What a document and a text after it come to, given what becomes of the text. -/
theorem commands_continues (t₂ : List Char) {t₁ : List Char} {c₁ : List Command}
    (h : IsDocument limits t₁ c₁) :
    Continues (t₁.length + 1) t₁.length c₁ (Grammar.commands { limits } (.start t₂))
      (Grammar.commands { limits } (.start (t₁ ++ '\n' :: t₂))) := by
  obtain ⟨rest, hreads, hend⟩ := h
  have hwhole : Reads { limits } (addLine t₂ t₁) (.commands c₁) (addLine t₂ rest) :=
    hreads.addLine rfl
  have hdrop : (addLine t₂ rest).dropWhile isLayout = t₂.dropWhile isLayout := by
    -- what the first document leaves is layout, and so is the line break behind it
    have hall : ∀ c ∈ rest ++ ['\n'], isLayout c := by
      intro c hc
      rcases List.mem_append.mp hc with hc | hc
      · exact List.dropWhile_eq_nil_iff.mp hend c hc
      · rw [List.mem_singleton.mp hc]
        decide
    rw [addLine, List.append_cons, List.dropWhile_append_of_pos hall]
  have hno : NoOperator (addLine t₂ rest) := by
    refine forall_head_addLine (fun c hc => ?_) (by decide)
    have := List.dropWhile_eq_nil_iff.mp hend c (List.mem_of_mem_head? hc)
    exact (noOperator_of_head (t := rest) (by rw [hend]; exact forall_head?_nil)) c hc
  have hn : (addLine t₂ t₁).length = t₁.length + 1 + t₂.length := by
    simp only [addLine, List.length_append, List.length_cons]
    omega
  obtain ⟨hm, hresumes⟩ := commands_resumes_of_reads hwhole hno (Nat.le_refl _)
  have hskip : ((start t₂).forward (t₁.length + 1)).skip isLayout =
      (facing (addLine t₂ t₁).length (addLine t₂ rest)).skip isLayout := by
    rw [start_forward, skip_facing (by omega), skip_facing hwhole.length_le, hdrop, hn]
  have hbound : (facing (addLine t₂ t₁).length (addLine t₂ rest)).offset ≤ t₁.length := by
    simp only [facing_offset, addLine, List.length_append, List.length_cons]
    omega
  rw [← addLine, start_eq_facing (addLine t₂ t₁)]
  exact continues_of_follows not_mismatched_commands follows_commands
    (commands_sameUpToLayout hskip) (hresumes.mono hbound)

/-! ## Both texts -/

theorem parse_eq_error {text : String} {limits : Limits} {e : ParseError} :
    parse text limits = .error e ↔
      ∃ f, ofChars limits text.toList = .error f ∧ e = f.inText text.toList :=
  mapError_eq_error

theorem toList_append_line (t₁ t₂ : String) :
    (t₁ ++ "\n" ++ t₂).toList = t₁.toList ++ '\n' :: t₂.toList := by
  simp

/-- **A document and a text on the lines after it are read like the two apart.**  Where the text
is a document as well, its commands come after those of the first.  Where it is rejected, the
whole is rejected for the same cause, as many characters and lines further on and in the same
column.  Only a text that runs out of room before anything is missed is reported where the first
document has its furthest miss. -/
theorem parse_append (limits : Limits) (t₁ t₂ : String) (c₁ : List Command)
    (h₁ : parse t₁ limits = .ok c₁) :
    (∀ c₂, parse t₂ limits = .ok c₂ → parse (t₁ ++ "\n" ++ t₂) limits = .ok (c₁ ++ c₂)) ∧
    ∀ e₂, parse t₂ limits = .error e₂ →
      ∃ e, parse (t₁ ++ "\n" ++ t₂) limits = .error e ∧ e.fault.cause = e₂.fault.cause ∧
        (¬ (Grammar.commands { limits } (.start t₂.toList)).RunsOut →
          e.fault.offset = t₁.length + 1 + e₂.fault.offset ∧
          e.position.line = e₂.position.line + 1 + t₁.toList.count '\n' ∧
          e.position.column = e₂.position.column) ∧
        ((Grammar.commands { limits } (.start t₂.toList)).RunsOut →
          e.fault.offset ≤ t₁.length) := by
  have hdocument : IsDocument limits t₁.toList c₁ := ofChars_document.mp (mapError_eq_ok.mp h₁)
  have hcontinues := commands_continues t₂.toList hdocument
  have hlength : (t₁.toList ++ ['\n']).length = t₁.toList.length + 1 := by simp
  have hwhole : t₁.toList ++ '\n' :: t₂.toList = t₁.toList ++ ['\n'] ++ t₂.toList := by simp
  refine ⟨fun c₂ h₂ => ?_, fun e₂ h₂ => ?_⟩
  · have h₂ := mapError_eq_ok.mp h₂
    rw [ofChars_eq_conclude] at h₂
    refine mapError_eq_ok.mpr ?_
    rw [toList_append_line, ofChars_eq_conclude, hwhole]
    rw [hwhole] at hcontinues
    exact hcontinues.conclude_ok h₂
  · obtain ⟨f₂, hf₂, rfl⟩ := parse_eq_error.mp h₂
    rw [ofChars_eq_conclude] at hf₂
    rw [hwhole, ← hlength] at hcontinues
    obtain ⟨f, hf, hcause, hseen, hunseen⟩ :=
      hcontinues.conclude_error (by rw [hlength]; omega) hf₂
    -- the position follows from the offset
    refine ⟨f.inText (t₁ ++ "\n" ++ t₂).toList, parse_eq_error.mpr ⟨f, ?_, rfl⟩, hcause,
      fun hs => ?_, hunseen⟩
    · rw [toList_append_line, ofChars_eq_conclude, hwhole]
      exact hf
    · have hoffset := hseen hs
      rw [hlength] at hoffset
      have hposition : (f.inText (t₁ ++ "\n" ++ t₂).toList).position =
          ⟨(f₂.inText t₂.toList).position.line + 1 + t₁.toList.count '\n',
            (f₂.inText t₂.toList).position.column⟩ := by
        simp only [Fault.inText, toList_append_line, hoffset]
        exact Position.ofOffset_append_line
      refine ⟨?_, by rw [hposition], by rw [hposition]⟩
      simp only [Fault.inText, hoffset, String.length_toList]
      omega

/-- A name on its own is a document, where there is room for a command. -/
theorem parse_word {name : String} (h : isName name.toList)
    (hroom : Level.lacks { limits } Level.commandFrames = false) :
    parse name limits = .ok [.invocation [.word name]] := by
  refine mapError_eq_ok.mpr (ofChars_document.mpr ⟨[], ?_, rfl⟩)
  have hword : Word name.toList name [] := ⟨(List.append_nil _).symm, h, forall_head?_nil⟩
  have hline : Reads { limits } name.toList (.command (.invocation [.word name])) [] :=
    .invocation (.word hword (.noArgs forall_head?_nil))
  refine .commands ?_ (.noCommands hroom)
  rw [dropWhile_of_startsCommand hline.edges fun c hc => hc]
  exact hline

theorem parse_append_words :
    parse ("sun" ++ "\n" ++ "moon") {} =
      .ok [.invocation [.word "sun"], .invocation [.word "moon"]] :=
  (parse_append {} "sun" "moon" [.invocation [.word "sun"]]
    (parse_word (by decide) (by decide))).1 [.invocation [.word "moon"]]
    (parse_word (by decide) (by decide))

theorem conclude_of_runsOut {limits : Limits} {text : List Char} {n : Nat}
    {a : Attempt (List Command) n} (h : a.RunsOut) :
    conclude limits text a = .error ⟨.stackExhausted limits.depth, 0⟩ := by
  obtain ⟨_, log⟩ := a
  obtain ⟨rfl, hlog⟩ := h
  simp only [conclude, Stop.toFault, furthest_of_misses_eq_nil hlog]

/-- A definition that opens more groups than there is room for is reported at the beginning. -/
theorem ofChars_deepDefinition {limits : Limits} (room : Nat) (hroom : limits.room = some room)
    {m : Nat} (hpos : 0 < m) (hm : room < framesForNesting m + Level.assignmentFrames)
    (hdepth : m ≤ limits.depth) (s : List Char) :
    ofChars limits (deepDefinition m s) = .error ⟨.stackExhausted limits.depth, 0⟩ := by
  rw [ofChars_eq_conclude]
  exact conclude_of_runsOut (runsOut_deepDefinition room hroom hpos hm hdepth)

/-- A text that runs out of room at once is not reported further on. -/
theorem not_always_further_on : ¬ ∀ (limits : Limits) (t₁ t₂ : String) c₁ e₂,
    parse t₁ limits = .ok c₁ → parse t₂ limits = .error e₂ →
      ∃ e, parse (t₁ ++ "\n" ++ t₂) limits = .error e ∧
        e.fault.offset = t₁.length + 1 + e₂.fault.offset := by
  intro h
  have h₁ : parse "a" { depth := 2000 } = .ok [.invocation [.word "a"]] :=
    parse_word (by decide) (by decide)
  have hout : (Grammar.commands { limits := { depth := 2000 } }
      (.start (deepDefinition 1000 []))).RunsOut :=
    runsOut_deepDefinition 992 rfl (by decide) (by decide) (by decide)
  have hfault : ofChars { depth := 2000 } (deepDefinition 1000 []) =
      .error ⟨.stackExhausted 2000, 0⟩ :=
    ofChars_deepDefinition 992 rfl (by decide) (by decide) (by decide) []
  have htext : (String.ofList (deepDefinition 1000 [])).toList = deepDefinition 1000 [] :=
    String.toList_ofList
  have h₂ : parse (String.ofList (deepDefinition 1000 [])) { depth := 2000 } =
      .error (Fault.inText ⟨.stackExhausted 2000, 0⟩ (deepDefinition 1000 [])) :=
    parse_eq_error.mpr ⟨_, by rw [htext, hfault], by rw [htext]⟩
  obtain ⟨e, he, hoffset⟩ := h _ _ _ _ _ h₁ h₂
  obtain ⟨f, hf, rfl⟩ := parse_eq_error.mp he
  have hwhole : ∀ t, "a".toList ++ '\n' :: t = "a\n".toList ++ t := fun t => rfl
  have hcontinues := commands_continues (deepDefinition 1000 [])
    (ofChars_document.mp (mapError_eq_ok.mp h₁))
  rw [hwhole] at hcontinues
  replace hcontinues : Continues "a\n".toList.length 1 _ _ _ := hcontinues
  rw [ofChars_eq_conclude] at hfault
  obtain ⟨f', hf', -, -, hunseen⟩ := hcontinues.conclude_error (by decide) hfault
  rw [toList_append_line, htext, hwhole, ofChars_eq_conclude] at hf
  obtain rfl := Except.error.inj (hf.symm.trans hf')
  have hle : f.offset ≤ 1 := hunseen hout
  have hfar : f.offset = 1 + 1 + 0 := hoffset
  omega

end Planetarium.Document
