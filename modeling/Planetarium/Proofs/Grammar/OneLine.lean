import Planetarium.Proofs.Grammar.Coupling
import Planetarium.Proofs.Grammar.Exact
import Planetarium.Proofs.Grammar.Prefix

/-!
# An expression on one line of a document

An expression that is read on its own may go over several lines, and one in a document may not.  A
text without line breaks is read alike in both ways (`oneLine`): all its blanks are spaces and tabs,
which are blanks at every level.  So it can be the expression of a definition or of a property.
-/
namespace Planetarium.Parsing
open Text

/-- There is no line break in the text. -/
def OneLine (text : List Char) : Prop := ∀ c ∈ text, isBreak c = false

instance (text : List Char) : Decidable (OneLine text) :=
  decidable_of_iff (text.all fun c => !isBreak c) (by simp [OneLine])

variable {text : List Char} {s : Cursor} {l l' : Level}

/-- What is left of a line is a line. -/
theorem OneLine.dropWhile (h : OneLine text) (f : Char → Bool) : OneLine (text.dropWhile f) :=
  fun c hc => h c ((List.dropWhile_suffix f).mem hc)

/-- All blanks of a line are spaces and tabs. -/
theorem OneLine.skip_isLayout (h : OneLine s.rest) : s.skip isLayout = s.skip isSpace := by
  have hsame : ∀ t, OneLine t →
      t.takeWhile isLayout = t.takeWhile isSpace ∧ t.dropWhile isLayout = t.dropWhile isSpace := by
    intro t ht
    induction t with
    | nil => exact ⟨rfl, rfl⟩
    | cons c t ih =>
      have hc : isLayout c = isSpace c := by simp [isLayout, ht c List.mem_cons_self]
      have ih := ih fun d hd => ht d (List.mem_cons_of_mem c hd)
      by_cases hs : isSpace c
      · simp [hc, hs, ih]
      · simp [hc, hs]
  simp only [Cursor.skip, (hsame _ h).1, (hsame _ h).2]

/-- On one line only blanks are skipped, at every level. -/
theorem OneLine.levelSkip (h : OneLine s.rest) : l.skip s = s.skip isSpace := by
  unfold Level.skip
  split
  · exact h.skip_isLayout
  · rfl

/-- There is as much room at both levels, and as much may be opened.  They may differ in whether
line breaks are blanks, and in how many frames are taken out of how many. -/
structure Level.SameRoom (l l' : Level) : Prop where
  limit : l'.limits.depth = l.limits.depth
  depth : l'.depth = l.depth
  lacks : ∀ k, l'.lacks k = l.lacks k

/-- Two readings of a line, whether or not line breaks would be blanks. -/
def oneLine : Coupling where
  place s s' := s' = s ∧ OneLine s.rest
  level := Level.SameRoom
  event e e' := e' = e
  stop r r' := r' = r
  ahead := by
    rintro ⟨k, s⟩ _ ⟨rfl, hline⟩
    refine ahead_self fun c t ht => ⟨rfl, fun d hd => hline d ?_⟩
    rw [ht]
    exact List.mem_cons_of_mem c hd
  skip := by
    rintro l l' s _ _ ⟨rfl, hline⟩
    refine ⟨?_, ?_⟩
    · rw [hline.levelSkip, hline.levelSkip]
    · rw [hline.levelSkip]
      exact hline.dropWhile isSpace
  inGroup h := by
    refine ⟨h.limit, congrArg (· + 1) h.depth, fun k => ?_⟩
    rw [Level.lacks_inGroup, Level.lacks_inGroup, h.lacks]
  full h := by
    refine ⟨?_, h.limit⟩
    unfold Level.isFull
    rw [h.limit, h.depth]
  room k h := h.lacks k
  missed := by
    rintro s _ e ⟨rfl, -⟩
    rfl
  opened := by
    rintro s _ ⟨rfl, -⟩
    rfl
  fault := by
    rintro s _ c ⟨rfl, -⟩
    rfl
  unexpected := rfl
  exhausted := rfl

end Planetarium.Parsing

namespace Planetarium.Grammar
open Parsing Text Attempt

variable {limits : Limits} {l : Level} {s t text : List Char} {p : Phrase} {e : Expr}
  {name : String}

/-- What is read as an expression on its own is one in a document too, where there is as much room
for it. -/
theorem reads_line (hline : OneLine text) (h : Expr.ofChars limits text = .ok e)
    (hl : Level.SameRoom { limits, multiline := true } l) : Reads l text (.expression e) [] := by
  obtain ⟨u, hgives, hend⟩ := ofChars_expression_iff_gives.mp h
  have hcoupled := coupled_expression (R := oneLine) (s := .start text) hl ⟨rfl, hline⟩
  obtain ⟨v, ⟨rfl, hrest⟩, hread⟩ := hcoupled.gives hgives
  have hreads := reads_of_expression hread
  -- nothing is left but blanks, and an expression leaves none behind
  have hskip := congrArg Cursor.rest (hrest.levelSkip (l := l))
  have hnil : v.rest = [] := by
    have hlayout := congrArg Cursor.rest hrest.skip_isLayout
    exact hreads.trim_rest.symm.trans (hskip.trans (hlayout.symm.trans hend))
  rw [hnil] at hreads
  exact hreads

/-- The blanks before an expression may be left out. -/
theorem Reads.trim_left (h : Reads l s p t) : match p with
    | .factor _ | .term _ | .expression _ => Reads l (trim l s) p t
    | _ => True := by
  induction h with
  | factor h _ =>
    refine .factor ?_
    rw [trim_trim]
    exact h
  | term _ ih => exact .term ih
  | product _ hop hright ih _ => exact .product ih hop hright
  | expression hroom _ ih => exact .expression hroom ih
  | sum _ hop hright ih _ => exact .sum ih hop hright
  | _ => trivial

/-- Outside groups and calls an expression may have spaces and tabs before it. -/
theorem Reads.dropWhile_isSpace (h : Reads l s (.expression e) t) (hl : l.multiline = false) :
    Reads l (s.dropWhile isSpace) (.expression e) t := by
  rw [← trim_eq_dropWhile hl]
  exact h.trim_left

/-- What a definition is made of. -/
theorem reads_definition_line (hname : isName name.toList) (hl : l.multiline = false)
    (h : Reads l.inAssignment text (.expression e) []) :
    Reads l (name.toList ++ " := ".toList ++ text) (.command (.definition name e)) [] := by
  rw [List.append_assoc]
  refine .definition (u := ' ' :: text) ⟨rfl, hname, ?_⟩ rfl (h.dropWhile_isSpace hl)
  rintro c ⟨⟩
  rfl

/-- So is a property. -/
theorem reads_property_line (hname : isName name.toList) (hl : l.multiline = false)
    (h : Reads l.inAssignment text (.expression e) []) :
    Reads l (name.toList ++ ": ".toList ++ text)
      (.command (.property name (.expr e))) [] := by
  rw [List.append_assoc]
  refine .property (u := ' ' :: text) ⟨rfl, hname, ?_⟩ rfl (h.dropWhile_isSpace hl)
  rintro c ⟨⟩
  rfl

/-- A line with a command in front of a document. -/
theorem IsDocument.cons {c : Command} {cs : List Command} {line rest : List Char}
    (h : Reads { limits } line (.command c) []) (hs : IsDocument limits rest cs) :
    IsDocument limits (line ++ '\n' :: rest) (c :: cs) := by
  have hline : Reads { limits } (line ++ '\n' :: rest) (.command c) ('\n' :: rest) := h.addLine rfl
  have hfirst := hline
  rw [← dropWhile_of_startsCommand hline.edges fun _ hc => hc] at hfirst
  have hbreak : ('\n' :: rest).dropWhile isLayout = rest.dropWhile isLayout :=
    List.dropWhile_cons_of_pos rfl
  obtain ⟨r, hr, hend⟩ := hs
  cases hr with
  | noCommands hroom =>
    exact ⟨'\n' :: rest, .commands hfirst (.noCommands hroom), hbreak.trans hend⟩
  | commands hc hcs => exact ⟨r, .commands hfirst (.commands (hbreak ▸ hc) hcs), hend⟩

/-- A command that is derived up to the end of a text is a document. -/
theorem isDocument_singleton {c : Command} (h : Reads { limits } s (.command c) [])
    (hroom : Level.lacks { limits } Level.commandFrames = false) : IsDocument limits s [c] := by
  refine ⟨[], .commands ?_ (.noCommands hroom), rfl⟩
  rw [dropWhile_of_startsCommand h.edges fun _ hc => hc]
  exact h

end Planetarium.Grammar
