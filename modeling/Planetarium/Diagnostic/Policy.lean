import Planetarium.Diagnostic.Code
import Planetarium.Text.Blank
import Planetarium.Text.Quoted
import Planetarium.Text.Uppercase

/-!
# What becomes of a diagnostic

A policy says for each code whether its diagnostics are issued, dropped or turned into an error.
No code is both escalated and suppressed.  Policies are read from lists of codes separated by
commas, in either case and with any white space around them; empty places in a list are ignored.
-/
namespace Planetarium
open Text

/-- Which codes are escalated and which are suppressed. -/
structure Policy where
  escalated : List Code := []
  suppressed : List Code := []
  disjoint : ∀ c ∈ escalated, c ∉ suppressed := by simp

/-- Why there is no such policy. -/
inductive PolicyError where
  /-- Codes that do not exist, sorted. -/
  | unknownCodes (codes : List String)
  /-- Codes that are both escalated and suppressed, sorted. -/
  | conflict (codes : List Code)
deriving DecidableEq, Repr

/-- The reason in words. -/
def PolicyError.message : PolicyError → String
  | .unknownCodes codes =>
    "Unknown warning code: " ++ ", ".intercalate (codes.map quoted) ++ " (known: " ++
      Code.summary ++ ")"
  | .conflict codes =>
    "Warning codes both escalated and suppressed: " ++ ", ".intercalate (codes.map Code.text)

/-- Puts a text into its place among sorted texts, unless it is there. -/
def insertSorted (s : String) : List String → List String
  | [] => [s]
  | t :: ts =>
    if s = t then t :: ts
    else if s < t then s :: t :: ts
    else t :: insertSorted s ts

/-- Some texts in order, each once. -/
def sortedTexts (texts : List String) : List String := texts.foldr insertSorted []

theorem mem_insertSorted {s t : String} {ts : List String} :
    t ∈ insertSorted s ts ↔ t = s ∨ t ∈ ts := by
  induction ts with
  | nil => simp [insertSorted]
  | cons u us ih =>
    simp only [insertSorted]
    split
    · rename_i h; subst h; simp
    · split
      · simp
      · simp only [List.mem_cons, ih]; exact or_left_comm

/-- Sorting and dropping what is there twice changes nothing about what is there. -/
theorem mem_sortedTexts {t : String} {ts : List String} : t ∈ sortedTexts ts ↔ t ∈ ts := by
  induction ts with
  | nil => simp [sortedTexts]
  | cons u us ih =>
    rw [sortedTexts, List.foldr_cons, mem_insertSorted, List.mem_cons]
    exact or_congr_right ih

/-- The codes that occur among some texts, in order, each once. -/
def knownCodes (texts : List String) : List Code :=
  Code.all.filter fun c => texts.contains c.text

/-- The texts that are no codes, sorted, each once. -/
def unknownCodes (texts : List String) : List String :=
  sortedTexts (texts.filter fun s => (Code.ofText? s).isNone)

/-- The codes that some texts name, all of which have to be known. -/
def codesOf (texts : List String) : Except PolicyError (List Code) :=
  match unknownCodes texts with
  | [] => .ok (knownCodes texts)
  | codes => .error (.unknownCodes codes)

namespace Policy

/-- The policy that escalates and suppresses given codes, if no code is given for both. -/
def ofCodes (escalated suppressed : List Code) : Except PolicyError Policy :=
  match h : escalated.filter (· ∈ suppressed) with
  | [] => .ok ⟨escalated, suppressed, fun c hc hs => by
      have : c ∈ escalated.filter (· ∈ suppressed) := List.mem_filter.mpr ⟨hc, by simpa using hs⟩
      simp [h] at this⟩
  | both => .error (.conflict both)

/-- The policy for two lists of texts; unknown texts of both are reported together. -/
def ofTexts (escalated suppressed : List String) : Except PolicyError Policy := do
  let _ ← codesOf (escalated ++ suppressed)
  ofCodes (knownCodes escalated) (knownCodes suppressed)

/-- The places of a list that are not blank, in upper case and without white space around them. -/
def tokens (list : String) : List String :=
  ((list.toList.splitOn ',').map strip |>.filter (!·.isEmpty)).map (String.ofList ∘ uppercase)

/-- The codes of a list. -/
def codesOfList (list : String) : Except PolicyError (List Code) := codesOf (tokens list)

/-- The policy for the lists of two options, if at least one is given.  A fault of the first list
comes before one of the second. -/
def ofOptions (escalated suppressed : Option String) : Except PolicyError (Option Policy) :=
  match escalated, suppressed with
  | none, none => .ok none
  | _, _ => do
    let escalated ← codesOfList (escalated.getD "")
    let suppressed ← codesOfList (suppressed.getD "")
    some <$> ofCodes escalated suppressed

end Policy

/-- What becomes of a diagnostic. -/
inductive Verdict where
  | issue
  | drop
  | escalate
deriving DecidableEq, Repr

/-- What a policy, or none, makes of the diagnostics of a code. -/
def verdict (policy : Option Policy) (code : Code) : Verdict :=
  match policy with
  | none => .issue
  | some p =>
    if code ∈ p.suppressed then .drop
    else if code ∈ p.escalated then .escalate
    else .issue

end Planetarium
