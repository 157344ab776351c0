/-!
# Diagnostics

Things about a document that are worth a warning.  Each kind has a stable code and a description.
-/
namespace Planetarium

/-- The kinds of diagnostics. -/
inductive Code where
  /-- A body sets a property that has no meaning for it. -/
  | unknownProperty
  /-- A definition takes the name of a builtin constant, which always wins the lookup. -/
  | shadowedConstant
  /-- A property gets an expression for a text, or a text for an expression. -/
  | wrongKind
deriving DecidableEq, Repr

namespace Code

/-- The code as it is written. -/
def text : Code → String
  | unknownProperty => "W01"
  | shadowedConstant => "W02"
  | wrongKind => "W03"

/-- What the kind is about. -/
def description : Code → String
  | unknownProperty => "unknown astro-body property"
  | shadowedConstant => "definition shadows a builtin constant"
  | wrongKind => "property value has the wrong kind"

/-- All codes in order. -/
def all : List Code := [unknownProperty, shadowedConstant, wrongKind]

/-- The code with a text. -/
def ofText? (s : String) : Option Code := all.find? (·.text = s)

/-- All codes with their descriptions, on one line. -/
def summary : String :=
  ", ".intercalate (all.map fun c => c.text ++ " (" ++ c.description ++ ")")

/-- Every code is in the list of all. -/
theorem mem_all (c : Code) : c ∈ all := by cases c <;> decide

/-- The text of a code is read back as the code. -/
theorem ofText?_text (c : Code) : ofText? c.text = some c := by cases c <;> decide

/-- A text that is read as a code is the text of that code. -/
theorem text_of_ofText? {s : String} {c : Code} (h : ofText? s = some c) : c.text = s := by
  simpa using List.find?_some h

end Code

/-- A diagnostic about something in a document. -/
structure Warning where
  code : Code
  detail : String
deriving DecidableEq, Repr

/-- The warning in words, with its code in front. -/
def Warning.message (w : Warning) : String := "[" ++ w.code.text ++ "] " ++ w.detail

end Planetarium
