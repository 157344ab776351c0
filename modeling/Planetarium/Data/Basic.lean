import Planetarium.Decimal.Binary

/-!
# Plain data

What dumps and reports are made of before they are written as text: texts, numbers, lists, and
fields in a fixed order.
-/
namespace Planetarium

/-- Plain data. -/
inductive Data where
  | null
  | text (text : String)
  | number (value : Float)
  | list (items : List Data)
  | record (fields : List (String × Data))

namespace Data

/-- The word for a number that is not finite. -/
def wordFor? (x : Float) : Option String :=
  match Decimal.Binary.ofFloat x with
  | .nan => some "nan"
  | .infinity negative => some (if negative then "-inf" else "inf")
  | .finite _ _ => none

mutual
/-- All numbers in the data are finite. -/
def isStrict : Data → Bool
  | .null | .text _ => true
  | .number x => Decimal.isFinite x
  | .list items => allStrict items
  | .record fields => allFieldsStrict fields

def allStrict : List Data → Bool
  | [] => true
  | d :: ds => d.isStrict && allStrict ds

def allFieldsStrict : List (String × Data) → Bool
  | [] => true
  | (_, d) :: ds => d.isStrict && allFieldsStrict ds
end

mutual
/-- The data with a word for every number that is not finite. -/
def toStrict : Data → Data
  | .null => .null
  | .text s => .text s
  | .number x =>
    match wordFor? x with
    | some word => .text word
    | none => .number x
  | .list items => .list (allToStrict items)
  | .record fields => .record (allFieldsToStrict fields)

def allToStrict : List Data → List Data
  | [] => []
  | d :: ds => d.toStrict :: allToStrict ds

def allFieldsToStrict : List (String × Data) → List (String × Data)
  | [] => []
  | (name, d) :: ds => (name, d.toStrict) :: allFieldsToStrict ds
end

end Data
end Planetarium
