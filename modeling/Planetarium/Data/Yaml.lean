import Planetarium.Data.Scalar
import Planetarium.Data.Basic
import Planetarium.Decimal.Notation

/-!
# YAML

Data as YAML in block style: one line for every field and item, records indented by two columns
inside records, and the items of a list in the column of the field that holds it.
-/
namespace Planetarium.Data

/-- A number as YAML. -/
def yamlNumber (x : Float) : List Char :=
  match Decimal.Binary.ofFloat x with
  | .nan => ".nan".toList
  | .infinity false => ".inf".toList
  | .infinity true => "-.inf".toList
  | .finite _ _ => (Decimal.shortestText x).toList

/-- Some columns of blanks. -/
def pad (indent : Nat) : List Char := List.replicate indent ' '

/-- Where data begins. -/
inductive Place where
  /-- On the line of a field, after its name and colon, in a record indented by `indent`. -/
  | field (indent column : Nat)
  /-- In a column of a line that holds nothing else before it than dashes. -/
  | item (column : Nat)

/-- The blank between a colon and a value on the same line. -/
def Place.gap : Place → List Char
  | .field _ _ => [' ']
  | .item _ => []

/-- The column in which a scalar begins. -/
def Place.column : Place → Nat
  | .field _ column => column + 1
  | .item column => column

/-- The indentation of the further lines of a scalar. -/
def Place.scalarIndent : Place → Nat
  | .field indent _ => indent + 2
  | .item column => column

/-- The indentation of the items of a list, and how to get there. -/
def Place.items : Place → Nat × List Char
  | .field indent _ => (indent, '\n' :: pad indent)
  | .item column => (column, [])

/-- The indentation of the fields of a record, and how to get there. -/
def Place.fields : Place → Nat × List Char
  | .field indent _ => (indent + 2, '\n' :: pad (indent + 2))
  | .item column => (column, [])

mutual
/-- Data as YAML from a place on. -/
def yamlAt (place : Place) : Data → List Char
  | .null => place.gap ++ "null\n".toList
  | .text s => place.gap ++ Scalar.render place.scalarIndent place.column s ++ ['\n']
  | .number x => place.gap ++ yamlNumber x ++ ['\n']
  | .list [] => place.gap ++ "[]\n".toList
  | .list (d :: ds) =>
    let (indent, lead) := place.items
    lead ++ '-' :: ' ' :: yamlAt (.item (indent + 2)) d ++ yamlItems indent ds
  | .record [] => place.gap ++ "\x7b\x7d\n".toList
  | .record ((name, d) :: fields) =>
    let (indent, lead) := place.fields
    lead ++ name.toList ++ ':' :: yamlAt (.field indent (indent + name.length + 1)) d ++
      yamlFields indent fields

/-- The items of a list after the first, each on lines of its own. -/
def yamlItems (indent : Nat) : List Data → List Char
  | [] => []
  | d :: ds => pad indent ++ '-' :: ' ' :: yamlAt (.item (indent + 2)) d ++ yamlItems indent ds

/-- The fields of a record after the first, each on lines of its own. -/
def yamlFields (indent : Nat) : List (String × Data) → List Char
  | [] => []
  | (name, d) :: fields =>
    pad indent ++ name.toList ++ ':' :: yamlAt (.field indent (indent + name.length + 1)) d ++
      yamlFields indent fields
end

/-- Data as YAML text. -/
def yaml (d : Data) : String := String.ofList (yamlAt (.item 0) d)

end Planetarium.Data
