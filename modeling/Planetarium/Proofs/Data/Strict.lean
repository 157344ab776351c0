import Planetarium.Data.Json
import Planetarium.Proofs.Decimal.Product
import Planetarium.Proofs.Decimal.Written

/-!
# Strict data

JSON has no word for a number that is not finite, so a strict writer refuses data with such a number
in it, however deep (`strictJson?_eq`).  Data are made strict by words in the place of these
numbers, and nothing else about them changes: `Mirrors` says this of two trees side by side, and it
leaves no choice (`mirrors_iff`).
-/
namespace Planetarium.Data
open Decimal

/-- What holds of data without parts, and of a list or record if it holds of its first part and of
what the others make up, holds of all data. -/
@[elab_as_elim] theorem induction {motive : Data → Prop} (null : motive .null)
    (text : ∀ s, motive (.text s)) (number : ∀ x, motive (.number x)) (nil : motive (.list []))
    (cons : ∀ d ds, motive d → motive (.list ds) → motive (.list (d :: ds)))
    (noFields : motive (.record []))
    (field : ∀ name d fs, motive d → motive (.record fs) → motive (.record ((name, d) :: fs))) :
    ∀ d, motive d
  | .null => null
  | .text s => text s
  | .number x => number x
  | .list [] => nil
  | .list (d :: ds) =>
    cons d ds (induction null text number nil cons noFields field d)
      (induction null text number nil cons noFields field (.list ds))
  | .record [] => noFields
  | .record ((name, d) :: fs) =>
    field name d fs (induction null text number nil cons noFields field d)
      (induction null text number nil cons noFields field (.record fs))

variable {d e : Data} {x : Float} {word : String}

/-! ## Words for numbers -/

/-- A number is finite, no number at all, or one of the two infinities. -/
theorem wordFor?_cases (x : Float) :
    isFinite x ∧ wordFor? x = none ∨ x.isNaN ∧ wordFor? x = some "nan" ∨
      x = 1 / 0 ∧ wordFor? x = some "inf" ∨ x = -1 / 0 ∧ wordFor? x = some "-inf" := by
  rw [wordFor?, isFinite]
  cases hx : Binary.ofFloat x with
  | finite negative bits => exact .inl ⟨rfl, rfl⟩
  | nan => exact .inr (.inl ⟨(ofFloat_eq_nan_iff x).mp hx, rfl⟩)
  | infinity negative =>
    have hvalue := ofMagnitude_of_infinity hx
    cases negative with
    | false => exact .inr (.inr (.inl ⟨hvalue.symm.trans (by decide), rfl⟩))
    | true => exact .inr (.inr (.inr ⟨hvalue.symm.trans (by decide), rfl⟩))

theorem wordFor?_eq_none_iff : wordFor? x = none ↔ isFinite x := by
  rw [wordFor?, isFinite]
  cases Binary.ofFloat x <;> simp

/-! ## Strict data are made -/

/-- What is made strict is strict. -/
theorem isStrict_toStrict (d : Data) : d.toStrict.isStrict := by
  induction d using induction with
  | null | text _ | nil | noFields => rfl
  | number x =>
    cases hword : wordFor? x with
    | none => simp [toStrict, hword, isStrict, wordFor?_eq_none_iff.mp hword]
    | some word => simp [toStrict, hword, isStrict]
  | cons d ds ihd ih =>
    simp only [toStrict, isStrict] at ih
    simp [toStrict, allToStrict, isStrict, allStrict, ihd, ih]
  | field name d fs ihd ih =>
    simp only [toStrict, isStrict] at ih
    simp [toStrict, allFieldsToStrict, isStrict, allFieldsStrict, ihd, ih]

/-- Strict data stay as they are, and no others. -/
theorem toStrict_eq_self_iff : d.toStrict = d ↔ d.isStrict := by
  refine ⟨fun h => h ▸ isStrict_toStrict d, fun h => ?_⟩
  induction d using induction with
  | null | text _ | nil | noFields => rfl
  | number x => simp [toStrict, wordFor?_eq_none_iff.mpr h]
  | cons d ds ihd ih =>
    rw [isStrict, allStrict, Bool.and_eq_true] at h
    have ih := ih h.2
    rw [toStrict, list.injEq] at ih
    rw [toStrict, allToStrict, ihd h.1, ih]
  | field name d fs ihd ih =>
    rw [isStrict, allFieldsStrict, Bool.and_eq_true] at h
    have ih := ih h.2
    rw [toStrict, record.injEq] at ih
    rw [toStrict, allFieldsToStrict, ihd h.1, ih]

/-! ## Nothing else changes -/

/-- The same data, but for a word in the place of every number that is not finite. -/
inductive Mirrors : Data → Data → Prop
  | null : Mirrors .null .null
  | text (s : String) : Mirrors (.text s) (.text s)
  | finite {x : Float} (h : isFinite x) : Mirrors (.number x) (.number x)
  | nan {x : Float} (h : x.isNaN) : Mirrors (.number x) (.text "nan")
  | infinity : Mirrors (.number (1 / 0)) (.text "inf")
  | negInfinity : Mirrors (.number (-1 / 0)) (.text "-inf")
  | nil : Mirrors (.list []) (.list [])
  | cons {d e : Data} {ds es : List Data} (item : Mirrors d e)
      (items : Mirrors (.list ds) (.list es)) : Mirrors (.list (d :: ds)) (.list (e :: es))
  | noFields : Mirrors (.record []) (.record [])
  | field {name : String} {d e : Data} {fs gs : List (String × Data)} (value : Mirrors d e)
      (fields : Mirrors (.record fs) (.record gs)) :
      Mirrors (.record ((name, d) :: fs)) (.record ((name, e) :: gs))

theorem Mirrors.of_wordFor?_eq_some (h : wordFor? x = some word) :
    Mirrors (.number x) (.text word) := by
  rcases wordFor?_cases x with ⟨-, hx⟩ | ⟨hnan, hx⟩ | ⟨rfl, hx⟩ | ⟨rfl, hx⟩
  · rw [hx] at h
    contradiction
  · obtain rfl := Option.some.inj (hx.symm.trans h)
    exact .nan hnan
  · obtain rfl := Option.some.inj (hx.symm.trans h)
    exact .infinity
  · obtain rfl := Option.some.inj (hx.symm.trans h)
    exact .negInfinity

/-- Data and what is made of them are mirrors of each other. -/
theorem mirrors_toStrict (d : Data) : Mirrors d d.toStrict := by
  induction d using induction with
  | null => exact .null
  | text s => exact .text s
  | number x =>
    rw [toStrict]
    cases hword : wordFor? x with
    | none => exact .finite (wordFor?_eq_none_iff.mp hword)
    | some word => exact .of_wordFor?_eq_some hword
  | nil => exact .nil
  | cons d ds ihd ih => exact .cons ihd ih
  | noFields => exact .noFields
  | field name d fs ihd ih => exact .field ihd ih

/-- Nothing else mirrors them. -/
theorem Mirrors.eq_toStrict (h : Mirrors d e) : e = d.toStrict := by
  induction h with
  | null | text | nil | noFields => rfl
  | finite h => rw [toStrict, wordFor?_eq_none_iff.mpr h]
  | nan h => rw [toStrict, wordFor?, (ofFloat_eq_nan_iff _).mpr h]
  | infinity | negInfinity => rfl
  | cons _ _ ihd ih =>
    rw [toStrict, list.injEq] at ih
    rw [toStrict, allToStrict, ← ihd, ← ih]
  | field _ _ ihd ih =>
    rw [toStrict, record.injEq] at ih
    rw [toStrict, allFieldsToStrict, ← ihd, ← ih]

/-- There is one way to put words in the place of the numbers. -/
theorem mirrors_iff : Mirrors d e ↔ e = d.toStrict :=
  ⟨Mirrors.eq_toStrict, fun h => h ▸ mirrors_toStrict d⟩

example : toStrict (.record [("time", .number (0 / 0)), ("places", .list [.number (-1 / 0)])]) =
    .record [("time", .text "nan"), ("places", .list [.text "-inf"])] := rfl

/-! ## Strict data are written -/

mutual
/-- Data as JSON text at a level of indentation, none if a number that is not finite is met. -/
def strictAt? (level : ℕ) : Data → Option (List Char)
  | .null => some "null".toList
  | .text s => some (jsonString s)
  | .number x => if isFinite x then some (shortestText x).toList else none
  | .list [] => some ['[', ']']
  | .list (d :: ds) => do
    let first ← strictAt? (level + 1) d
    let others ← strictItems? (level + 1) ds
    return '[' :: newLine (level + 1) ++ first ++ others ++ newLine level ++ [']']
  | .record [] => some ['\x7b', '\x7d']
  | .record ((name, d) :: ds) => do
    let first ← strictAt? (level + 1) d
    let others ← strictFields? (level + 1) ds
    return '\x7b' :: newLine (level + 1) ++ jsonString name ++ ':' :: ' ' :: first ++ others ++
      newLine level ++ ['\x7d']

/-- The items after the first. -/
def strictItems? (level : ℕ) : List Data → Option (List Char)
  | [] => some []
  | d :: ds => do
    let first ← strictAt? level d
    let others ← strictItems? level ds
    return ',' :: newLine level ++ first ++ others

/-- The fields after the first. -/
def strictFields? (level : ℕ) : List (String × Data) → Option (List Char)
  | [] => some []
  | (name, d) :: ds => do
    let first ← strictAt? level d
    let others ← strictFields? level ds
    return ',' :: newLine level ++ jsonString name ++ ':' :: ' ' :: first ++ others
end

/-- Data as JSON text, as a strict writer has it. -/
def strictJson? (d : Data) : Option String := (d.strictAt? 0).map String.ofList

mutual
/-- The strict writer writes what is strict as the plain one does, and nothing else. -/
theorem strictAt?_eq (level : ℕ) :
    ∀ d : Data, d.strictAt? level = if d.isStrict then some (d.jsonAt level) else none
  | .null | .text _ | .list [] | .record [] => rfl
  | .number x => rfl
  | .list (d :: ds) => by
    rw [strictAt?, strictAt?_eq, strictItems?_eq, isStrict, allStrict]
    cases d.isStrict <;> cases allStrict ds <;> rfl
  | .record ((name, d) :: ds) => by
    rw [strictAt?, strictAt?_eq, strictFields?_eq, isStrict, allFieldsStrict]
    cases d.isStrict <;> cases allFieldsStrict ds <;> rfl

theorem strictItems?_eq (level : ℕ) :
    ∀ ds, strictItems? level ds = if allStrict ds then some (jsonItems level ds) else none
  | [] => rfl
  | d :: ds => by
    rw [strictItems?, strictAt?_eq, strictItems?_eq, allStrict]
    cases d.isStrict <;> cases allStrict ds <;> rfl

theorem strictFields?_eq (level : ℕ) :
    ∀ ds, strictFields? level ds = if allFieldsStrict ds then some (jsonFields level ds) else none
  | [] => rfl
  | (name, d) :: ds => by
    rw [strictFields?, strictAt?_eq, strictFields?_eq, allFieldsStrict]
    cases d.isStrict <;> cases allFieldsStrict ds <;> rfl
end

/-- A strict writer writes strict data as any writer does, and refuses all others. -/
theorem strictJson?_eq (d : Data) : d.strictJson? = if d.isStrict then some d.json else none := by
  rw [strictJson?, strictAt?_eq]
  cases d.isStrict <;> rfl

end Planetarium.Data
