/-!
# Similar words

How much two words have in common: take the longest block that stands in both, then go on with what
is before it in both words and with what is after it.  The share of the characters in such blocks
tells which known words an unknown one may have been meant for.
-/
namespace Planetarium.Text
variable {α : Type} [DecidableEq α]

/-- The number of leading characters that two words share. -/
def commonLead : List α → List α → Nat
  | a :: as, b :: bs => if a = b then commonLead as bs + 1 else 0
  | _, _ => 0

/-- A block that stands in two words: where it begins in each, and its length. -/
structure Block where
  left : Nat
  right : Nat
  length : Nat
deriving DecidableEq, Repr

/-- The longest block of two words; of several the first one in the first word, then in the
second. -/
def longestBlock (a b : List α) : Block :=
  (List.range a.length).foldl (fun best i =>
    (List.range b.length).foldl (fun best j =>
      let length := commonLead (a.drop i) (b.drop j)
      if best.length < length then ⟨i, j, length⟩ else best) best) ⟨0, 0, 0⟩

/-- The number of characters in the blocks of two words. -/
def inCommon (a b : List α) : Nat :=
  match longestBlock a b with
  | ⟨i, j, k⟩ =>
    if 0 < k ∧ i + k ≤ a.length then
      inCommon (a.take i) (b.take j) + k + inCommon (a.drop (i + k)) (b.drop (j + k))
    else 0
termination_by a.length
decreasing_by
  · simp only [List.length_take]; omega
  · simp only [List.length_drop]; omega

/-- At least six tenths of the characters of two words are in their blocks. -/
def isSimilar (a b : List α) : Bool := 3 * (a.length + b.length) ≤ 10 * inCommon a b

/-- The first word is more like `word` than the second; of equally similar ones the later in the
order of texts is. -/
def isNearer (word a b : String) : Bool :=
  let shareOf (known : String) := inCommon known.toList word.toList
  let left := shareOf a * (b.length + word.length)
  let right := shareOf b * (a.length + word.length)
  right < left || (left = right && b < a)

/-- The known words that are most like a word, three at most, in order. -/
def nearest (known : List String) (word : String) : List String :=
  let similar := known.filter fun k => isSimilar k.toList word.toList
  ((similar.mergeSort (isNearer word)).take 3).mergeSort (· ≤ ·)

end Planetarium.Text
