import Planetarium.Text.Utf8

/-!
# Text written as UTF-8 is read back

The first byte of a character tells how many more there are, and each of these gives six bits of
its code point.  Put together they are the code point again, and since it is that of a character,
no byte is out of range.
-/
namespace Planetarium.Text.Utf8

variable {count code low high read n k : Nat} {b : UInt8} {bytes rest : List UInt8} {c : Char}

theorem toNat_ofNat_of_lt (h : n < 256) : (UInt8.ofNat n).toNat = n := by
  rw [UInt8.toNat_ofNat', Nat.mod_eq_of_lt h]

/-- A byte in the range is taken. -/
theorem continue?_cons (hb : n < 256) (hlow : low ≤ n) (hhigh : n ≤ high) :
    continue? (count + 1) code low high read (UInt8.ofNat n :: bytes) =
      continue? count (code * 64 + (n - 0x80)) 0x80 0xBF (read + 1) bytes := by
  rw [continue?, toNat_ofNat_of_lt hb, if_pos ⟨hlow, hhigh⟩]

/-- The last byte completes the code point. -/
theorem continue?_last (hb : n < 256) (hlow : low ≤ n) (hhigh : n ≤ high)
    (hcode : code * 64 + (n - 0x80) = k) :
    continue? 1 code low high read (UInt8.ofNat n :: rest) = .complete k rest := by
  rw [continue?_cons hb hlow hhigh, continue?, hcode]

/-- A byte below 128 stands for itself. -/
theorem lead?_one (h : n < 0x80) : lead? (UInt8.ofNat n) = some (0, n, 0x80, 0xBF) := by
  simp only [lead?, toNat_ofNat_of_lt (Nat.lt_trans h (by decide)), if_pos h]

theorem lead?_two (hlow : 0xC2 ≤ n) (hhigh : n < 0xE0) :
    lead? (UInt8.ofNat n) = some (1, n - 0xC0, 0x80, 0xBF) := by
  simp only [lead?, toNat_ofNat_of_lt (Nat.lt_trans hhigh (by decide))]
  rw [if_neg (by omega), if_neg (by omega), if_pos hhigh]

theorem lead?_three (hlow : 0xE0 ≤ n) (hhigh : n < 0xF0) :
    lead? (UInt8.ofNat n) =
      some (2, n - 0xE0, if n = 0xE0 then 0xA0 else 0x80, if n = 0xED then 0x9F else 0xBF) := by
  simp only [lead?, toNat_ofNat_of_lt (Nat.lt_trans hhigh (by decide))]
  rw [if_neg (by omega), if_neg (by omega), if_neg (by omega), if_pos hhigh]

theorem lead?_four (hlow : 0xF0 ≤ n) (hhigh : n < 0xF5) :
    lead? (UInt8.ofNat n) =
      some (3, n - 0xF0, if n = 0xF0 then 0x90 else 0x80, if n = 0xF4 then 0x8F else 0xBF) := by
  simp only [lead?, toNat_ofNat_of_lt (Nat.lt_trans hhigh (by decide))]
  rw [if_neg (by omega), if_neg (by omega), if_neg (by omega), if_neg (by omega), if_pos hhigh]

/-- A character whose bytes are read is read. -/
theorem decodeFrom_cons (hlead : lead? b = some (count, code, low, high))
    (hbytes : continue? count code low high 1 bytes = .complete c.toNat rest) :
    decodeFrom k (b :: bytes) = (decodeFrom (k + count + 1) rest).map (c :: ·) := by
  rw [decodeFrom, hlead]
  simp only
  split
  · rename_i heq
    rw [hbytes] at heq
    contradiction
  · rename_i heq
    rw [hbytes] at heq
    obtain ⟨rfl, rfl⟩ := Continuation.complete.inj heq
    rw [Char.ofNat_toNat]
    cases decodeFrom (k + count + 1) rest <;> rfl

/-- What is written for a character is read as that character, whatever follows. -/
theorem exists_decodeFrom_utf8EncodeChar (c : Char) (k : Nat) (rest : List UInt8) :
    ∃ k', decodeFrom k (String.utf8EncodeChar c ++ rest) =
      (decodeFrom k' rest).map (c :: ·) := by
  -- the second byte is held to its range because this is the code point of a character
  have hv : c.toNat < 0xD800 ∨ 0xDFFF < c.toNat ∧ c.toNat < 0x110000 := c.valid
  have hval : c.val.toNat = c.toNat := rfl
  simp only [String.utf8EncodeChar, hval]
  split
  · exact ⟨_, decodeFrom_cons (lead?_one (by omega)) rfl⟩
  · split
    · refine ⟨_, decodeFrom_cons (lead?_two (by omega) (by omega)) ?_⟩
      exact continue?_last (by omega) (by omega) (by omega) (by omega)
    · split
      · refine ⟨_, decodeFrom_cons (lead?_three (by omega) (by omega)) ?_⟩
        refine (continue?_cons (by omega) ?_ ?_).trans ?_
        · split <;> omega
        · split <;> omega
        · exact continue?_last (by omega) (by omega) (by omega) (by omega)
      · refine ⟨_, decodeFrom_cons (lead?_four (by omega) (by omega)) ?_⟩
        refine (continue?_cons (by omega) ?_ ?_).trans ?_
        · split <;> omega
        · split <;> omega
        · refine (continue?_cons (by omega) (by omega) (by omega)).trans ?_
          exact continue?_last (by omega) (by omega) (by omega) (by omega)

/-- **A text in bytes is decoded to the text.** -/
theorem decodeFrom_flatMap (text : List Char) (k : Nat) :
    decodeFrom k (text.flatMap String.utf8EncodeChar) = .ok text := by
  induction text generalizing k with
  | nil => rw [List.flatMap_nil, decodeFrom]
  | cons c text ih =>
    obtain ⟨k', h⟩ := exists_decodeFrom_utf8EncodeChar c k (text.flatMap String.utf8EncodeChar)
    rw [List.flatMap_cons, h, ih]
    rfl

/-- The bytes of a text are read as that text. -/
theorem decode_toUTF8 (text : String) : decode text.toUTF8.data.toList = .ok text.toList := by
  have hbytes : text.toUTF8.data.toList = text.toList.flatMap String.utf8EncodeChar := by
    rw [String.toUTF8_eq_toByteArray, ← String.ofList_toList (s := text),
      String.toByteArray_ofList, List.utf8Encode, List.data_toByteArray, String.ofList_toList]
  rw [hbytes]
  exact decodeFrom_flatMap _ _

end Planetarium.Text.Utf8
