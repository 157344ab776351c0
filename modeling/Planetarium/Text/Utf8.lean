import Planetarium.Text.Hex

/-!
# Reading UTF-8

A file's bytes are read as UTF-8.  The first byte that cannot be read is reported with the bytes
that belong to the same broken sequence: a byte that starts no sequence stands alone, a sequence
with a wrong byte covers the bytes before that one, and a sequence cut off by the end of the file
covers what is there.
-/
namespace Planetarium.Text.Utf8

/-- Why a sequence of bytes is not a character. -/
inductive Reason where
  | startByte
  | continuationByte
  | endOfData
deriving DecidableEq, Repr

def Reason.text : Reason → String
  | .startByte => "invalid start byte"
  | .continuationByte => "invalid continuation byte"
  | .endOfData => "unexpected end of data"

/-- The bytes from offset `start` on, `length` of them and the first being `byte`, are not a
character. -/
structure Fault where
  byte : UInt8
  start : Nat
  length : Nat
  reason : Reason
deriving DecidableEq, Repr

/-- Where the bytes of a fault are. -/
def Fault.place (f : Fault) : String :=
  if f.length = 1 then
    "byte 0x" ++ String.ofList (HexCase.lower.numeral 2 f.byte.toNat) ++ " in position " ++
      toString f.start
  else "bytes in position " ++ toString f.start ++ "-" ++ toString (f.start + f.length - 1)

/-- The fault in words. -/
def Fault.message (f : Fault) : String :=
  "'utf-8' codec can't decode " ++ f.place ++ ": " ++ f.reason.text

/-- How many bytes follow a first byte, the bits it gives to the code point, and the range of the
byte after it (which shuts out overlong forms, surrogates and code points past the last). -/
def lead? (b : UInt8) : Option (Nat × Nat × Nat × Nat) :=
  let n := b.toNat
  if n < 0x80 then some (0, n, 0x80, 0xBF)
  else if n < 0xC2 then none
  else if n < 0xE0 then some (1, n - 0xC0, 0x80, 0xBF)
  else if n < 0xF0 then
    some (2, n - 0xE0, if n = 0xE0 then 0xA0 else 0x80, if n = 0xED then 0x9F else 0xBF)
  else if n < 0xF5 then
    some (3, n - 0xF0, if n = 0xF0 then 0x90 else 0x80, if n = 0xF4 then 0x8F else 0xBF)
  else none

/-- What reading the bytes after a first byte gives. -/
inductive Continuation where
  | complete (code : Nat) (rest : List UInt8)
  | broken (read : Nat) (reason : Reason)

/-- Reads `count` more bytes of a character; the first of them must lie from `low` to `high`. -/
def continue? : (count code low high read : Nat) → List UInt8 → Continuation
  | 0, code, _, _, _, bytes => .complete code bytes
  | _ + 1, _, _, _, read, [] => .broken read .endOfData
  | count + 1, code, low, high, read, b :: bytes =>
    if low ≤ b.toNat ∧ b.toNat ≤ high then
      continue? count (code * 64 + (b.toNat - 0x80)) 0x80 0xBF (read + 1) bytes
    else .broken read .continuationByte

/-- A sequence that goes on leaves no more bytes than there were. -/
theorem length_of_continue? {count code low high read : Nat} {bytes rest : List UInt8} {n : Nat}
    (h : continue? count code low high read bytes = .complete n rest) :
    rest.length ≤ bytes.length := by
  induction count generalizing code low high read bytes with
  | zero => simp [continue?] at h; simp [h]
  | succ count ih =>
    cases bytes with
    | nil => simp [continue?] at h
    | cons b bytes =>
      simp only [continue?] at h
      split at h
      · exact Nat.le_succ_of_le (ih h)
      · simp at h

/-- The characters of a sequence of bytes that starts at `offset`. -/
def decodeFrom (offset : Nat) (bytes : List UInt8) : Except Fault (List Char) :=
  match bytes with
  | [] => .ok []
  | b :: bytes =>
    match lead? b with
    | none => .error ⟨b, offset, 1, .startByte⟩
    | some (count, code, low, high) =>
      match _h : continue? count code low high 1 bytes with
      | .broken read reason => .error ⟨b, offset, read, reason⟩
      | .complete code rest => do
        return Char.ofNat code :: (← decodeFrom (offset + count + 1) rest)
termination_by bytes.length
decreasing_by
  have := length_of_continue? _h
  simp only [List.length_cons]; omega

/-- The characters that the bytes stand for. -/
def decode (bytes : List UInt8) : Except Fault (List Char) := decodeFrom 0 bytes

end Planetarium.Text.Utf8
