/-!
# Decimal digits

A natural number and its decimal digits.  `value` reads any run of digits, leading zeros
included; `digits` writes the run without them, and `value (digits n) = n`.
-/
namespace Planetarium.Decimal

/-- The character is one of the ten ASCII digits. -/
def isDigit (c : Char) : Bool := '0' ≤ c && c ≤ '9'

/-- The digit for a value below 10. -/
def digitChar (n : Nat) : Char := Char.ofNat (48 + n)

/-- The value of a digit. -/
def digitValue (c : Char) : Nat := c.toNat - 48

/-- The number that a run of digits stands for. -/
def value (cs : List Char) : Nat := cs.foldl (fun n c => 10 * n + digitValue c) 0

/-- The digits of a number, without leading zeros. -/
def digits (n : Nat) : List Char :=
  if n < 10 then [digitChar n] else digits (n / 10) ++ [digitChar (n % 10)]

@[simp] theorem value_nil : value [] = 0 := rfl

@[simp] theorem value_append_singleton (cs : List Char) (c : Char) :
    value (cs ++ [c]) = 10 * value cs + digitValue c := by
  simp [value, List.foldl_append]

/-- The digit of a number below ten is a digit. -/
theorem isDigit_digitChar {n : Nat} (h : n < 10) : isDigit (digitChar n) := by
  have : ∀ k : Fin 10, isDigit (digitChar k) := by decide
  exact this ⟨n, h⟩

/-- The digit of a number stands for that number. -/
theorem digitValue_digitChar {n : Nat} (h : n < 10) : digitValue (digitChar n) = n := by
  have : ∀ k : Fin 10, digitValue (digitChar k) = k := by decide
  exact this ⟨n, h⟩

/-- **The digits of a number stand for it.** -/
theorem value_digits (n : Nat) : value (digits n) = n := by
  fun_induction digits n with
  | case1 n h => simp [value, digitValue_digitChar h]
  | case2 n h ih =>
    rw [value_append_singleton, ih, digitValue_digitChar (Nat.mod_lt _ (by omega))]
    omega

/-- Every number has a digit. -/
theorem digits_ne_nil (n : Nat) : digits n ≠ [] := by
  rw [digits]; split <;> simp

/-- A number is written with nothing but digits. -/
theorem isDigit_of_mem_digits {n : Nat} {c : Char} (h : c ∈ digits n) : isDigit c := by
  fun_induction digits n with
  | case1 n hn =>
    obtain rfl := List.mem_singleton.mp h
    exact isDigit_digitChar hn
  | case2 n hn ih =>
    rcases List.mem_append.mp h with h | h
    · exact ih h
    · obtain rfl := List.mem_singleton.mp h
      exact isDigit_digitChar (Nat.mod_lt _ (by omega))

end Planetarium.Decimal
