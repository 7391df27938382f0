/-!
# Numerals — numbers read from digits and written in digits

A numeral is a run of decimal digits. Reading ignores leading zeros
(`value`), writing produces none (`digits`), and `value_digits` says that
writing loses nothing. A rational is written in lowest terms, its sign in
front of the numerator and its denominator only when it is not one. A power
of the indeterminate is `x`, followed by its exponent only when it is not
one.
-/

namespace PolyExpand.Numeral

/-- The number that a run of decimal digits stands for. -/
def value (ds : List Char) : Nat := Nat.ofDigitChars 10 ds 0

/-- The decimal digits of a number, without leading zeros. -/
def digits (n : Nat) : List Char := Nat.toDigits 10 n

@[simp] theorem value_digits (n : Nat) : value (digits n) = n :=
  Nat.ofDigitChars_toDigits (by decide) (by decide)

/-- Every number has a digit. -/
theorem digits_ne_nil (n : Nat) : digits n ≠ [] := Nat.toDigits_ne_nil

/-- Digits are digits. -/
theorem isDigit_of_mem_digits {n : Nat} {c : Char} (h : c ∈ digits n) :
    c.isDigit = true :=
  Nat.isDigit_of_mem_toDigits (by decide) (by decide) h

/-- Different numbers have different digits. -/
theorem digits_inj {m n : Nat} : digits m = digits n ↔ m = n :=
  ⟨fun h => by rw [← value_digits m, h, value_digits], fun h => h ▸ rfl⟩

/-- A rational without its sign: numerator, and denominator unless one. -/
def magnitude (q : Rat) : List Char :=
  if q.den = 1 then digits q.num.natAbs
  else digits q.num.natAbs ++ '/' :: digits q.den

/-- A rational in lowest terms, as in `-3/2`, `5` and `0`. -/
def rational (q : Rat) : List Char :=
  if q.num < 0 then '-' :: magnitude q else magnitude q

/-- A power of the indeterminate, as in `x`, `x^2` and `x^0`. -/
def power (exponent : Nat) : List Char :=
  if exponent = 1 then ['x'] else 'x' :: '^' :: digits exponent

end PolyExpand.Numeral
