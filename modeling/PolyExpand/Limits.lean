/-!
# Limits — the two sizes at which something is refused

Polynomials are dense, so an exponent is also a number of stored
coefficients. A written exponent is capped well below what could be stored
(`maxExponent`), and a product of polynomials is refused when its number of
coefficients is no longer a machine word (`maxWord`). The caps are far
apart on purpose: no expression short enough to write reaches the second.
-/

namespace PolyExpand

/-- The largest exponent that may be written after a `^`. -/
def maxExponent : Nat := 65535

/-- The largest number of coefficients, and the largest exponent that is
read as a number at all: the largest 64-bit word. -/
def maxWord : Nat := 0xFFFFFFFFFFFFFFFF

/-- A permitted exponent is a number that fits. -/
theorem maxExponent_le_maxWord : maxExponent ≤ maxWord := by decide

end PolyExpand
