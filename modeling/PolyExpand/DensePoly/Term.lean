import PolyExpand.DensePoly
import PolyExpand.Limits

/-!
# Terms — one coefficient at one power

A term is a polynomial with at most one coefficient that is not zero, kept
as that coefficient and its exponent. Multiplying by a term needs no
additions: the coefficients are scaled, and zeros are put in front
(`Term.mul`).

A product is refused when it would have more than `maxWord` coefficients.
The checked products `Term.mul?` and `DensePoly.mul?` say so by `none`; for
polynomials the bound is on the longest of the shifted multiples that the
product is the sum of, and therefore on the sum of the degrees.
-/

namespace PolyExpand

/-- A coefficient at a power. -/
structure Term where
  coefficient : Rat
  exponent : Nat
deriving DecidableEq

namespace Term

/-- A term as a polynomial: zeros below its one coefficient. -/
def poly (t : Term) : DensePoly :=
  ⟨List.replicate t.exponent 0 ++ [t.coefficient], by simp⟩

/-- A polynomial, shifted up and scaled by a term. -/
def mul (t : Term) (p : DensePoly) : DensePoly :=
  ⟨List.replicate t.exponent 0 ++ p.coeffs.map (t.coefficient * ·), by simp [p.coeffs_ne_nil]⟩

/-- The product with a term, unless it has too many coefficients. -/
def mul? (t : Term) (p : DensePoly) : Option DensePoly :=
  if t.exponent + p.size ≤ maxWord then some (t.mul p) else none

@[simp] theorem degree_poly (t : Term) : t.poly.degree = t.exponent := by
  simp [poly, DensePoly.degree, DensePoly.size]

@[simp] theorem size_mul (t : Term) (p : DensePoly) :
    (t.mul p).size = t.exponent + p.size := by
  simp [mul, DensePoly.size]

theorem mul?_eq_none_iff {t : Term} {p : DensePoly} :
    t.mul? p = none ↔ maxWord < t.exponent + p.size := by
  unfold mul?
  split <;> simp <;> omega

end Term

namespace DensePoly

/-- The term of a polynomial at a power. -/
def term (p : DensePoly) (i : Nat) : Term := ⟨p.coeff i, i⟩

/-- The product, unless it has too many coefficients. -/
def mul? (p q : DensePoly) : Option DensePoly :=
  if p.degree + q.size ≤ maxWord then some (p.mul q) else none

theorem mul?_eq_none_iff {p q : DensePoly} :
    p.mul? q = none ↔ maxWord < p.degree + q.size := by
  unfold mul?
  split <;> simp <;> omega

end DensePoly

end PolyExpand
