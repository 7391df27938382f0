import PolyExpand.Proofs.RationalPoly
import Mathlib.Data.List.GetD

/-!
# Stored laws — arithmetic that is exact about lengths

Sums and products obey the laws of a commutative ring, and they obey them as
lists: both sides of every law are stored with the same number of coefficients,
whatever cancels and however many zeros stand last. The argument is always the
same. A dense polynomial is its degree and what it means in `ℚ[X]`
(`eq_of_toPolynomial_eq`); degrees are taken care of by `degree_add` and
`degree_mul`, meanings by the ring laws of `ℚ[X]`.

Two laws of a ring are missing, and have to be. A sum that cancels is not the
zero polynomial but a list of zeros, as long as what was added, and so is a
product with zero.

A product may be refused for its length. Refusal is a matter of degrees alone,
so the laws hold of the checked product too: either both sides are refused, or
neither is and they are equal.

> `checked_laws`: the coefficients of sums and checked products, and all laws.
-/

namespace PolyExpand.DensePoly

open Polynomial
open Finset.HasAntidiagonal (antidiagonal)

/-! ## Sums -/

protected theorem add_comm (a b : DensePoly) : a.add b = b.add a := by
  refine eq_of_toPolynomial_eq ?_ ?_
  · rw [degree_add, degree_add, max_comm]
  · rw [toPolynomial_add, toPolynomial_add, add_comm]

protected theorem add_assoc (a b c : DensePoly) : (a.add b).add c = a.add (b.add c) := by
  refine eq_of_toPolynomial_eq ?_ ?_
  · rw [degree_add, degree_add, degree_add, degree_add, max_assoc]
  · rw [toPolynomial_add, toPolynomial_add, toPolynomial_add, toPolynomial_add, add_assoc]

protected theorem add_zero (a : DensePoly) : a.add zero = a := by
  refine eq_of_toPolynomial_eq ?_ ?_
  · rw [degree_add, degree_zero, Nat.max_zero]
  · rw [toPolynomial_add, toPolynomial_zero, add_zero]

/-! ## Products -/

theorem coeff_mul (a b : DensePoly) (k : ℕ) :
    (a.mul b).coeff k = ∑ x ∈ antidiagonal k, a.coeff x.1 * b.coeff x.2 := by
  rw [← coeff_toPolynomial, toPolynomial_mul, Polynomial.coeff_mul]
  refine Finset.sum_congr rfl fun x _ => ?_
  rw [coeff_toPolynomial, coeff_toPolynomial]

protected theorem mul_comm (a b : DensePoly) : a.mul b = b.mul a := by
  refine eq_of_toPolynomial_eq ?_ ?_
  · rw [degree_mul, degree_mul, add_comm]
  · rw [toPolynomial_mul, toPolynomial_mul, mul_comm]

protected theorem mul_assoc (a b c : DensePoly) : (a.mul b).mul c = a.mul (b.mul c) := by
  refine eq_of_toPolynomial_eq ?_ ?_
  · rw [degree_mul, degree_mul, degree_mul, degree_mul, add_assoc]
  · rw [toPolynomial_mul, toPolynomial_mul, toPolynomial_mul, toPolynomial_mul, mul_assoc]

protected theorem mul_add (a b c : DensePoly) :
    a.mul (b.add c) = (a.mul b).add (a.mul c) := by
  refine eq_of_toPolynomial_eq ?_ ?_
  · -- the longer of two operands makes the longer of two products
    rw [degree_mul, degree_add, degree_add, degree_mul, degree_mul]
    omega
  · rw [toPolynomial_mul, toPolynomial_add, toPolynomial_add, toPolynomial_mul,
      toPolynomial_mul, mul_add]

protected theorem mul_one (a : DensePoly) : a.mul one = a := by
  refine eq_of_toPolynomial_eq ?_ ?_
  · rw [degree_mul, degree_one, add_zero]
  · rw [toPolynomial_mul, toPolynomial_one, mul_one]

/-! ## Lists of zeros -/

/-- A polynomial without a coefficient other than zero stores nothing but zeros. -/
theorem coeffs_eq_replicate {p : DensePoly} (h : ∀ i, p.coeff i = 0) :
    p.coeffs = List.replicate p.size 0 := by
  refine eq_of_getD_eq (List.length_replicate ..).symm fun i => ?_
  have hi : p.coeffs.getD i 0 = 0 := h i
  rw [hi, List.getD_eq_getElem?_getD, List.getElem?_getD_replicate_default_eq]

theorem coeffs_add_negate (a : DensePoly) :
    (a.add a.negate).coeffs = List.replicate a.size 0 := by
  have hsize : (a.add a.negate).size = a.size := by
    rw [size_add, size_negate, Nat.max_self]
  rw [← hsize]
  refine coeffs_eq_replicate fun i => ?_
  rw [coeff_add, coeff_negate, add_neg_cancel]

theorem coeffs_mul_zero (a : DensePoly) : (a.mul zero).coeffs = List.replicate a.size 0 := by
  have hsize : (a.mul zero).size = a.size := by
    rw [size_eq_degree_add_one, degree_mul, degree_zero, size_eq_degree_add_one]
  rw [← hsize]
  refine coeffs_eq_replicate fun i => ?_
  rw [← coeff_toPolynomial, toPolynomial_mul, toPolynomial_zero, mul_zero, Polynomial.coeff_zero]

/-! ## Checked products -/

theorem mul?_of_le {a b : DensePoly} (h : a.degree + b.size ≤ maxWord) :
    a.mul? b = some (a.mul b) :=
  if_pos h

theorem mul?_comm (a b : DensePoly) : a.mul? b = b.mul? a := by
  have hlength : a.degree + b.size = b.degree + a.size := by
    rw [size_eq_degree_add_one, size_eq_degree_add_one]
    omega
  rw [mul?, mul?, hlength, DensePoly.mul_comm]

/-- Three factors, the first two multiplied first: the last product is the longest,
so it decides. -/
theorem mul?_bind_left (a b c : DensePoly) :
    (a.mul? b >>= fun p => p.mul? c) =
      if a.degree + b.degree + c.size ≤ maxWord then some ((a.mul b).mul c) else none := by
  have hb := b.size_eq_degree_add_one
  have hc := c.size_pos
  by_cases h : a.degree + b.size ≤ maxWord
  · rw [mul?_of_le h]
    show (a.mul b).mul? c = _
    rw [mul?, degree_mul]
  · rw [mul?, if_neg h, if_neg (by omega)]
    rfl

/-- Three factors, the last two multiplied first. -/
theorem mul?_bind_right (a b c : DensePoly) :
    (b.mul? c >>= fun p => a.mul? p) =
      if a.degree + b.degree + c.size ≤ maxWord then some (a.mul (b.mul c)) else none := by
  by_cases h : b.degree + c.size ≤ maxWord
  · have hlength : a.degree + (b.mul c).size = a.degree + b.degree + c.size := by
      rw [size_eq_degree_add_one, size_eq_degree_add_one, degree_mul]
      omega
    rw [mul?_of_le h]
    show a.mul? (b.mul c) = _
    rw [mul?, hlength]
  · rw [mul?, if_neg h, if_neg (by omega)]
    rfl

theorem mul?_assoc (a b c : DensePoly) :
    (a.mul? b >>= fun p => p.mul? c) = (b.mul? c >>= fun p => a.mul? p) := by
  rw [mul?_bind_left, mul?_bind_right, DensePoly.mul_assoc]

theorem mul?_add (a b c : DensePoly) :
    a.mul? (b.add c) = do return (← a.mul? b).add (← a.mul? c) := by
  by_cases hb : a.degree + b.size ≤ maxWord
  · by_cases hc : a.degree + c.size ≤ maxWord
    · have hsum : a.degree + (b.add c).size ≤ maxWord := by
        rw [size_add]
        omega
      rw [mul?_of_le hb, mul?_of_le hc, mul?_of_le hsum, DensePoly.mul_add]
      rfl
    · rw [mul?_of_le hb, mul?_eq_none_iff.mpr (Nat.lt_of_not_le hc), mul?_eq_none_iff.mpr]
      · rfl
      · rw [size_add]
        omega
  · rw [mul?_eq_none_iff.mpr (Nat.lt_of_not_le hb), mul?_eq_none_iff.mpr]
    · rfl
    · rw [size_add]
      omega

/-- **The laws of stored polynomials.** Sums are taken coefficient by coefficient,
and products, wherever they can be stored, by convolution. Both are commutative and
associative, products distribute over sums, zero and one are neutral, and what
cancels leaves a list of zeros: always as equalities of the stored lists, and for
products also where they are refused. -/
theorem checked_laws (a b c : DensePoly) :
    (∀ k, (a.add b).coeff k = a.coeff k + b.coeff k) ∧
    (a.degree + b.size ≤ maxWord → ∃ p, a.mul? b = some p ∧ p.size = a.degree + b.size ∧
      ∀ k, p.coeff k = ∑ x ∈ antidiagonal k, a.coeff x.1 * b.coeff x.2) ∧
    (a.add b = b.add a ∧ (a.add b).add c = a.add (b.add c) ∧ a.add zero = a ∧
      (a.add a.negate).coeffs = List.replicate a.size 0) ∧
    (a.mul? b = b.mul? a ∧
      (a.mul? b >>= fun p => p.mul? c) = (b.mul? c >>= fun p => a.mul? p) ∧
      (a.degree + b.degree + c.size ≤ maxWord → (a.mul? b >>= fun p => p.mul? c).isSome) ∧
      a.mul? (b.add c) = do return (← a.mul? b).add (← a.mul? c)) ∧
    (a.size ≤ maxWord → a.mul? one = some a ∧
      ∃ z, a.mul? zero = some z ∧ z.coeffs = List.replicate a.size 0) := by
  refine ⟨coeff_add a b, fun h => ?_, ?_, ?_, fun h => ?_⟩
  · refine ⟨a.mul b, mul?_of_le h, ?_, coeff_mul a b⟩
    rw [size_eq_degree_add_one, degree_mul, size_eq_degree_add_one b, add_assoc]
  · exact ⟨a.add_comm b, a.add_assoc b c, a.add_zero, a.coeffs_add_negate⟩
  · refine ⟨a.mul?_comm b, a.mul?_assoc b c, fun h => ?_, a.mul?_add b c⟩
    rw [mul?_bind_left, if_pos h]
    rfl
  · have hone : a.degree + one.size ≤ maxWord := le_of_eq_of_le a.size_eq_degree_add_one.symm h
    refine ⟨?_, a.mul zero, mul?_of_le hone, a.coeffs_mul_zero⟩
    rw [mul?_of_le hone, DensePoly.mul_one]

/-- `x + 1` times `x - 1`, the latter with a zero behind it, and three factors of
which one is zero. -/
theorem checked_laws_trailing_zero :
    let a := ofInts [1, 1]
    let b := ofInts [-1, 1, 0]
    (∃ p, a.mul? b = some p ∧ p.size = 4 ∧
      ∀ k, p.coeff k = ∑ x ∈ antidiagonal k, a.coeff x.1 * b.coeff x.2) ∧
    (a.mul? b >>= fun p => p.mul? zero).isSome ∧
    b.mul? one = some b ∧ ∃ z, b.mul? zero = some z ∧ z.coeffs = [0, 0, 0] := by
  intro a b
  obtain ⟨-, hproduct, -, ⟨-, -, hthree, -⟩, -⟩ := checked_laws a b zero
  obtain ⟨-, -, -, -, hneutral⟩ := checked_laws b a zero
  exact ⟨hproduct (by decide), hthree (by decide), hneutral (by decide)⟩

end PolyExpand.DensePoly
