import PolyExpand.DensePoly.Term
import Mathlib.Algebra.Polynomial.Coeff
import Mathlib.Tactic.Ring

/-!
# Dense polynomials as polynomials over the rationals

A `DensePoly` is a list of coefficients, and its length is observable. What it
means is an element of `ℚ[X]`, which has no length: `toPolynomial` reads the
list by Horner's rule, so that it follows the recursion of `mulCoeffs` clause by
clause. Every operation on coefficient lists is the ring operation of the same
name, and two dense polynomials are equal in the sense of `==` exactly if they
mean the same:

> `beq_iff_toPolynomial_eq`: `p == q` iff `p.toPolynomial = q.toPolynomial`.

What this reading forgets, the length, is the business of `size` and `degree`.
-/

namespace PolyExpand

open Polynomial

/-- The polynomial with a list of coefficients, constant term first. -/
noncomputable def horner : List ℚ → ℚ[X]
  | [] => 0
  | c :: cs => C c + X * horner cs

theorem coeff_horner : ∀ (cs : List ℚ) (i : ℕ), (horner cs).coeff i = cs.getD i 0
  | [], i => by simp [horner]
  | c :: cs, 0 => by simp [horner]
  | c :: cs, i + 1 => by
    rw [horner, coeff_add, coeff_X_mul, coeff_horner cs i, coeff_C_succ, zero_add]
    rfl

theorem horner_addCoeffs (as bs : List ℚ) :
    horner (DensePoly.addCoeffs as bs) = horner as + horner bs := by
  ext i
  rw [coeff_add, coeff_horner, coeff_horner, coeff_horner, DensePoly.getD_addCoeffs]

theorem horner_map_mul (c : ℚ) (cs : List ℚ) :
    horner (cs.map (c * ·)) = C c * horner cs := by
  ext i
  rw [coeff_C_mul, coeff_horner, coeff_horner, DensePoly.getD_map_mul]

/-- Zeros in front multiply by a power of the indeterminate. -/
theorem horner_replicate_append (n : ℕ) (cs : List ℚ) :
    horner (List.replicate n 0 ++ cs) = X ^ n * horner cs := by
  induction n with
  | zero => simp
  | succ n ih =>
    rw [List.replicate_succ, List.cons_append, horner, ih, map_zero, zero_add, pow_succ']
    ring

theorem horner_mulCoeffs : ∀ as bs : List ℚ,
    horner (DensePoly.mulCoeffs as bs) = horner as * horner bs
  | [], bs => by
    have hzeros := horner_replicate_append (bs.length - 1) []
    rw [List.append_nil, horner, mul_zero] at hzeros
    rw [DensePoly.mulCoeffs_nil, hzeros, horner, zero_mul]
  | a :: as, bs => by
    rw [DensePoly.mulCoeffs_cons]
    split
    next ha =>
      rw [horner, horner, horner_mulCoeffs as bs, ha, map_zero]
      ring
    next =>
      rw [horner_addCoeffs, horner_map_mul, horner, horner, horner_mulCoeffs as bs, map_zero]
      ring

namespace DensePoly

/-- The element of `ℚ[X]` that a dense polynomial stores. -/
noncomputable def toPolynomial (p : DensePoly) : ℚ[X] := horner p.coeffs

@[simp] theorem coeff_toPolynomial (p : DensePoly) (i : ℕ) :
    p.toPolynomial.coeff i = p.coeff i :=
  coeff_horner p.coeffs i

@[simp] theorem toPolynomial_constant (c : ℚ) : (constant c).toPolynomial = C c := by
  simp [toPolynomial, constant, horner]

@[simp] theorem toPolynomial_zero : zero.toPolynomial = 0 := by simp [zero]

@[simp] theorem toPolynomial_one : one.toPolynomial = 1 := by simp [one]

@[simp] theorem toPolynomial_add (p q : DensePoly) :
    (p.add q).toPolynomial = p.toPolynomial + q.toPolynomial := by
  ext i
  simp

@[simp] theorem toPolynomial_mul (p q : DensePoly) :
    (p.mul q).toPolynomial = p.toPolynomial * q.toPolynomial := by
  rw [toPolynomial, coeffs_mul, horner_mulCoeffs]
  rfl

/-- Equality up to trailing zeros is equality of what is stored. -/
theorem beq_iff_toPolynomial_eq {p q : DensePoly} :
    (p == q) = true ↔ p.toPolynomial = q.toPolynomial := by
  rw [beq_iff, Polynomial.ext_iff]
  simp

/-- The length is all that `toPolynomial` forgets. -/
theorem eq_of_toPolynomial_eq {p q : DensePoly} (hdegree : p.degree = q.degree)
    (h : p.toPolynomial = q.toPolynomial) : p = q := by
  refine ext_coeff ?_ fun i => ?_
  · rw [size_eq_degree_add_one, size_eq_degree_add_one, hdegree]
  · rw [← coeff_toPolynomial, h, coeff_toPolynomial]

end DensePoly

@[simp] theorem Term.toPolynomial_poly (t : Term) :
    t.poly.toPolynomial = C t.coefficient * X ^ t.exponent := by
  rw [DensePoly.toPolynomial, Term.poly, horner_replicate_append, horner, horner, mul_zero,
    add_zero, mul_comm]

end PolyExpand
