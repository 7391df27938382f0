import PolyExpand.Proofs.Equality
import PolyExpand.Proofs.StoredLaws
import Mathlib.Algebra.Polynomial.Degree.Domain

/-!
# Leading terms — what no product can cancel

The leading term of a polynomial has the largest exponent whose coefficient is not zero.
It need not be the last one that is stored, because zeros may stand behind it, and it need
not have a neighbour, because zeros may stand before it. Where polynomials are multiplied,
the highest coefficient that could be more than zero has a single contribution, which is
the product of two numbers that are not zero. So nothing is lost at the top: leading
exponents add up, leading coefficients are multiplied, and as stored degrees add up too,
the zeros behind the leading terms must do the same (`trailingZeros`).

In `ℚ[X]` the leading exponent is the degree (`isGreatest_natDegree`), and the law is that
a product of nonzero polynomials is not zero.

> `leading_term_mul`: a product is zero only if a factor is, and otherwise its leading
> exponent, its leading coefficient and its trailing zeros are those of the factors put
> together.
-/

namespace PolyExpand.DensePoly

open Polynomial

variable {p q : DensePoly} {m n : ℕ}

/-- The number of zeros that are stored last. -/
def trailingZeros (p : DensePoly) : ℕ := (p.coeffs.rtakeWhile (· == 0)).length

/-- Significant coefficients and trailing zeros are all there is. -/
theorem length_significant_add (p : DensePoly) :
    p.significant.length + p.trailingZeros = p.size := by
  have hsplit := List.rdropWhile_append_rtakeWhile (l := p.coeffs) (p := (· == 0))
  rw [size, ← hsplit, List.length_append]
  rfl

theorem isZero_iff_toPolynomial_eq : p.isZero = true ↔ p.toPolynomial = 0 := by
  rw [isZero_iff, Polynomial.ext_iff]
  simp only [coeff_toPolynomial, Polynomial.coeff_zero]

/-! ## The leading exponent -/

theorem isGreatest_natDegree (h : p.toPolynomial ≠ 0) :
    IsGreatest {i | p.coeff i ≠ 0} p.toPolynomial.natDegree := by
  constructor
  · show p.coeff _ ≠ 0
    rw [← coeff_toPolynomial, coeff_natDegree]
    exact leadingCoeff_ne_zero.mpr h
  · intro i hi
    refine le_natDegree_of_ne_zero ?_
    rwa [coeff_toPolynomial]

/-- There is one leading exponent, and it is the degree of what is meant. -/
theorem natDegree_of_isGreatest (h : IsGreatest {i | p.coeff i ≠ 0} m) :
    p.toPolynomial ≠ 0 ∧ p.toPolynomial.natDegree = m := by
  have hne : p.toPolynomial ≠ 0 := by
    intro hzero
    have hm : p.coeff m ≠ 0 := h.1
    rw [← coeff_toPolynomial, hzero] at hm
    exact hm (Polynomial.coeff_zero m)
  exact ⟨hne, (isGreatest_natDegree hne).unique h⟩

/-- The leading term is the last significant one. -/
theorem length_significant_of_isGreatest (h : IsGreatest {i | p.coeff i ≠ 0} m) :
    p.significant.length = m + 1 := by
  have hin : ∀ i, p.coeff i ≠ 0 → i < p.significant.length := by
    intro i hi
    by_contra hout
    rw [← getD_significant, List.getD_eq_getElem?_getD, List.getElem?_eq_none (by omega)] at hi
    exact hi rfl
  have hm := hin m h.1
  have hne : p.significant ≠ [] := List.ne_nil_of_length_pos (by omega)
  have hlast : p.significant.length - 1 ≤ m := h.2 (coeff_last_significant hne)
  omega

/-- What is stored ends with the leading term and the zeros behind it. -/
theorem size_of_isGreatest (h : IsGreatest {i | p.coeff i ≠ 0} m) :
    p.size = m + 1 + p.trailingZeros := by
  rw [← length_significant_add, length_significant_of_isGreatest h]

/-! ## Products -/

section

variable (hp : IsGreatest {i | p.coeff i ≠ 0} m) (hq : IsGreatest {i | q.coeff i ≠ 0} n)
include hp hq

theorem isGreatest_mul : IsGreatest {k | (p.mul q).coeff k ≠ 0} (m + n) := by
  obtain ⟨hp0, rfl⟩ := natDegree_of_isGreatest hp
  obtain ⟨hq0, rfl⟩ := natDegree_of_isGreatest hq
  have hproduct : (p.mul q).toPolynomial ≠ 0 := by
    rw [toPolynomial_mul]
    exact mul_ne_zero hp0 hq0
  rw [← natDegree_mul hp0 hq0, ← toPolynomial_mul]
  exact isGreatest_natDegree hproduct

theorem coeff_mul_leading : (p.mul q).coeff (m + n) = p.coeff m * q.coeff n := by
  obtain ⟨-, rfl⟩ := natDegree_of_isGreatest hp
  obtain ⟨-, rfl⟩ := natDegree_of_isGreatest hq
  rw [← coeff_toPolynomial, toPolynomial_mul, coeff_mul_degree_add_degree, leadingCoeff,
    leadingCoeff, coeff_toPolynomial, coeff_toPolynomial]

/-- Stored degrees and leading exponents add up, so what lies between them does. -/
theorem trailingZeros_mul : (p.mul q).trailingZeros = p.trailingZeros + q.trailingZeros := by
  have hdegree := degree_mul p q
  have hproduct := size_of_isGreatest (isGreatest_mul hp hq)
  rw [size_eq_degree_add_one] at hproduct
  have hpsize := size_of_isGreatest hp
  rw [size_eq_degree_add_one] at hpsize
  have hqsize := size_of_isGreatest hq
  rw [size_eq_degree_add_one] at hqsize
  omega

end

/-- **Products keep their leading term.** A product that can be stored is zero if a factor
is zero, and only then. If no factor is, both have a leading exponent, the largest one of
a coefficient other than zero. Then the leading exponent of the product is the sum of the
two, its coefficient there is the product of theirs, and behind it as many zeros are stored
as behind both of them together. -/
theorem leading_term_mul (a b : DensePoly) (hsize : a.size + b.size < 2 ^ 64) :
    ∃ p, a.mul? b = some p ∧ (p.isZero = true ↔ a.isZero = true ∨ b.isZero = true) ∧
      (a.isZero = false → b.isZero = false →
        ∃ m n, IsGreatest {i | a.coeff i ≠ 0} m ∧ IsGreatest {i | b.coeff i ≠ 0} n ∧
          IsGreatest {k | p.coeff k ≠ 0} (m + n) ∧
          p.coeff (m + n) = a.coeff m * b.coeff n ∧
          p.trailingZeros = a.trailingZeros + b.trailingZeros) := by
  have hstored : a.degree + b.size ≤ maxWord := by
    have hword : maxWord = 2 ^ 64 - 1 := rfl
    rw [size_eq_degree_add_one a] at hsize
    omega
  refine ⟨a.mul b, mul?_of_le hstored, ?_, fun ha hb => ?_⟩
  · rw [isZero_iff_toPolynomial_eq, isZero_iff_toPolynomial_eq, isZero_iff_toPolynomial_eq,
      toPolynomial_mul, mul_eq_zero]
  · have hne : ∀ {p : DensePoly}, p.isZero = false → p.toPolynomial ≠ 0 := by
      intro p hp hzero
      rw [isZero_iff_toPolynomial_eq.mpr hzero] at hp
      cases hp
    have hm := isGreatest_natDegree (hne ha)
    have hn := isGreatest_natDegree (hne hb)
    exact ⟨_, _, hm, hn, isGreatest_mul hm hn, coeff_mul_leading hm hn, trailingZeros_mul hm hn⟩

/-- `1 - 2x^2` with a zero behind it, times `3x` with two. -/
theorem leading_term_mul_trailing :
    let a := ofInts [1, 0, -2, 0]
    let b := ofInts [0, 3, 0, 0]
    a.size + b.size < 2 ^ 64 ∧ a.isZero = false ∧ b.isZero = false ∧
    ∃ p, a.mul? b = some p ∧ p.isZero = false ∧ p.trailingZeros = 3 ∧
      IsGreatest {k | p.coeff k ≠ 0} 3 ∧ p.coeff 3 = -6 := by
  intro a b
  have hsize : a.size + b.size < 2 ^ 64 := by decide
  have ha : a.isZero = false := by decide +kernel
  have hb : b.isZero = false := by decide +kernel
  obtain ⟨p, hp, hzero, hleading⟩ := leading_term_mul a b hsize
  obtain ⟨m, n, hm, hn, hgreatest, hcoeff, htrailing⟩ := hleading ha hb
  have hma : a.significant.length = 3 := by decide +kernel
  rw [length_significant_of_isGreatest hm] at hma
  obtain rfl : m = 2 := Nat.succ.inj hma
  have hnb : b.significant.length = 2 := by decide +kernel
  rw [length_significant_of_isGreatest hn] at hnb
  obtain rfl : n = 1 := Nat.succ.inj hnb
  refine ⟨hsize, ha, hb, p, hp, ?_, ?_, hgreatest, ?_⟩
  · rw [Bool.eq_false_iff, ne_eq, hzero, ha, hb]
    decide
  · rw [htrailing]
    decide +kernel
  · rw [hcoeff]
    decide +kernel

end PolyExpand.DensePoly
