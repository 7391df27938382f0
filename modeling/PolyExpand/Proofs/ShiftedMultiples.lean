import PolyExpand.Proofs.StoredDegree
import PolyExpand.Proofs.StoredLaws

/-!
# Shifted multiples — a product is a sum without products

To multiply by a term is to scale the coefficients and to put zeros in front of them, and
no addition is needed for it. Multiplication proper adds such shifted multiples up, one for
each stored coefficient of the first operand, zero or not (`mul_eq_total`), and is refused
if one of them is (`mul?_eq_foldlM`). Multiplying by the polynomial that a term stands for
must therefore give the shifted multiple itself, although all but one of the multiples that
are added are lists of zeros then.

A sum does not depend on the order of what is added (`total_perm`), and the terms of a
polynomial are its shifted multiples of one. So they add up to the polynomial in any order,
trailing zeros included.

> `shift_and_scale`: three ways to multiply by a term, two to scale and two to negate store
> the same coefficients, and the terms of a polynomial add up to what is stored.
-/

namespace PolyExpand

open Polynomial

/-! ## What multiples mean -/

theorem Term.toPolynomial_mul (t : Term) (p : DensePoly) :
    (t.mul p).toPolynomial = C t.coefficient * X ^ t.exponent * p.toPolynomial := by
  rw [DensePoly.toPolynomial, Term.mul, horner_replicate_append, horner_map_mul,
    DensePoly.toPolynomial]
  ring

namespace DensePoly

@[simp] theorem toPolynomial_scale (c : ℚ) (p : DensePoly) :
    (p.scale c).toPolynomial = C c * p.toPolynomial := by
  ext i
  rw [coeff_C_mul, coeff_toPolynomial, coeff_toPolynomial, coeff_scale]

@[simp] theorem toPolynomial_negate (p : DensePoly) : p.negate.toPolynomial = -p.toPolynomial := by
  ext i
  rw [coeff_neg, coeff_toPolynomial, coeff_toPolynomial, coeff_negate]

theorem negate_eq_scale (p : DensePoly) : p.negate = p.scale (-1) := by
  refine eq_of_toPolynomial_eq ?_ ?_
  · rw [degree_negate, degree_scale]
  · rw [toPolynomial_negate, toPolynomial_scale, C_neg, C_1, neg_one_mul]

/-- Scaling is multiplying by a term that shifts by nothing. -/
theorem scale_eq_mul (c : ℚ) (p : DensePoly) : p.scale c = Term.mul ⟨c, 0⟩ p := by
  refine eq_of_toPolynomial_eq ?_ ?_
  · rw [degree_scale, Term.degree_mul, zero_add]
  · rw [toPolynomial_scale, Term.toPolynomial_mul, pow_zero, mul_one]

/-- **A product with a term is the shifted multiple**, coefficient by coefficient. -/
theorem poly_mul (t : Term) (p : DensePoly) : t.poly.mul p = t.mul p := by
  refine eq_of_toPolynomial_eq ?_ ?_
  · rw [degree_mul, Term.degree_poly, Term.degree_mul]
  · rw [toPolynomial_mul, Term.toPolynomial_poly, Term.toPolynomial_mul]

/-! ## Adding up -/

/-- Polynomials, added up from zero and from the left. -/
def total (ps : List DensePoly) : DensePoly := ps.foldl add zero

theorem total_concat (ps : List DensePoly) (p : DensePoly) :
    total (ps ++ [p]) = (total ps).add p := by
  rw [total, List.foldl_append, ← total]
  rfl

theorem toPolynomial_total (ps : List DensePoly) :
    (total ps).toPolynomial = (ps.map toPolynomial).sum := by
  induction ps using List.reverseRecOn with
  | nil => exact toPolynomial_zero
  | append_singleton ps p ih =>
    rw [total_concat, toPolynomial_add, ih, List.map_append, List.sum_append, List.map_singleton,
      List.sum_singleton]

/-- A sum does not depend on the order. -/
theorem total_perm {ps qs : List DensePoly} (h : ps.Perm qs) : total ps = total qs := by
  refine h.foldl_eq' (fun p _ q _ r => ?_) zero
  rw [DensePoly.add_assoc, DensePoly.add_comm p q, ← DensePoly.add_assoc]

/-- Where degrees go up one by one, the last one is the degree of the sum. -/
theorem degree_total_range {f : ℕ → DensePoly} {d : ℕ} (h : ∀ i, (f i).degree = i + d) (n : ℕ) :
    (total ((List.range (n + 1)).map f)).degree = n + d := by
  induction n with
  | zero =>
    show (zero.add (f 0)).degree = 0 + d
    rw [degree_add, h, degree_zero]
    omega
  | succ n ih =>
    rw [List.range_succ, List.map_append, List.map_singleton, total_concat, degree_add, ih, h]
    omega

/-! ## Products -/

/-- The multiples of the second operand that a product adds up: one for each stored
coefficient of the first. -/
def multiples (p q : DensePoly) : List DensePoly :=
  (List.range (p.degree + 1)).map fun i => (p.term i).mul q

/-- The terms of a polynomial mean what it means. -/
theorem sum_range_term (p : DensePoly) :
    ((List.range (p.degree + 1)).map fun i => C (p.coeff i) * X ^ i).sum = p.toPolynomial := by
  have hhorner : ∀ cs : List ℚ,
      ((List.range cs.length).map fun i => C (cs.getD i 0) * X ^ i).sum = horner cs := by
    intro cs
    induction cs with
    | nil => rfl
    | cons c cs ih =>
      have hshift : ∀ i, C (cs.getD i 0) * X ^ (i + 1) = X * (C (cs.getD i 0) * X ^ i) :=
        fun i => by ring
      rw [List.length_cons, List.range_succ_eq_map, List.map_cons, List.sum_cons, List.map_map,
        pow_zero, mul_one, horner, ← ih, ← List.sum_map_mul_left]
      exact congrArg (C c + ·) (congrArg List.sum (List.map_congr_left fun i _ => hshift i))
  rw [← size_eq_degree_add_one]
  exact hhorner p.coeffs

/-- **A product is the sum of its shifted multiples.** -/
theorem mul_eq_total (p q : DensePoly) : p.mul q = total (multiples p q) := by
  refine eq_of_toPolynomial_eq ?_ ?_
  · have hdegrees : ∀ i, ((p.term i).mul q).degree = i + q.degree := fun i => Term.degree_mul _ q
    rw [degree_mul, multiples, degree_total_range hdegrees]
  · rw [toPolynomial_mul, toPolynomial_total, ← sum_range_term, multiples, List.map_map,
      ← List.sum_map_mul_right]
    exact congrArg List.sum (List.map_congr_left fun i _ => ((p.term i).toPolynomial_mul q).symm)

/-- The terms of a polynomial are its shifted multiples of one. -/
theorem multiples_one (p : DensePoly) :
    multiples p one = (List.range (p.degree + 1)).map fun i => (p.term i).poly := by
  refine List.map_congr_left fun i _ => ?_
  rw [← poly_mul, DensePoly.mul_one]

/-- **The terms add up to what is stored**, in any order. -/
theorem total_terms {p : DensePoly} {is : List ℕ} (h : is.Perm (List.range (p.degree + 1))) :
    total (is.map fun i => (p.term i).poly) = p := by
  rw [total_perm (h.map _), ← multiples_one, ← mul_eq_total, DensePoly.mul_one]

/-- Adds a multiple to what has been added up, unless it is refused. -/
def addMultiple (p q r : DensePoly) (i : ℕ) : Option DensePoly := do
  return r.add (← (p.term i).mul? q)

theorem addMultiple_of_le {p q : DensePoly} {i : ℕ} (h : i + q.size ≤ maxWord) (r : DensePoly) :
    addMultiple p q r i = some (r.add ((p.term i).mul q)) := by
  have hstored : (p.term i).mul? q = some ((p.term i).mul q) := if_pos h
  rw [addMultiple, hstored]
  rfl

theorem addMultiple_of_lt {p q : DensePoly} {i : ℕ} (h : maxWord < i + q.size) (r : DensePoly) :
    addMultiple p q r i = none := by
  have hrefused : (p.term i).mul? q = none := Term.mul?_eq_none_iff.mpr h
  rw [addMultiple, hrefused]
  rfl

/-- Multiples that can be stored are added up one by one. -/
theorem foldlM_addMultiple {p q : DensePoly} : ∀ {is : List ℕ} (r : DensePoly),
    (∀ i ∈ is, i + q.size ≤ maxWord) →
    is.foldlM (addMultiple p q) r = some ((is.map fun i => (p.term i).mul q).foldl add r)
  | [], _, _ => rfl
  | i :: is, r, h => by
    obtain ⟨hi, his⟩ := List.forall_mem_cons.mp h
    rw [List.foldlM_cons, addMultiple_of_le hi]
    exact foldlM_addMultiple (r.add ((p.term i).mul q)) his

/-- **A product is refused if one of its multiples is**, and otherwise it is their sum. -/
theorem mul?_eq_foldlM (p q : DensePoly) :
    p.mul? q = (List.range (p.degree + 1)).foldlM (addMultiple p q) zero := by
  by_cases h : p.degree + q.size ≤ maxWord
  · have hall : ∀ i ∈ List.range (p.degree + 1), i + q.size ≤ maxWord := by
      intro i hi
      rw [List.mem_range] at hi
      omega
    rw [mul?_of_le h, foldlM_addMultiple zero hall, mul_eq_total, total, multiples]
  · -- The last multiple is the longest, and refused whatever the others add up to.
    have hlast := addMultiple_of_lt (p := p) (Nat.lt_of_not_le h)
    rw [mul?, if_neg h, List.range_succ, List.foldlM_append]
    cases (List.range p.degree).foldlM (addMultiple p q) zero with
    | none => rfl
    | some r =>
      show none = [p.degree].foldlM (addMultiple p q) r
      rw [List.foldlM_cons, hlast]
      rfl

/-- **Shifting and scaling is multiplication by a term.** As long as it can be stored, the
shifted multiple is stored in the same way by all three products that give it; scaling
multiplies by a constant, and negating scales by minus one; the terms of a polynomial, from
the constant one to that of its degree, add up to what is stored in any order. And any
product at all is the sum of such multiples, refused if one of them is. -/
theorem shift_and_scale (c : ℚ) (e : ℕ) (p : DensePoly) (h : e + p.size ≤ maxWord) :
    (∃ q, q.coeffs = List.replicate e 0 ++ p.coeffs.map (c * ·) ∧
      Term.mul? ⟨c, e⟩ p = some q ∧ (Term.poly ⟨c, e⟩).mul? p = some q ∧
      p.mul? (Term.poly ⟨c, e⟩) = some q) ∧
    Term.mul? ⟨c, 0⟩ p = some (p.scale c) ∧
    p.negate = p.scale (-1) ∧
    (∀ is : List ℕ, is.Perm (List.range (p.degree + 1)) →
      total (is.map fun i => (p.term i).poly) = p) ∧
    ∀ q : DensePoly, p.mul? q = (List.range (p.degree + 1)).foldlM (addMultiple p q) zero := by
  have hstored : (Term.poly ⟨c, e⟩).mul? p = some (Term.mul ⟨c, e⟩ p) := by
    rw [mul?_of_le (by rwa [Term.degree_poly]), poly_mul]
  refine ⟨⟨Term.mul ⟨c, e⟩ p, rfl, if_pos h, hstored, ?_⟩, ?_, p.negate_eq_scale,
    fun is his => total_terms his, p.mul?_eq_foldlM⟩
  · rw [mul?_comm, hstored]
  · rw [scale_eq_mul]
    exact if_pos (by show 0 + p.size ≤ maxWord; omega)

/-- Multiplying `1 + 0x` by `0x^2`, and adding up its terms from the last to the first. -/
theorem shift_and_scale_zeros :
    let p := ofInts [1, 0]
    2 + p.size ≤ maxWord ∧
    (∃ q, q.coeffs = [0, 0, 0, 0] ∧ Term.mul? ⟨0, 2⟩ p = some q ∧
      (Term.poly ⟨0, 2⟩).mul? p = some q ∧ p.mul? (Term.poly ⟨0, 2⟩) = some q) ∧
    total ([1, 0].map fun i => (p.term i).poly) = p := by
  intro p
  have hsize : 2 + p.size ≤ maxWord := by decide
  obtain ⟨⟨q, hcoeffs, hproducts⟩, -, -, hterms, -⟩ := shift_and_scale 0 2 p hsize
  refine ⟨hsize, ⟨q, ?_, hproducts⟩, hterms [1, 0] (by decide)⟩
  rw [hcoeffs]
  decide +kernel

end DensePoly

end PolyExpand
