import PolyExpand.DensePoly.Text
import PolyExpand.Proofs.RationalPoly
import Mathlib.Data.List.DropRight

/-!
# Printed terms — what of a polynomial can be seen in its text

The text of a polynomial is made of its terms, and the terms are exactly the
coefficients that are not zero (`mem_terms`), from the highest power down
(`pairwise_terms`). So equal polynomials have the same text, however many zeros
they store (`terms_congr`), and adding up the terms gives the polynomial back
(`sum_terms`). The highest power is the exponent of the first term, which is also
the degree that is left when trailing zeros are not counted
(`length_significant`).
-/

namespace PolyExpand

open Polynomial

namespace DensePoly

theorem lt_size_of_coeff_ne_zero {p : DensePoly} {i : ℕ} (h : p.coeff i ≠ 0) : i < p.size := by
  by_contra hi
  have hnone : p.coeffs[i]? = none := List.getElem?_eq_none (not_lt.mp hi)
  rw [coeff, List.getD_eq_getElem?_getD, hnone] at h
  exact h rfl

theorem mem_terms {p : DensePoly} {t : Term} :
    t ∈ p.terms ↔ t.coefficient ≠ 0 ∧ p.coeff t.exponent = t.coefficient := by
  obtain ⟨c, i⟩ := t
  have hstored : c ≠ 0 → (p.coeffs[i]? = some c ↔ p.coeff i = c) := by
    intro hc
    rw [coeff, List.getD_eq_getElem?_getD]
    cases p.coeffs[i]? with
    | none => simp [hc.symm]
    | some d => simp
  rw [terms, List.mem_reverse, List.mem_map]
  constructor
  · rintro ⟨⟨d, j⟩, hmem, heq⟩
    obtain ⟨rfl, rfl⟩ : d = c ∧ j = i := by simpa using heq
    rw [List.mem_filter, List.mem_zipIdx_iff_getElem?] at hmem
    have hd : d ≠ 0 := by simpa using hmem.2
    exact ⟨hd, (hstored hd).mp hmem.1⟩
  · rintro ⟨hc, hcoeff⟩
    refine ⟨(c, i), ?_, rfl⟩
    rw [List.mem_filter, List.mem_zipIdx_iff_getElem?]
    exact ⟨(hstored hc).mpr hcoeff, by simpa using hc⟩

/-- Terms are printed from the highest power down. -/
theorem pairwise_terms (p : DensePoly) :
    p.terms.Pairwise fun t u => u.exponent < t.exponent := by
  have hindices : p.coeffs.zipIdx.Pairwise fun x y => x.2 < y.2 := by
    have hrange := List.pairwise_lt_range' (s := 0) (n := p.coeffs.length)
    rw [← List.zipIdx_map_snd 0 p.coeffs] at hrange
    exact List.pairwise_map.mp hrange
  rw [terms, List.pairwise_reverse, List.pairwise_map]
  exact hindices.filter _

/-- The first term has the highest power. -/
theorem exponent_le_of_terms_cons {p : DensePoly} {t : Term} {ts : List Term}
    (h : p.terms = t :: ts) {i : ℕ} (hi : p.coeff i ≠ 0) : i ≤ t.exponent := by
  have hmem : Term.mk (p.coeff i) i ∈ p.terms := mem_terms.mpr ⟨hi, rfl⟩
  have hpairwise := p.pairwise_terms
  rw [h] at hmem hpairwise
  rcases List.mem_cons.mp hmem with heq | hmem
  · exact le_of_eq (congrArg Term.exponent heq)
  · exact le_of_lt ((List.pairwise_cons.mp hpairwise).1 _ hmem)

theorem coeff_of_terms_cons {p : DensePoly} {t : Term} {ts : List Term}
    (h : p.terms = t :: ts) : p.coeff t.exponent ≠ 0 := by
  have hmem : t ∈ p.terms := h ▸ List.mem_cons_self ..
  obtain ⟨hne, hcoeff⟩ := mem_terms.mp hmem
  rwa [hcoeff]

theorem terms_eq_nil_iff {p : DensePoly} : p.terms = [] ↔ ∀ i, p.coeff i = 0 := by
  rw [List.eq_nil_iff_forall_not_mem]
  constructor
  · intro h i
    by_contra hi
    exact h ⟨p.coeff i, i⟩ (mem_terms.mpr ⟨hi, rfl⟩)
  · intro h t ht
    obtain ⟨hne, hcoeff⟩ := mem_terms.mp ht
    exact hne (hcoeff.symm.trans (h t.exponent))

/-- Zeros that stand last do not show in print. -/
theorem terms_congr {p q : DensePoly} (h : ∀ i, p.coeff i = q.coeff i) : p.terms = q.terms := by
  -- Both lists have the same members, and there is one way to order them.
  have hperm : p.terms.Perm q.terms := by
    refine (List.perm_ext_iff_of_nodup ?_ ?_).mpr fun t => ?_
    · exact p.pairwise_terms.imp fun hlt heq => absurd (heq ▸ hlt) (lt_irrefl _)
    · exact q.pairwise_terms.imp fun hlt heq => absurd (heq ▸ hlt) (lt_irrefl _)
    · rw [mem_terms, mem_terms, h]
  refine hperm.eq_of_pairwise (fun t u _ _ htu hut => ?_) p.pairwise_terms q.pairwise_terms
  exact absurd (lt_trans htu hut) (lt_irrefl _)

theorem text_congr {p q : DensePoly} (h : ∀ i, p.coeff i = q.coeff i) : p.text = q.text := by
  rw [text, terms_congr h, text]

/-- **The terms add up to the polynomial.** -/
theorem sum_terms (p : DensePoly) :
    (p.terms.map fun t => t.poly.toPolynomial).sum = p.toPolynomial := by
  -- The coefficients behind the first `k` ones are numbered from `k` on.
  have hfrom : ∀ (cs : List ℚ) (k : ℕ),
      (((cs.zipIdx k).filter fun x => x.1 ≠ 0).map fun x => C x.1 * X ^ x.2).sum =
        X ^ k * horner cs := by
    intro cs
    induction cs with
    | nil => exact fun k => (mul_zero _).symm
    | cons c cs ih =>
      intro k
      rw [List.zipIdx_cons, horner, mul_add, ← mul_assoc, ← pow_succ, ← ih (k + 1)]
      by_cases hc : c = 0
      · rw [List.filter_cons_of_neg (by simp [hc]), hc, map_zero, mul_zero, zero_add]
      · rw [List.filter_cons_of_pos (by simp [hc]), List.map_cons, List.sum_cons, mul_comm]
  simp only [Term.toPolynomial_poly]
  rw [terms, List.map_reverse, List.sum_reverse, List.map_map]
  refine (hfrom p.coeffs 0).trans ?_
  rw [pow_zero, one_mul, toPolynomial]

/-! ## Significant coefficients -/

theorem coeffs_eq_significant_append (p : DensePoly) :
    ∃ k, p.coeffs = p.significant ++ List.replicate k 0 := by
  have hsplit := List.rdropWhile_append_rtakeWhile (l := p.coeffs) (p := (· == 0))
  refine ⟨(p.coeffs.rtakeWhile (· == 0)).length, ?_⟩
  have hzeros : p.coeffs.rtakeWhile (· == 0) =
      List.replicate (p.coeffs.rtakeWhile (· == 0)).length 0 := by
    refine List.eq_replicate_of_mem fun c hc => ?_
    simpa using List.mem_rtakeWhile_imp hc
  rw [← hzeros]
  exact hsplit.symm

theorem getD_significant (p : DensePoly) (i : ℕ) : p.significant.getD i 0 = p.coeff i := by
  obtain ⟨k, hk⟩ := p.coeffs_eq_significant_append
  rw [coeff, hk, List.getD_eq_getElem?_getD, List.getD_eq_getElem?_getD, List.getElem?_append]
  by_cases hi : i < p.significant.length
  · rw [if_pos hi]
  · rw [if_neg hi, List.getElem?_eq_none (by omega), List.getElem?_replicate]
    by_cases hzero : i - p.significant.length < k
    · rw [if_pos hzero]
      rfl
    · rw [if_neg hzero]

theorem coeff_last_significant {p : DensePoly} (hne : p.significant ≠ []) :
    p.coeff (p.significant.length - 1) ≠ 0 := by
  have hpos := List.length_pos_iff.mpr hne
  have hlast : ¬ (p.significant.getLast hne == 0) :=
    List.rdropWhile_last_not (fun c : ℚ => c == 0) p.coeffs hne
  rw [← getD_significant, List.getD_eq_getElem?_getD, List.getElem?_eq_getElem (by omega),
    ← List.getLast_eq_getElem hne]
  simpa using hlast

/-- As many coefficients are significant as the first term says. -/
theorem length_significant {p : DensePoly} {t : Term} {ts : List Term} (h : p.terms = t :: ts) :
    p.significant.length = t.exponent + 1 := by
  have hlow : t.exponent < p.significant.length := by
    by_contra hge
    have hzero := p.getD_significant t.exponent
    rw [List.getD_eq_getElem?_getD, List.getElem?_eq_none (by omega)] at hzero
    exact coeff_of_terms_cons h hzero.symm
  have hne : p.significant ≠ [] := List.ne_nil_of_length_pos (by omega)
  have hhigh : p.significant.length - 1 ≤ t.exponent :=
    exponent_le_of_terms_cons h (coeff_last_significant hne)
  omega

theorem significant_eq_nil {p : DensePoly} (h : p.terms = []) : p.significant = [] := by
  by_contra hne
  exact coeff_last_significant hne (terms_eq_nil_iff.mp h _)

end DensePoly

end PolyExpand
