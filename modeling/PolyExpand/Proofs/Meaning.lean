import PolyExpand.Proofs.Interpretation
import PolyExpand.Proofs.RationalPoly
import Mathlib.Algebra.BigOperators.Group.List.Basic
import Mathlib.Algebra.Order.BigOperators.Group.List
import Mathlib.Data.List.MinMax

/-!
# Meaning — what an evaluation ends with, said without evaluating

Three interpretations of a tree foresee the outcome of its evaluation.

* `Node.strays`: the markers that stand where only operands may stand, from left
  to right. The first of them is the fault that the evaluation ends with.
* `Node.formalDegree`: the degree that the shape of the tree gives, where sums
  take the largest and products add up, and nothing ever cancels.
* `Node.denote`: the element of `ℚ[X]` that the tree stands for.

> `evaluate_meets`: if the formal degree can be stored, a tree with strays fails
> with the first of them, and any other tree evaluates to a polynomial with
> exactly the formal degree that denotes what the tree denotes.

Degrees only grow from the leaves to the root, so one bound at the root is enough
to rule out an overflow in every product below it.
-/

namespace PolyExpand

open Polynomial

namespace Interpretation

/-- The markers that no group consumes, from left to right. -/
def strays : Interpretation (List Marker) where
  negOne := []
  product := List.flatten
  sum := List.flatten
  marker m := [m]
  number _ := []
  power _ := []

/-- Degrees, as the shape of a tree gives them. -/
def degree : Interpretation Nat where
  negOne := 0
  product := List.sum
  sum ds := ds.foldr max 0
  marker _ := 0
  number _ := 0
  power e := e

/-- Polynomials over the rationals. A bare marker denotes nothing, and counts as
zero. -/
noncomputable def denotation : Interpretation ℚ[X] where
  negOne := -1
  product := List.prod
  sum := List.sum
  marker _ := 0
  number := C
  power e := X ^ e

end Interpretation

namespace Node

/-- The markers of a tree that stand where only operands may stand. -/
def strays (n : Node) : List Marker := Interpretation.strays.of n

/-- The degree of a tree, if nothing cancels. -/
def formalDegree (n : Node) : Nat := Interpretation.degree.of n

/-- The polynomial that a tree stands for. -/
noncomputable def denote (n : Node) : ℚ[X] := Interpretation.denotation.of n

/-- Resolution does not change the degree. -/
theorem formalDegree_resolve (n : Node) : n.resolve.formalDegree = n.formalDegree :=
  Interpretation.degree.of_resolve rfl n

end Node

/-! ## Folding values -/

/-- What is foreseen of a value: strays, degree and polynomial. -/
abbrev Forecast := List Marker × Nat × ℚ[X]

/-- A value is as foreseen. -/
def Value.Meets (v : Value) : Forecast → Prop
  | ([], d, x) => ∃ p, v = .ok p ∧ p.degree = d ∧ p.toPolynomial = x
  | (m :: _, _, _) => v = .error (.bareMarker m)

/-- A deferred value, and what is foreseen of it. -/
abbrev Foreseen := DeferredValue × Forecast

/-- Adding up from the left: the strays come one after the other, the degree is
the largest one met so far, and the polynomials add up. -/
theorem foldlM_plus_meets : ∀ (fs : List Foreseen) (p : DensePoly),
    (∀ f ∈ fs, Value.Meets (f.1 ()) f.2) →
    Value.Meets ((fs.map Prod.fst).foldlM (fun p v => Value.plus p (v ())) p)
      ((fs.map fun f => f.2.1).flatten, (fs.map fun f => f.2.2.1).foldr max p.degree,
        p.toPolynomial + (fs.map fun f => f.2.2.2).sum)
  | [], p, _ => ⟨p, rfl, rfl, by simp⟩
  | (v, ms, d, x) :: fs, p, h => by
    have hv : Value.Meets (v ()) (ms, d, x) := h _ (List.mem_cons_self ..)
    have hfs : ∀ f ∈ fs, Value.Meets (f.1 ()) f.2 := fun f hf => h f (List.mem_cons_of_mem _ hf)
    cases ms with
    | cons m ms =>
      -- The first stray ends the fold, whatever comes behind it.
      have hfault : v () = .error (.bareMarker m) := hv
      simp only [List.map_cons, List.foldlM_cons, Value.plus, hfault]
      rfl
    | nil =>
      obtain ⟨q, hq, hdegree, hpoly⟩ := hv
      have ih := foldlM_plus_meets fs (p.add q) hfs
      -- The fold takes the maximum from the left, the forecast from the right.
      have hmax : (fs.map fun f => f.2.2.1).foldr max (p.add q).degree =
          max d ((fs.map fun f => f.2.2.1).foldr max p.degree) := by
        rw [DensePoly.degree_add, hdegree, List.foldr_assoc, max_comm]
      rw [hmax, DensePoly.toPolynomial_add, hpoly, add_assoc] at ih
      simp only [List.map_cons, List.foldlM_cons, Value.plus, hq, List.flatten_cons,
        List.nil_append, List.foldr_cons, List.sum_cons]
      exact ih

/-- Multiplying from the left: degrees add up, and while their sum can be stored
no product is refused. -/
theorem foldlM_times_meets : ∀ (fs : List Foreseen) (p : DensePoly),
    p.degree + (fs.map fun f => f.2.2.1).sum < maxWord →
    (∀ f ∈ fs, Value.Meets (f.1 ()) f.2) →
    Value.Meets ((fs.map Prod.fst).foldlM (fun p v => Value.times p (v ())) p)
      ((fs.map fun f => f.2.1).flatten, p.degree + (fs.map fun f => f.2.2.1).sum,
        p.toPolynomial * (fs.map fun f => f.2.2.2).prod)
  | [], p, _, _ => ⟨p, rfl, rfl, by simp⟩
  | (v, ms, d, x) :: fs, p, hbound, h => by
    have hv : Value.Meets (v ()) (ms, d, x) := h _ (List.mem_cons_self ..)
    have hfs : ∀ f ∈ fs, Value.Meets (f.1 ()) f.2 := fun f hf => h f (List.mem_cons_of_mem _ hf)
    cases ms with
    | cons m ms =>
      have hfault : v () = .error (.bareMarker m) := hv
      simp only [List.map_cons, List.foldlM_cons, Value.times, hfault]
      rfl
    | nil =>
      obtain ⟨q, hq, hdegree, hpoly⟩ := hv
      simp only [List.map_cons, List.sum_cons, ← add_assoc] at hbound
      -- Degrees only add up, so the bound on all factors is one on these two.
      have hstored : p.mul? q = some (p.mul q) := by
        have hsize := q.size_eq_degree_add_one
        exact if_pos (by omega)
      have hmul : (p.mul q).degree = p.degree + d := by rw [DensePoly.degree_mul, hdegree]
      have ih := foldlM_times_meets fs (p.mul q) (by rw [hmul]; exact hbound) hfs
      rw [hmul, DensePoly.toPolynomial_mul, hpoly, mul_assoc] at ih
      simp only [List.map_cons, List.foldlM_cons, Value.times, hq, List.flatten_cons,
        List.nil_append, List.sum_cons, List.prod_cons, ← add_assoc]
      simp only [bind, Except.bind, hstored]
      exact ih

/-! ## Evaluation -/

/-- Strays, degree and polynomial of a tree at once. -/
noncomputable def Interpretation.forecast : Interpretation Forecast :=
  strays.pair (degree.pair denotation)

theorem Interpretation.forecast_of (n : Node) :
    forecast.of n = (n.strays, n.formalDegree, n.denote) := by
  rw [forecast, pair_of, pair_of]
  rfl

theorem foreseen_product (fs : List Foreseen) :
    (Interpretation.deferred.pair Interpretation.forecast).product fs =
      (fun _ => DeferredValue.product (fs.map Prod.fst), (fs.map fun f => f.2.1).flatten,
        (fs.map fun f => f.2.2.1).sum, (fs.map fun f => f.2.2.2).prod) := by
  simp only [Interpretation.pair, Assembly.pair, Interpretation.forecast, List.map_map]
  rfl

theorem foreseen_sum (fs : List Foreseen) :
    (Interpretation.deferred.pair Interpretation.forecast).sum fs =
      (fun _ => DeferredValue.sum (fs.map Prod.fst), (fs.map fun f => f.2.1).flatten,
        (fs.map fun f => f.2.2.1).foldr max 0, (fs.map fun f => f.2.2.2).sum) := by
  simp only [Interpretation.pair, Assembly.pair, Interpretation.forecast, List.map_map]
  rfl

/-- **Evaluation is foreseen.** As long as the formal degree can be stored, a
tree with strays fails with the first of them, and any other tree has a value:
of exactly the formal degree, and equal to what the tree denotes. -/
theorem evaluate_meets (n : Node) (h : n.formalDegree < maxWord) :
    Value.Meets n.evaluate (n.strays, n.formalDegree, n.denote) := by
  -- The bound belongs to the property: below the root there is another degree.
  let P : Foreseen → Prop := fun f => f.2.2.1 < maxWord → Value.Meets (f.1 ()) f.2
  have hall : P ((Interpretation.deferred.pair Interpretation.forecast).of n) := by
    refine Interpretation.of_closed _ (fun m _ => rfl) ?_ ?_ ?_ ?_ ?_ n
    · intro q _
      exact ⟨_, rfl, DensePoly.degree_constant q, DensePoly.toPolynomial_constant q⟩
    · intro e _
      refine ⟨_, rfl, Term.degree_poly _, ?_⟩
      rw [Term.toPolynomial_poly, C_1, one_mul]
      rfl
    · intro _
      refine ⟨_, rfl, rfl, ?_⟩
      rw [DensePoly.toPolynomial_constant, C_neg, C_1]
      rfl
    · intro fs hfs
      rw [foreseen_product]
      intro hbound
      -- No factor has a larger degree than the product.
      have hfactor : ∀ f ∈ fs, f.2.2.1 < maxWord := fun f hf =>
        lt_of_le_of_lt (List.le_sum_of_mem (List.mem_map.mpr ⟨f, hf, rfl⟩)) hbound
      have hmeets := foldlM_times_meets fs .one (by simpa using hbound)
        fun f hf => hfs f hf (hfactor f hf)
      simpa [DeferredValue.product] using hmeets
    · intro fs hfs
      rw [foreseen_sum]
      intro hbound
      -- No term has a larger degree than the sum.
      have hterm : ∀ f ∈ fs, f.2.2.1 < maxWord := fun f hf =>
        lt_of_le_of_lt (List.le_max_of_le' 0 (List.mem_map.mpr ⟨f, hf, rfl⟩) le_rfl) hbound
      have hmeets := foldlM_plus_meets fs .zero fun f hf => hfs f hf (hterm f hf)
      simpa [DeferredValue.sum] using hmeets
  rw [Interpretation.pair_of, Interpretation.forecast_of, Interpretation.deferred_of] at hall
  exact hall h

theorem evaluate_of_strays_eq_nil {n : Node} (hstrays : n.strays = [])
    (h : n.formalDegree < maxWord) :
    ∃ p, n.evaluate = .ok p ∧ p.degree = n.formalDegree ∧ p.toPolynomial = n.denote := by
  have hmeets := evaluate_meets n h
  rwa [hstrays] at hmeets

theorem evaluate_of_strays_eq_cons {n : Node} {m : Marker} {ms : List Marker}
    (hstrays : n.strays = m :: ms) (h : n.formalDegree < maxWord) :
    n.evaluate = .error (.bareMarker m) := by
  have hmeets := evaluate_meets n h
  rwa [hstrays] at hmeets

end PolyExpand
