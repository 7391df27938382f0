import PolyExpand.Proofs.UniqueReading
import Mathlib.Data.List.TFAE
import Mathlib.Data.Set.Card

/-!
# Equality — one relation, seen in four ways

Polynomials with different numbers of stored zeros may be equal, so equality is a relation
of its own. It is found in four ways, each with a way of its own to leave the trailing
zeros out: by comparing coefficients with padding (`==`), by looking at every coefficient,
by cutting the zeros off (`significant`, which is also what is hashed), and by printing.
All of them agree, and so do three ways of saying that a polynomial is zero.

> `DensePoly.equality_laws`: the four relations and the three conditions are the same;
> `==` is an equivalence; and a hash set of polynomials, filled in any order and with any
> hash function, has as many members as there are classes among them.

A polynomial and its significant coefficients determine each other up to equality, so
everything about sets is told in lists of significant coefficients.
-/

namespace PolyExpand

namespace DensePoly

/-! ## The same coefficients -/

theorem significant_congr {p q : DensePoly} (h : ∀ i, p.coeff i = q.coeff i) :
    p.significant = q.significant := by
  have hterms := terms_congr h
  have hlength : p.significant.length = q.significant.length := by
    cases hp : p.terms with
    | nil => rw [significant_eq_nil hp, significant_eq_nil (hterms ▸ hp)]
    | cons t ts => rw [length_significant hp, length_significant (hterms ▸ hp)]
  refine eq_of_getD_eq hlength fun i => ?_
  rw [getD_significant, getD_significant, h]

theorem significant_inj {p q : DensePoly} (h : p.significant = q.significant) :
    ∀ i, p.coeff i = q.coeff i := by
  intro i
  rw [← getD_significant, h, getD_significant]

theorem beq_iff_significant_eq {p q : DensePoly} :
    (p == q) = true ↔ p.significant = q.significant :=
  beq_iff.trans ⟨significant_congr, significant_inj⟩

theorem isZero_iff {p : DensePoly} : p.isZero = true ↔ ∀ i, p.coeff i = 0 := by
  unfold isZero
  rw [List.all_eq_true]
  constructor
  · intro h i
    rw [coeff, List.getD_eq_getElem?_getD]
    cases hi : p.coeffs[i]? with
    | none => rfl
    | some c => simpa using h c (List.mem_of_getElem? hi)
  · intro h c hc
    obtain ⟨i, hi⟩ := List.getElem?_of_mem hc
    have hcoeff := h i
    rw [coeff, List.getD_eq_getElem?_getD, hi] at hcoeff
    simpa using hcoeff

theorem coeff_zero (i : ℕ) : zero.coeff i = 0 := by
  rw [← coeff_toPolynomial, toPolynomial_zero, Polynomial.coeff_zero]

theorem toString_inj {p q : DensePoly} : toString p = toString q ↔ p.text = q.text := by
  show String.ofList p.text = String.ofList q.text ↔ _
  exact String.ofList_inj

/-! ## Classes -/

/-- **Equality is an equivalence.** -/
theorem beq_equivalence : Equivalence fun p q : DensePoly => (p == q) = true where
  refl _ := beq_iff.mpr fun _ => rfl
  symm h := beq_iff.mpr fun i => (beq_iff.mp h i).symm
  trans h h' := beq_iff.mpr fun i => (beq_iff.mp h i).trans (beq_iff.mp h' i)

instance : EquivBEq DensePoly where
  rfl := beq_equivalence.refl _
  symm := beq_equivalence.symm
  trans := beq_equivalence.trans

/-- Polynomials up to equality. -/
def setoid : Setoid DensePoly := ⟨fun p q => (p == q) = true, beq_equivalence⟩

/-- The classes of the polynomials of a list. -/
def classes (ps : List DensePoly) : Set (Quotient setoid) :=
  {c | ∃ p ∈ ps, Quotient.mk setoid p = c}

/-! ## Hash sets -/

/-- Polynomials are hashed by their significant coefficients. -/
abbrev hashedBy (hash : List ℚ → UInt64) : Hashable DensePoly := ⟨fun p => hash p.significant⟩

/-- The polynomials of a list, put into a hash set one by one. -/
def hashSet (hash : List ℚ → UInt64) (ps : List DensePoly) :
    @Std.HashSet DensePoly instBEq (hashedBy hash) :=
  @Std.HashSet.ofList DensePoly instBEq (hashedBy hash) ps

variable {ps qs : List DensePoly}

/-- A list has a member equal to a polynomial if it has one with its significant
coefficients. -/
theorem mem_map_significant {p : DensePoly} :
    p.significant ∈ ps.map significant ↔ ps.contains p = true := by
  rw [List.contains_iff_exists_mem_beq, List.mem_map]
  constructor
  · rintro ⟨q, hq, heq⟩
    exact ⟨q, hq, beq_iff_significant_eq.mpr heq.symm⟩
  · rintro ⟨q, hq, heq⟩
    exact ⟨q, hq, (beq_iff_significant_eq.mp heq).symm⟩

/-- Lists that contain the same polynomials have the same significant coefficients. -/
theorem toFinset_significant_congr (h : ∀ p, ps.contains p = qs.contains p) :
    (ps.map significant).toFinset = (qs.map significant).toFinset := by
  ext cs
  rw [List.mem_toFinset, List.mem_toFinset]
  constructor
  · intro hcs
    obtain ⟨p, -, rfl⟩ := List.mem_map.mp hcs
    rw [mem_map_significant, ← h]
    exact mem_map_significant.mp hcs
  · intro hcs
    obtain ⟨p, -, rfl⟩ := List.mem_map.mp hcs
    rw [mem_map_significant, h]
    exact mem_map_significant.mp hcs

/-- Equal polynomials are hashed alike, because what is hashed is what they share. -/
theorem lawfulHashable (hash : List ℚ → UInt64) :
    @LawfulHashable DensePoly instBEq (hashedBy hash) :=
  @LawfulHashable.mk DensePoly instBEq (hashedBy hash) fun _ _ h =>
    congrArg hash (beq_iff_significant_eq.mp h)

/-- The members of a hash set are pairwise different, so their significant coefficients
are, and those are the ones of the list that was put in. -/
theorem size_hashSet (hash : List ℚ → UInt64) (ps : List DensePoly) :
    (hashSet hash ps).size = (ps.map significant).toFinset.card := by
  let _ := hashedBy hash
  have := lawfulHashable hash
  have hdistinct : ((hashSet hash ps).toList.map significant).Nodup := by
    refine List.pairwise_map.mpr ((Std.HashSet.distinct_toList (m := hashSet hash ps)).imp ?_)
    intro p q hne heq
    rw [beq_iff_significant_eq.mpr heq] at hne
    cases hne
  have hcontains : ∀ p, (hashSet hash ps).toList.contains p = ps.contains p := by
    intro p
    rw [Std.HashSet.contains_toList]
    exact Std.HashSet.contains_ofList
  calc (hashSet hash ps).size = (hashSet hash ps).toList.length := Std.HashSet.length_toList.symm
    _ = ((hashSet hash ps).toList.map significant).length := (List.length_map significant).symm
    _ = ((hashSet hash ps).toList.map significant).toFinset.card :=
      (List.toFinset_card_of_nodup hdistinct).symm
    _ = (ps.map significant).toFinset.card := by rw [toFinset_significant_congr hcontains]

/-- Removing repetitions leaves none. The recursion is that of `List.eraseDups`, which
goes on with what is left when the head has been removed from the tail. -/
theorem nodup_eraseDups (css : List (List ℚ)) : css.eraseDups.Nodup := by
  match css with
  | [] => exact List.nodup_nil
  | cs :: css =>
    rw [List.eraseDups_cons]
    refine List.nodup_cons.mpr ⟨fun hmem => ?_, nodup_eraseDups _⟩
    have hkept := (List.mem_filter.mp (List.mem_eraseDups.mp hmem)).2
    simp at hkept
termination_by css.length
decreasing_by exact Nat.lt_succ_of_le (List.length_filter_le _ _)

theorem countDistinct_eq_card (ps : List DensePoly) :
    countDistinct ps = (ps.map significant).toFinset.card := by
  unfold countDistinct
  rw [← List.toFinset_card_of_nodup (nodup_eraseDups _)]
  congr 1
  ext cs
  rw [List.mem_toFinset, List.mem_toFinset, List.mem_eraseDups]

/-- The significant coefficients that the members of a class share. -/
def significantOf : Quotient setoid → List ℚ :=
  Quotient.lift significant fun _ _ h => beq_iff_significant_eq.mp h

theorem significantOf_injective : Function.Injective significantOf := by
  intro c d
  induction c using Quotient.inductionOn with
  | h p =>
    induction d using Quotient.inductionOn with
    | h q => exact fun h => Quotient.sound (beq_iff_significant_eq.mpr h)

/-- There are as many classes among polynomials as lists of significant coefficients. -/
theorem ncard_classes (ps : List DensePoly) :
    (classes ps).ncard = (ps.map significant).toFinset.card := by
  have himage : significantOf '' classes ps = ((ps.map significant).toFinset : Set _) := by
    ext cs
    rw [Finset.mem_coe, List.mem_toFinset, List.mem_map]
    constructor
    · rintro ⟨_, ⟨p, hp, rfl⟩, rfl⟩
      exact ⟨p, hp, rfl⟩
    · rintro ⟨p, hp, rfl⟩
      exact ⟨_, ⟨p, hp, rfl⟩, rfl⟩
  rw [← Set.ncard_image_of_injective _ significantOf_injective, himage, Set.ncard_coe_finset]

/-! ## Everything at once -/

/-- Equality, the coefficients, what is hashed and what is printed. -/
theorem equality_tfae (p q : DensePoly) :
    [(p == q) = true, ∀ i, p.coeff i = q.coeff i, p.significant = q.significant,
      toString p = toString q].TFAE := by
  tfae_have 1 ↔ 2 := beq_iff
  tfae_have 2 ↔ 3 := ⟨significant_congr, significant_inj⟩
  tfae_have 2 → 4 := fun h => toString_inj.mpr (text_congr h)
  tfae_have 4 → 2 := fun h => text_inj (toString_inj.mp h)
  tfae_finish

theorem toString_eq_empty_iff {p : DensePoly} : toString p = "" ↔ p.text = [] := by
  show String.ofList p.text = String.ofList [] ↔ _
  exact String.ofList_inj

/-- Being zero, being equal to zero and being printed as nothing. -/
theorem zero_tfae (p : DensePoly) :
    [p.isZero = true, (p == zero) = true, toString p = ""].TFAE := by
  tfae_have 1 ↔ 2 := by
    rw [isZero_iff, beq_iff]
    exact forall_congr' fun i => by rw [coeff_zero]
  tfae_have 1 ↔ 3 := by
    rw [isZero_iff, toString_eq_empty_iff, text_eq_nil_iff, terms_eq_nil_iff]
  tfae_finish

/-- **Equality, hashing and printing mean the same.** Two polynomials are equal if they
have the same coefficients, if the same is hashed of them and if they are printed alike,
each of which implies the others; a polynomial that has only zeros is equal to zero and is
printed as nothing. Equality is an equivalence, and a hash set of polynomials, with any
hash function and whatever the order in which they were put in, has as many members as
there are classes among them. -/
theorem equality_laws :
    (∀ p q : DensePoly, [(p == q) = true, ∀ i, p.coeff i = q.coeff i,
      p.significant = q.significant, toString p = toString q].TFAE) ∧
    (∀ p : DensePoly, [p.isZero = true, (p == zero) = true, toString p = ""].TFAE) ∧
    (Equivalence fun p q : DensePoly => (p == q) = true) ∧
    ∀ (hash : List ℚ → UInt64) (ps qs : List DensePoly), ps.Perm qs →
      (hashSet hash qs).size = (classes ps).ncard ∧
      countDistinct qs = (classes ps).ncard := by
  refine ⟨equality_tfae, zero_tfae, beq_equivalence, fun hash ps qs hperm => ?_⟩
  have hcard : (ps.map significant).toFinset = (qs.map significant).toFinset :=
    List.toFinset_eq_of_perm _ _ (hperm.map significant)
  rw [size_hashSet, countDistinct_eq_card, ncard_classes, hcard]
  exact ⟨rfl, rfl⟩

/-- Of `1 + 2x`, zero and `1 + 2x` with a zero stored behind it, all hashed to one value,
a hash set keeps two. -/
theorem equality_laws_run :
    [ofInts [1, 2, 0], ofInts [1, 2], zero].Perm [ofInts [1, 2], zero, ofInts [1, 2, 0]] ∧
    (hashSet (fun _ => 0) [ofInts [1, 2], zero, ofInts [1, 2, 0]]).size =
      (classes [ofInts [1, 2, 0], ofInts [1, 2], zero]).ncard ∧
    countDistinct [ofInts [1, 2], zero, ofInts [1, 2, 0]] = 2 := by
  have hperm : [ofInts [1, 2, 0], ofInts [1, 2], zero].Perm
      [ofInts [1, 2], zero, ofInts [1, 2, 0]] := by decide +kernel
  have hsize := (equality_laws.2.2.2 (fun _ => 0) _ _ hperm).1
  exact ⟨hperm, hsize, by decide +kernel⟩

end DensePoly

end PolyExpand
