import PolyExpand.Proofs.Separation

/-!
# Double negation — two minuses are worth a plus

Two `-`s in a row leave two factors of minus one in front of what they negate, and a `+`
leaves none, so resolution makes different trees of them. They have the same value.

What a `+` does depends on what stands before it. Behind a `-` or a `*` it is a unary
plus, and left out; the two `-`s then join the region that is open. Elsewhere it separates
terms, and so does the first of the two `-`s. Either way the factors of minus one come to
stand in front of the same list of factors, and that list is not empty if an operand
follows (`exists_regionFactors_cons`). Lists are `Alike` if they make the same term
wherever they stand in a region, and the two lists are.

> `Node.evaluate_double_minus`: two `-`s and a `+` in the same place of a sequence give
> equal values, if there is an operand behind them.

Without an operand the two `-`s are left dangling, and the first of them counts as minus
one.
-/

namespace PolyExpand

variable {α : Type}

open Polynomial

/-! ## Factors behind a sign -/

/-- What awaits an operand joins the region that follows it. -/
theorem regionFactors_append_awaiting (negOne : α) {qs : List (Piece α)} {fs : List α}
    {rest : List (List α)} (h : regionFactors negOne qs = fs :: rest) (ps : List (Piece α))
    (hps : ∀ p ∈ ps, p.awaitsOperand = true) :
    regionFactors negOne (ps ++ qs) = (ps.flatMap (ownFactors negOne) ++ fs) :: rest := by
  induction ps with
  | nil => exact h
  | cons p ps ih =>
    obtain ⟨hp, hps⟩ := List.forall_mem_cons.mp hps
    have ih := ih hps
    rw [List.cons_append, List.flatMap_cons, List.append_assoc]
    cases hfollow : ps ++ qs with
    | nil =>
      rw [hfollow] at ih
      cases ih
    | cons q follow =>
      rw [hfollow] at ih
      rw [regionFactors_of_binds negOne (binds_of_awaitsOperand hp q), ih]
      rfl

/-- Behind a sign that awaits an operand the first region has a factor, if there is an
operand at all: nothing that comes before it ends the region. -/
theorem exists_regionFactors_cons (negOne : α) :
    ∀ ps : List (Piece α), (∃ a, Piece.operand a ∈ ps) →
      ∃ f fs rest, regionFactors negOne (dropUnaryPlusFrom true ps) = (f :: fs) :: rest
  | [], h => by simp at h
  | .operand a :: ps, _ => by
    show ∃ f fs rest, regionFactors negOne (.operand a :: dropUnaryPlusFrom false ps) = _
    cases dropUnaryPlusFrom false ps with
    | nil => exact ⟨a, [], [], rfl⟩
    | cons q qs =>
      by_cases hbinds : Piece.binds (.operand a) q = true
      · obtain ⟨fs, rest, hrest⟩ :=
          List.exists_cons_of_ne_nil (regionFactors_ne_nil negOne q qs)
        rw [regionFactors_of_binds negOne hbinds, hrest]
        exact ⟨a, fs, rest, rfl⟩
      · rw [regionFactors_of_not_binds negOne (Bool.eq_false_iff.mpr hbinds)]
        exact ⟨a, [], _, rfl⟩
  | .marker .plus :: ps, h => exists_regionFactors_cons negOne ps (by simpa using h)
  | .marker .minus :: ps, h => by
    obtain ⟨f, fs, rest, hrest⟩ := exists_regionFactors_cons negOne ps (by simpa using h)
    exact ⟨negOne, f :: fs, rest,
      regionFactors_append_awaiting negOne hrest [.marker .minus] (by simp [Piece.awaitsOperand])⟩
  | .marker .times :: ps, h => by
    obtain ⟨f, fs, rest, hrest⟩ := exists_regionFactors_cons negOne ps (by simpa using h)
    exact ⟨f, fs, rest,
      regionFactors_append_awaiting negOne hrest [.marker .times] (by simp [Piece.awaitsOperand])⟩

namespace Assembly

variable (A : Assembly α)

/-- Lists of factors that make the same term, with whatever factors in front of them. -/
def Alike (fs gs : List α) : Prop := ∀ front, A.term? (front ++ fs) = A.term? (front ++ gs)

theorem regionTerms_congr {ps qs : List (Piece α)}
    (h : List.Forall₂ A.Alike (regionFactors A.negOne ps) (regionFactors A.negOne qs)) :
    A.regionTerms ps = A.regionTerms qs := by
  rw [regionTerms_eq, regionTerms_eq]
  generalize regionFactors A.negOne ps = lists at h ⊢
  generalize regionFactors A.negOne qs = lists' at h ⊢
  induction h with
  | nil => rfl
  | @cons fs gs _ _ hfirst _ ih =>
    have hterm : A.term? fs = A.term? gs := hfirst []
    rw [List.filterMap_cons, List.filterMap_cons, ih, hterm]

/-- Where the factors of two rests are alike, so are the terms of the whole sequences. -/
theorem regionTerms_append_congr {qs qs' : List (Piece α)} (hhead : qs.head? = qs'.head?)
    (h : List.Forall₂ A.Alike (regionFactors A.negOne qs) (regionFactors A.negOne qs'))
    (ps : List (Piece α)) : A.regionTerms (ps ++ qs) = A.regionTerms (ps ++ qs') :=
  A.regionTerms_congr <| regionFactors_append_forall₂ A.negOne (fun _ _ => rfl)
    (fun front fs gs hfs more => by simpa using hfs (more ++ front)) hhead h ps

/-- Pluses at the front are left out behind a sign, and add no term elsewhere. -/
theorem regionTerms_dropUnaryPlusFrom_true : ∀ ps : List (Piece α),
    A.regionTerms (dropUnaryPlusFrom true ps) = A.terms ps
  | [] => rfl
  | .marker .plus :: ps => by
    rw [A.terms_plus_cons]
    exact regionTerms_dropUnaryPlusFrom_true ps
  | .marker .minus :: _ | .marker .times :: _ | .operand _ :: _ => rfl

end Assembly

/-- Behind what is not closed, an operand is awaited: of a sequence that goes on there, a
`-` or a `*` is kept, and then whatever is no unary plus behind such a sign. -/
theorem Node.exists_dropUnaryPlus_of_not_closed (f : Node → α) {as : List Node} (h : ¬ Closed as) :
    ∃ (kept : List (Piece α)) (m : Marker), (Piece.marker m : Piece α).awaitsOperand = true ∧
      ∀ bs, dropUnaryPlus (piecesWith f (as ++ bs)) =
        kept ++ .marker m :: dropUnaryPlusFrom true (piecesWith f bs) := by
  obtain ⟨c, hlast, hc⟩ : ∃ c ∈ (withoutUnaryPlus as).getLast?,
      ¬ (c ≠ marker .minus ∧ c ≠ marker .times) := by
    simpa only [Closed, not_forall, exists_prop] using h
  obtain ⟨m, rfl, hm⟩ : ∃ m, c = marker m ∧ (m = .minus ∨ m = .times) := by
    rcases not_and_or.mp hc with hminus | htimes
    · exact ⟨.minus, not_ne_iff.mp hminus, Or.inl rfl⟩
    · exact ⟨.times, not_ne_iff.mp htimes, Or.inr rfl⟩
  obtain ⟨before, hbefore⟩ := List.getLast?_eq_some_iff.mp hlast
  have hpiece : (Piece.marker m : Piece α).awaitsOperand = true := by
    rcases hm with rfl | rfl <;> rfl
  have hnode : (marker m).awaitsOperand = true := by
    rcases hm with rfl | rfl <;> rfl
  refine ⟨piecesWith f before, m, hpiece, fun bs => ?_⟩
  have hkept : dropUnaryPlus (piecesWith f as) = piecesWith f before ++ [.marker m] := by
    rw [dropUnaryPlus_piecesWith, hbefore, piecesWith_append]
    rfl
  rw [dropUnaryPlus_piecesWith_append, hlast, Option.any_some, hnode, hkept, List.append_assoc]
  rfl

/-! ## Two minuses and a plus -/

namespace Interpretation

/-- One factor denotes itself, and several denote their product. -/
theorem denotation_term? {fs : List ℚ[X]} (h : fs ≠ []) : denotation.term? fs = some fs.prod := by
  rcases fs with _ | ⟨f, _ | ⟨g, fs⟩⟩
  · exact absurd rfl h
  · rw [List.prod_singleton]
    rfl
  · rfl

/-- Two factors of minus one may be left out, if any other factor stays. -/
theorem denotation_alike (front : List ℚ[X]) {fs : List ℚ[X]} (h : fs ≠ []) :
    denotation.Alike (front ++ denotation.negOne :: denotation.negOne :: fs) (front ++ fs) := by
  intro more
  have hnegOne : denotation.negOne * denotation.negOne = 1 := by
    show (-1 : ℚ[X]) * -1 = 1
    ring
  rw [← List.append_assoc, ← List.append_assoc, denotation_term? (by simp),
    denotation_term? (by simp [h]), List.prod_append, List.prod_cons, List.prod_cons,
    ← mul_assoc denotation.negOne, hnegOne, one_mul, ← List.prod_append]

/-- **Two minuses make no difference** to the region that they open, or that a sign in
front of them has opened, if there is an operand behind them. -/
theorem alike_minuses {ps : List (Piece ℚ[X])} (hoperand : ∃ a, Piece.operand a ∈ ps)
    (signs : List (Piece ℚ[X])) (hsigns : ∀ p ∈ signs, p.awaitsOperand = true) :
    List.Forall₂ denotation.Alike
      (regionFactors denotation.negOne
        (signs ++ .marker .minus :: .marker .minus :: dropUnaryPlusFrom true ps))
      (regionFactors denotation.negOne (signs ++ dropUnaryPlusFrom true ps)) := by
  obtain ⟨f, fs, rest, hrest⟩ := exists_regionFactors_cons denotation.negOne ps hoperand
  have hminuses : regionFactors denotation.negOne
      (.marker .minus :: .marker .minus :: dropUnaryPlusFrom true ps) =
        (Interpretation.denotation.negOne :: denotation.negOne :: f :: fs) :: rest :=
    regionFactors_append_awaiting denotation.negOne hrest [.marker .minus, .marker .minus]
      (by simp [Piece.awaitsOperand])
  rw [regionFactors_append_awaiting denotation.negOne hminuses signs hsigns,
    regionFactors_append_awaiting denotation.negOne hrest signs hsigns]
  exact .cons (denotation_alike _ (List.cons_ne_nil f fs))
    (List.forall₂_same.mpr fun _ _ _ => rfl)

theorem denotation_terms_double_minus (as : List Node) {bs : List Node}
    (hoperand : ∃ b ∈ bs, b.isMarker = false) :
    denotation.terms (Node.piecesWith denotation.of (as ++ .marker .minus :: .marker .minus :: bs)) =
      denotation.terms (Node.piecesWith denotation.of (as ++ .marker .plus :: bs)) := by
  have hpieces : ∃ a, Piece.operand a ∈ Node.piecesWith denotation.of bs := by
    obtain ⟨b, hb, hmarker⟩ := hoperand
    exact ⟨_, Node.operand_mem_piecesWith.mpr ⟨b, hb, hmarker, rfl⟩⟩
  have hminuses : Node.piecesWith denotation.of (.marker .minus :: .marker .minus :: bs) =
      .marker .minus :: .marker .minus :: Node.piecesWith denotation.of bs := rfl
  have hplus : Node.piecesWith denotation.of (.marker .plus :: bs) =
      .marker .plus :: Node.piecesWith denotation.of bs := rfl
  by_cases hclosed : Node.Closed as
  · -- The first `-` and the `+` start a new term, and only that term differs.
    rw [Assembly.terms_append_sign _ _ hclosed (by decide),
      Assembly.terms_append_sign _ _ hclosed (by decide), hminuses, hplus,
      Assembly.terms_plus_cons, ← denotation.regionTerms_dropUnaryPlusFrom_true
        (Node.piecesWith denotation.of bs)]
    exact congrArg _ <| denotation.regionTerms_congr (alike_minuses hpieces [] (by simp))
  · -- The two `-`s join the open region, and the `+` is left out.
    obtain ⟨kept, m, hm, hdrop⟩ :=
      Node.exists_dropUnaryPlus_of_not_closed denotation.of hclosed
    rw [Assembly.terms_eq, Assembly.terms_eq, hdrop, hdrop, hminuses, hplus]
    apply denotation.regionTerms_append_congr
    · rfl
    · exact alike_minuses hpieces [.marker m] (by simpa using hm)

end Interpretation

namespace Node

/-- **Two minuses are worth a plus**, wherever they stand in a sequence and whatever is
around them, if there is an operand behind them. -/
theorem evaluate_double_minus {as bs : List Node} (h : Expandable (as ++ bs))
    (hoperand : ∃ b ∈ bs, b.isMarker = false) :
    ∃ p q, (resolve (group (as ++ [marker .minus, marker .minus] ++ bs))).evaluate = .ok p ∧
      (resolve (group (as ++ [marker .plus] ++ bs))).evaluate = .ok q ∧ (p == q) = true := by
  rw [List.append_assoc, List.append_assoc]
  obtain ⟨p, hp, hpoly⟩ :=
    (Expandable.insert as (Expandable.insert as h .minus) .minus).exists_evaluate
  obtain ⟨q, hq, hqpoly⟩ := (Expandable.insert as h .plus).exists_evaluate
  refine ⟨p, q, hp, hq, DensePoly.beq_iff_toPolynomial_eq.mpr ?_⟩
  rw [hpoly, hqpoly, denote_group, denote_group]
  exact congrArg List.sum (Interpretation.denotation_terms_double_minus as hoperand)

/-- Within a run of signs behind a `*`, in front of a `+` that is left out only behind the
two minuses, and with a `-` that is left dangling: both are worth `-x * (2 + x)`. -/
theorem evaluate_double_minus_run :
    let p := DensePoly.ofInts [0, -2, -1]
    (resolve (group [power 1, marker .times, marker .plus, marker .minus, marker .minus,
        marker .plus, marker .minus, group [number 2, marker .plus, power 1],
        marker .minus])).evaluate = .ok p ∧
      ∃ q, (resolve (group [power 1, marker .times, marker .plus, marker .plus, marker .plus,
        marker .minus, group [number 2, marker .plus, power 1], marker .minus])).evaluate = .ok q ∧
      (p == q) = true := by
  intro p
  let as := [power 1, marker .times, marker .plus]
  let bs := [marker .plus, marker .minus, group [number 2, marker .plus, power 1], marker .minus]
  have hgroups : ∀ c ∈ as ++ bs, c.MarkersInGroups := by
    unfold MarkersInGroups
    decide +kernel
  have hexpandable : Expandable (as ++ bs) := ⟨hgroups, by decide +kernel⟩
  obtain ⟨p', q, hp, hq, hequal⟩ := evaluate_double_minus hexpandable
    ⟨group [number 2, marker .plus, power 1], by simp [bs], rfl⟩
  obtain rfl : p' = p := Except.ok.inj (hp.symm.trans (by decide +kernel))
  exact ⟨hp, q, hq, hequal⟩

end Node

end PolyExpand
