import PolyExpand.Proofs.RegionFactors
import PolyExpand.Proofs.Safety
import PolyExpand.Proofs.UnaryPlus

/-!
# Separation — what `+` and `-` keep apart

A `+` or a `-` behind something complete starts a new term, and then neither side sees
the other: what resolution makes of the whole is what it makes of the two sides, one
behind the other (`Assembly.terms_append_sign`). Complete is everything that awaits no
operand (`Closed`), however malformed it is otherwise. So the value of the whole is the
sum of two values, with the sign counted to the right side, where a `+` adds nothing.

> `Node.evaluate_separated`: a sign behind a closed sequence adds two values up, a `+`
> in front of a sequence is worth nothing, and closed sequences with a `+` between
> each two may be put into any order.

Values are compared by the polynomials that the trees denote. That is possible where
nothing goes wrong in an evaluation (`Expandable`): no sum and no product has a bare
marker below it, and the exponents are small enough for every product to be stored.
-/

namespace PolyExpand

variable {α : Type}

open Polynomial

namespace Node

/-! ## Sequences that can be expanded -/

theorem markersInGroups_group {cs : List Node} (h : ∀ c ∈ cs, c.MarkersInGroups) :
    (group cs).MarkersInGroups :=
  forall_subtrees.mpr ⟨fun hcompound => absurd hcompound (by simp [isCompound]), h⟩

theorem markersInGroups_marker (m : Marker) : (marker m).MarkersInGroups := by
  intro s hs hcompound
  obtain rfl := List.mem_singleton.mp hs
  exact absurd hcompound (by simp [isCompound])

/-- Nothing in a sequence stands in the way of its evaluation. -/
structure Expandable (cs : List Node) : Prop where
  markers : ∀ c ∈ cs, c.MarkersInGroups
  bounded : (cs.flatMap exponents).sum ≤ 2 ^ 64 - 2

theorem Expandable.exists_evaluate {cs : List Node} (h : Expandable cs) :
    ∃ p, (resolve (group cs)).evaluate = .ok p ∧ p.toPolynomial = (group cs).denote := by
  have hsum := h.bounded
  rw [← exponents_group] at hsum
  obtain ⟨p, hp, -, hpoly⟩ := evaluate_of_strays_eq_nil
    ((markersInGroups_group h.markers).strays_eq rfl) (formalDegree_lt_of_sum_le hsum)
  exact ⟨p, (evaluate_resolve _).trans hp, hpoly⟩

theorem Expandable.of_append {as bs : List Node} (h : Expandable (as ++ bs)) :
    Expandable as ∧ Expandable bs := by
  obtain ⟨hmarkers, hsum⟩ := h
  obtain ⟨has, hbs⟩ := List.forall_mem_append.mp hmarkers
  rw [List.flatMap_append, List.sum_append] at hsum
  exact ⟨⟨has, by omega⟩, ⟨hbs, by omega⟩⟩

/-- Markers may be put into a sequence anywhere. -/
theorem Expandable.insert (as : List Node) {bs : List Node} (h : Expandable (as ++ bs)) (m : Marker) :
    Expandable (as ++ marker m :: bs) := by
  obtain ⟨hmarkers, hsum⟩ := h
  obtain ⟨has, hbs⟩ := List.forall_mem_append.mp hmarkers
  refine ⟨List.forall_mem_append.mpr ⟨has, List.forall_mem_cons.mpr
    ⟨markersInGroups_marker m, hbs⟩⟩, ?_⟩
  rw [List.flatMap_append] at hsum ⊢
  exact hsum

/-! ## Two sides -/

/-- No operand is awaited behind a sequence: the last of its members that is no unary
`+` is neither a `-` nor a `*`. -/
def Closed (cs : List Node) : Prop :=
  ∀ c ∈ (withoutUnaryPlus cs).getLast?, c ≠ marker .minus ∧ c ≠ marker .times

theorem Closed.awaitsOperand_eq {cs : List Node} (h : Closed cs) :
    ∀ c ∈ (withoutUnaryPlus cs).getLast?, c.awaitsOperand = false := by
  intro c hc
  obtain ⟨hminus, htimes⟩ := h c hc
  cases c with
  | marker m =>
    cases m with
    | plus => rfl
    | minus => exact absurd rfl hminus
    | times => exact absurd rfl htimes
  | _ => rfl

theorem Closed.not_any_awaitsOperand {cs : List Node} (h : Closed cs) :
    (withoutUnaryPlus cs).getLast?.any awaitsOperand = false := by
  have hlast := h.awaitsOperand_eq
  cases hcase : (withoutUnaryPlus cs).getLast? with
  | none => rfl
  | some c => exact hlast c hcase

end Node

/-- Behind what awaits nothing, a `+` or a `-` starts a new region. -/
theorem binds_sign {p : Piece α} (hp : p.awaitsOperand = false) {m : Marker} (hm : m ≠ .times) :
    Piece.binds p (.marker m) = false := by
  rcases p with n | a
  · cases n with
    | plus =>
      cases m with
      | times => exact absurd rfl hm
      | plus | minus => rfl
    | minus | times => cases hp
  · cases m with
    | times => exact absurd rfl hm
    | plus | minus => rfl

/-- **A sign behind a closed sequence** keeps the terms of the two sides apart. -/
theorem Assembly.terms_append_sign (A : Assembly α) (f : Node → α) {as : List Node}
    (has : Node.Closed as) {m : Marker} (hm : m ≠ .times) (bs : List Node) :
    A.terms (Node.piecesWith f (as ++ .marker m :: bs)) =
      A.terms (Node.piecesWith f as) ++ A.terms (Node.piecesWith f (.marker m :: bs)) := by
  have hapart : Apart (dropUnaryPlus (Node.piecesWith f as))
      (dropUnaryPlus (Node.piecesWith f (.marker m :: bs))) := by
    intro p hp q hq
    rw [Node.dropUnaryPlus_piecesWith, Node.piecesWith, List.getLast?_map] at hp
    rw [head?_dropUnaryPlus] at hq
    obtain ⟨c, hc, rfl⟩ := Option.map_eq_some_iff.mp hp
    obtain rfl : Piece.marker m = q := Option.some.inj hq
    exact binds_sign ((Node.awaitsOperand_piece c f).trans (has.awaitsOperand_eq c hc)) hm
  rw [A.terms_eq, Node.dropUnaryPlus_piecesWith_append, has.not_any_awaitsOperand,
    ← dropUnaryPlus, A.regionTerms_append hapart, A.terms_eq, A.terms_eq]

namespace Node

/-- What terms denote is their sum, also if there is only one. -/
theorem denote_group (cs : List Node) : (group cs).denote =
    (Interpretation.denotation.terms (piecesWith Interpretation.denotation.of cs)).sum := by
  rw [denote, Interpretation.of_group]
  exact Assembly.resolve_eq_sum (fun _ => List.sum_singleton) _

theorem denote_append_sign {as : List Node} (has : Closed as) {m : Marker} (hm : m ≠ .times)
    (bs : List Node) :
    (group (as ++ marker m :: bs)).denote =
      (group as).denote + (group (marker m :: bs)).denote := by
  rw [denote_group, denote_group, denote_group, Assembly.terms_append_sign _ _ has hm,
    List.sum_append]

theorem denote_plus (cs : List Node) : (group (marker .plus :: cs)).denote = (group cs).denote := by
  rw [denote_group, denote_group]
  exact congrArg List.sum (Assembly.terms_plus_cons _ _)

/-! ## Many sides -/

/-- Sequences one behind the other, with a `+` between each two. -/
def joined (pieces : List (List Node)) : List Node := [marker .plus].intercalate pieces

theorem joined_cons_cons (as bs : List Node) (pieces : List (List Node)) :
    joined (as :: bs :: pieces) = as ++ marker .plus :: joined (bs :: pieces) := by
  unfold joined
  rw [List.intercalate_cons_cons, List.append_assoc]
  rfl

theorem denote_joined : ∀ pieces : List (List Node), (∀ as ∈ pieces, Closed as) →
    (group (joined pieces)).denote = (pieces.map fun as => (group as).denote).sum
  | [], _ => denote_group []
  | [as], _ => by
    unfold joined
    rw [List.intercalate_singleton, List.map_singleton, List.sum_singleton]
  | as :: bs :: pieces, h => by
    obtain ⟨has, hmore⟩ := List.forall_mem_cons.mp h
    rw [joined_cons_cons, denote_append_sign has (by decide), denote_plus,
      denote_joined (bs :: pieces) hmore]
    exact List.sum_cons.symm

/-- The `+`s between have no exponents. -/
theorem expandable_joined {pieces : List (List Node)} (h : Expandable pieces.flatten) :
    Expandable (joined pieces) := by
  have hexponents : ∀ pieces : List (List Node),
      (joined pieces).flatMap exponents = pieces.flatten.flatMap exponents := by
    intro pieces
    induction pieces with
    | nil => rfl
    | cons as pieces ih =>
      cases pieces with
      | nil =>
        unfold joined
        rw [List.intercalate_singleton, List.flatten_singleton]
      | cons bs pieces =>
        rw [joined_cons_cons, List.flatten_cons, List.flatMap_append, List.flatMap_append, ← ih]
        rfl
  have hmarkers : ∀ pieces : List (List Node), (∀ c ∈ pieces.flatten, c.MarkersInGroups) →
      ∀ c ∈ joined pieces, c.MarkersInGroups := by
    intro pieces
    induction pieces with
    | nil => exact fun h => h
    | cons as pieces ih =>
      intro h
      obtain ⟨has, hmore⟩ := List.forall_mem_append.mp h
      cases pieces with
      | nil =>
        unfold joined
        rwa [List.intercalate_singleton]
      | cons bs pieces =>
        rw [joined_cons_cons]
        exact List.forall_mem_append.mpr ⟨has, List.forall_mem_cons.mpr
          ⟨markersInGroups_marker .plus, ih hmore⟩⟩
  refine ⟨hmarkers pieces h.markers, ?_⟩
  rw [hexponents]
  exact h.bounded

theorem Expandable.of_perm {cs ds : List Node} (h : Expandable cs) (hperm : cs.Perm ds) :
    Expandable ds := by
  refine ⟨fun d hd => h.markers d (hperm.mem_iff.mpr hd), ?_⟩
  rw [← (hperm.flatMap_right exponents).sum_eq]
  exact h.bounded

/-! ## Values -/

/-- **Signs separate terms.** A `+` or a `-` behind a closed sequence adds up the value
of that sequence and the value of all that comes from the sign on; a `+` in front of a
sequence is worth nothing; and closed sequences with a `+` between each two may be put
into any order. -/
theorem evaluate_separated :
    (∀ (as bs : List Node) (m : Marker), m = .plus ∨ m = .minus → Closed as →
      Expandable (as ++ bs) →
      ∃ p q r, (resolve (group as)).evaluate = .ok p ∧
        (resolve (group (marker m :: bs))).evaluate = .ok q ∧
        (resolve (group (as ++ marker m :: bs))).evaluate = .ok r ∧ (r == p.add q) = true) ∧
    (∀ bs : List Node, Expandable bs →
      ∃ p q, (resolve (group bs)).evaluate = .ok p ∧
        (resolve (group (marker .plus :: bs))).evaluate = .ok q ∧ (q == p) = true) ∧
    ∀ pieces pieces' : List (List Node), pieces.Perm pieces' → (∀ as ∈ pieces, Closed as) →
      Expandable pieces.flatten →
      ∃ p q, (resolve (group (joined pieces))).evaluate = .ok p ∧
        (resolve (group (joined pieces'))).evaluate = .ok q ∧ (p == q) = true := by
  refine ⟨?_, ?_, ?_⟩
  · intro as bs m hm has h
    have hsign : m ≠ .times := by
      rintro rfl
      rcases hm with hm | hm <;> cases hm
    obtain ⟨hleft, hright⟩ := h.of_append
    obtain ⟨p, hp, hpoly⟩ := hleft.exists_evaluate
    obtain ⟨q, hq, hqpoly⟩ := (Expandable.insert [] hright m).exists_evaluate
    obtain ⟨r, hr, hrpoly⟩ := (Expandable.insert as h m).exists_evaluate
    refine ⟨p, q, r, hp, hq, hr, DensePoly.beq_iff_toPolynomial_eq.mpr ?_⟩
    rw [DensePoly.toPolynomial_add, hrpoly, hpoly, hqpoly]
    exact denote_append_sign has hsign bs
  · intro bs h
    obtain ⟨p, hp, hpoly⟩ := h.exists_evaluate
    obtain ⟨q, hq, hqpoly⟩ := (Expandable.insert [] h .plus).exists_evaluate
    refine ⟨p, q, hp, hq, DensePoly.beq_iff_toPolynomial_eq.mpr ?_⟩
    rw [hqpoly, hpoly]
    exact denote_plus bs
  · intro pieces pieces' hperm hclosed h
    have hclosed' : ∀ as ∈ pieces', Closed as := fun as has =>
      hclosed as (hperm.mem_iff.mpr has)
    obtain ⟨p, hp, hpoly⟩ := (expandable_joined h).exists_evaluate
    obtain ⟨q, hq, hqpoly⟩ := (expandable_joined (h.of_perm hperm.flatten)).exists_evaluate
    refine ⟨p, q, hp, hq, DensePoly.beq_iff_toPolynomial_eq.mpr ?_⟩
    rw [hpoly, hqpoly, denote_joined pieces hclosed, denote_joined pieces' hclosed',
      (hperm.map _).sum_eq]

/-- With a `+` and a `*` left dangling, where `2 - x` and `-x` are added up; and with a term
that is missing between two `+`s, where `x^2` stands first and is then put last. -/
theorem evaluate_separated_dangling :
    let p := DensePoly.ofInts [2, -1]
    let q := DensePoly.ofInts [0, -1]
    let r := DensePoly.ofInts [2, -2]
    let s := DensePoly.ofInts [2, -1, 1]
    ((resolve (group [number 2, marker .minus, marker .plus, power 1,
        marker .plus])).evaluate = .ok p ∧
      (resolve (group [marker .minus, marker .plus, power 1, marker .times])).evaluate = .ok q ∧
      (resolve (group [number 2, marker .minus, marker .plus, power 1, marker .plus,
        marker .minus, marker .plus, power 1, marker .times])).evaluate = .ok r ∧
      (r == p.add q) = true) ∧
    (resolve (group [power 2, marker .plus, marker .plus, number 2, marker .minus,
        power 1])).evaluate = .ok s ∧
      ∃ t, (resolve (group [number 2, marker .minus, power 1, marker .plus, marker .plus,
        power 2])).evaluate = .ok t ∧ (s == t) = true := by
  intro p q r s
  obtain ⟨happend, -, hpermute⟩ := evaluate_separated
  constructor
  · have hexpandable : Expandable ([number 2, marker .minus, marker .plus, power 1, marker .plus] ++
        [marker .plus, power 1, marker .times]) := by
      refine ⟨?_, by decide +kernel⟩
      unfold MarkersInGroups
      decide +kernel
    obtain ⟨p', q', r', hp, hq, hr, hsum⟩ := happend
      [number 2, marker .minus, marker .plus, power 1, marker .plus]
      [marker .plus, power 1, marker .times] .minus (Or.inr rfl)
      (by unfold Closed; decide +kernel) hexpandable
    obtain rfl : p' = p := Except.ok.inj (hp.symm.trans (by decide +kernel))
    obtain rfl : q' = q := Except.ok.inj (hq.symm.trans (by decide +kernel))
    obtain rfl : r' = r := Except.ok.inj (hr.symm.trans (by decide +kernel))
    exact ⟨hp, hq, hr, hsum⟩
  · have hexpandable : Expandable
        [[power 2], [], [number 2, marker .minus, power 1]].flatten := by
      refine ⟨?_, by decide +kernel⟩
      unfold MarkersInGroups
      decide +kernel
    obtain ⟨s', t, hs, ht, hequal⟩ := hpermute [[power 2], [], [number 2, marker .minus, power 1]]
      [[number 2, marker .minus, power 1], [], [power 2]] (by decide +kernel)
      (by unfold Closed; decide +kernel) hexpandable
    obtain rfl : s' = s := Except.ok.inj (hs.symm.trans (by decide +kernel))
    exact ⟨hs, t, ht, hequal⟩

end Node

end PolyExpand
