import PolyExpand.Proofs.NormalForm
import PolyExpand.Proofs.RegionFactors
import Mathlib.Logic.Relation

/-!
# Variants — one tree written in many ways

Much of what may be written makes no difference: a `*` between operands, a `+` behind
a `-` or a `*`, a `*` behind another one, parentheses around a single operand or around
everything. Each of these is a `Variant`: a change at one place, at any depth of groups
and with any operators around it, dangling and repeated ones included.

> `Node.resolve_of_variants`: any number of such changes, made or taken back in any
> order, leaves the resolved tree as it is.

There are two reasons. The signs in question are not seen where they stand, so the
factors of every region stay what they are (`Assembly.terms_append_congr`). And a group
counts in the group around it for what it is resolved to, which is what its only member
is resolved to, if there is but one.
-/

namespace PolyExpand

variable {α : Type}

/-! ## Signs -/

namespace Assembly

variable (A : Assembly α)

theorem terms_times (ps : List (Piece α)) (a b : α) (qs : List (Piece α)) :
    A.terms (ps ++ .operand a :: .marker .times :: .operand b :: qs) =
      A.terms (ps ++ .operand a :: .operand b :: qs) := by
  apply A.terms_append_congr
  · intro awaiting
    rfl
  · intro awaiting
    exact regionFactors_times A.negOne rfl (dropUnaryPlusFrom false qs)

theorem terms_plus (ps : List (Piece α)) {m : Marker} (hm : m = .minus ∨ m = .times)
    (qs : List (Piece α)) :
    A.terms (ps ++ .marker m :: .marker .plus :: qs) = A.terms (ps ++ .marker m :: qs) := by
  have hdrop : ∀ awaiting : Bool,
      dropUnaryPlusFrom awaiting (.marker m :: .marker .plus :: qs) =
        dropUnaryPlusFrom awaiting (.marker m :: qs) := by
    intro awaiting
    rcases hm with rfl | rfl <;> rfl
  apply A.terms_append_congr
  · intro awaiting
    rw [hdrop]
  · intro awaiting
    rw [hdrop]

theorem terms_doubled (ps qs : List (Piece α)) :
    A.terms (ps ++ .marker .times :: .marker .times :: qs) =
      A.terms (ps ++ .marker .times :: qs) := by
  apply A.terms_append_congr
  · intro awaiting
    rfl
  · intro awaiting
    exact regionFactors_of_ownFactors_eq_nil A.negOne rfl rfl (dropUnaryPlusFrom true qs)

end Assembly

namespace Node

/-! ## Variants -/

/-- Two sequences that differ in one place, and there only in how they are written. -/
inductive Variant : List Node → List Node → Prop where
  /-- Neighbours are multiplied, with or without a `*`. -/
  | times {c d : Node} (hc : c.isMarker = false) (hd : d.isMarker = false)
      (before behind : List Node) :
      Variant (before ++ c :: d :: behind) (before ++ c :: marker .times :: d :: behind)
  /-- A `+` says nothing behind a `-` or a `*`. -/
  | plus {m : Marker} (hm : m = .minus ∨ m = .times) (before behind : List Node) :
      Variant (before ++ marker m :: behind) (before ++ marker m :: marker .plus :: behind)
  /-- Nor does a `*` behind another one. -/
  | doubled (before behind : List Node) :
      Variant (before ++ marker .times :: behind)
        (before ++ marker .times :: marker .times :: behind)
  /-- Parentheses around a single operand. -/
  | wrapped {c : Node} (hc : c.isMarker = false) (before behind : List Node) :
      Variant (before ++ c :: behind) (before ++ group [c] :: behind)
  /-- Parentheses around everything. -/
  | enclosed (cs : List Node) : Variant cs [group cs]
  /-- Any of these within a group. -/
  | inside {cs ds : List Node} (h : Variant cs ds) (before behind : List Node) :
      Variant (before ++ group cs :: behind) (before ++ group ds :: behind)

/-- Where the terms are the same, so is the tree. -/
theorem resolve_group_congr {cs ds : List Node}
    (h : assembly.terms (piecesWith resolve cs) = assembly.terms (piecesWith resolve ds)) :
    resolve (group cs) = resolve (group ds) := by
  rw [resolve_group, resolve_group, Assembly.resolve, Assembly.resolve, h]

/-- A group of one is resolved to what its member is resolved to. -/
theorem resolve_singleton {c : Node} (hc : c.isMarker = false) : resolve (group [c]) = resolve c := by
  rw [resolve_group, piecesWith, List.map_singleton, piece_of_not_isMarker hc]
  rfl

/-- An operand counts for what it is resolved to. -/
theorem resolve_group_replace {c d : Node} (hc : c.isMarker = false) (hd : d.isMarker = false)
    (h : resolve c = resolve d) (before behind : List Node) :
    resolve (group (before ++ c :: behind)) = resolve (group (before ++ d :: behind)) := by
  have hpiece : c.piece.map resolve = d.piece.map resolve := by
    rw [piece_of_not_isMarker hc, piece_of_not_isMarker hd]
    exact congrArg Piece.operand h
  apply resolve_group_congr
  unfold piecesWith
  rw [List.map_append, List.map_append, List.map_cons, List.map_cons, hpiece]

/-- **One change** leaves the resolved tree as it is. -/
theorem Variant.resolve_eq {cs ds : List Node} (h : Variant cs ds) :
    resolve (group ds) = resolve (group cs) := by
  induction h with
  | @times c d hc hd before behind =>
    apply resolve_group_congr
    have hterms := assembly.terms_times (piecesWith resolve before) (resolve c) (resolve d)
      (piecesWith resolve behind)
    unfold piecesWith at hterms ⊢
    rw [List.map_append, List.map_append, List.map_cons, List.map_cons, List.map_cons,
      List.map_cons, List.map_cons, piece_of_not_isMarker hc, piece_of_not_isMarker hd]
    exact hterms
  | plus hm before behind =>
    apply resolve_group_congr
    rw [piecesWith_append, piecesWith_append]
    exact assembly.terms_plus (piecesWith resolve before) hm (piecesWith resolve behind)
  | doubled before behind =>
    apply resolve_group_congr
    rw [piecesWith_append, piecesWith_append]
    exact assembly.terms_doubled (piecesWith resolve before) (piecesWith resolve behind)
  | wrapped hc before behind =>
    exact resolve_group_replace rfl hc (resolve_singleton hc) before behind
  | enclosed cs => exact resolve_singleton rfl
  | inside _ before behind ih => exact resolve_group_replace rfl rfl ih before behind

/-- **Variants are resolved to one tree**: any number of changes, made or taken back in
any order, leaves the resolved tree as it is, and the value with all that is stored. -/
theorem resolve_of_variants {cs ds : List Node} (h : Relation.EqvGen Variant cs ds) :
    resolve (group ds) = resolve (group cs) ∧ (group ds).evaluate = (group cs).evaluate := by
  have hresolve : resolve (group ds) = resolve (group cs) := by
    induction h with
    | rel cs ds hvariant => exact hvariant.resolve_eq
    | refl cs => rfl
    | symm cs ds _ ih => exact ih.symm
    | trans cs ds es _ _ ih ih' => exact ih'.trans ih
  refine ⟨hresolve, ?_⟩
  rw [← evaluate_resolve (group ds), hresolve, evaluate_resolve]

/-- `2(x - 1)` is `((2) * * (x - + 1))`. -/
theorem resolve_of_variants_product :
    Relation.EqvGen Variant [number 2, group [power 1, marker .minus, number 1]]
      [group [group [number 2], marker .times, marker .times,
        group [power 1, marker .minus, marker .plus, number 1]]] ∧
    resolve (group [group [group [number 2], marker .times, marker .times,
        group [power 1, marker .minus, marker .plus, number 1]]]) =
      product [number 2, sum [power 1, product [number (-1), number 1]]] := by
  have hwrapped := Variant.wrapped (c := number 2) rfl []
    [group [power 1, marker .minus, number 1]]
  have htimes := Variant.times (c := group [number 2])
    (d := group [power 1, marker .minus, number 1]) rfl rfl [] []
  have hdoubled := Variant.doubled [group [number 2]] [group [power 1, marker .minus, number 1]]
  have hplus := (Variant.plus (m := .minus) (Or.inl rfl) [power 1] [number 1]).inside
    [group [number 2], marker .times, marker .times] []
  have hvariants := ((((Relation.EqvGen.rel _ _ hwrapped).trans _ _ _
    (.rel _ _ htimes)).trans _ _ _ (.rel _ _ hdoubled)).trans _ _ _
    (.rel _ _ hplus)).trans _ _ _ (.rel _ _ (Variant.enclosed _))
  exact ⟨hvariants, (resolve_of_variants hvariants).1.trans (by decide +kernel)⟩

end Node

end PolyExpand
