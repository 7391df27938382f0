import PolyExpand.Proofs.Grammar
import PolyExpand.Proofs.Safety

/-!
# Precedence — a text stands for what its grammar says

An `Expression` over a ring has a value, by the rules that everybody knows:
factors are multiplied before summands are added, and every `-` changes the sign
of the summand that it stands in. `Denotes` carries these rules through groups of
any depth. It is a relation and not a function, because a tree that no grammar
produces denotes nothing.

> `Source.expanded_of_denotes`: a text whose tree denotes a polynomial is
> expanded to that polynomial.

The resolver follows no grammar, so this is what makes it a reader of arithmetic.
-/

namespace PolyExpand

open Polynomial

variable {α β γ : Type}

/-! ## Expressions of nodes -/

namespace Summand

theorem map_map (f : α → β) (g : β → γ) (t : Summand α) :
    (t.map f).map g = t.map fun a => g (f a) := by
  simp [map, List.map_map, Function.comp_def]

theorem map_congr {f g : α → β} {t : Summand α} (h : ∀ a ∈ t.operands, f a = g a) :
    t.map f = t.map g := by
  obtain ⟨hhead, htail⟩ := List.forall_mem_cons.mp h
  rw [map, map, hhead]
  refine congrArg (Summand.mk t.signs (g t.head)) (List.map_congr_left fun x hx => ?_)
  exact congrArg (x.1, ·) (htail x.2 (List.mem_map_of_mem hx))

theorem pieces_map (f : α → β) (t : Summand α) :
    (t.map f).pieces = t.pieces.map (Piece.map f) := by
  have hsigns : ∀ ss : List Sign,
      (Sign.pieces ss : List (Piece α)).map (Piece.map f) = Sign.pieces ss := by
    intro ss
    rw [Sign.pieces, List.map_map]
    rfl
  have hjoint : ∀ j : Joint, (j.pieces : List (Piece α)).map (Piece.map f) = j.pieces := by
    intro j
    cases j with
    | beside => rfl
    | times signs => exact congrArg (List.cons _) (hsigns signs)
  simp only [pieces, map, List.map_append, List.map_cons, hsigns, List.map_flatMap,
    List.flatMap_map, hjoint]
  rfl

end Summand

namespace Expression

theorem summands_map (f : α → β) (e : Expression α) :
    (e.map f).summands = e.summands.map (Summand.map f) := by
  simp [summands, map, Summand.map, List.map_map, Function.comp_def]

theorem map_map (f : α → β) (g : β → γ) (e : Expression α) :
    (e.map f).map g = e.map fun a => g (f a) := by
  simp [map, Summand.map_map, List.map_map, Function.comp_def]

theorem map_congr {f g : α → β} {e : Expression α} (h : ∀ a ∈ e.operands, f a = g a) :
    e.map f = e.map g := by
  rw [operands, summands, List.flatMap_cons] at h
  have hfirst : e.first.map f = e.first.map g :=
    Summand.map_congr fun a ha => h a (List.mem_append_left _ ha)
  rw [map, map, hfirst]
  refine congrArg (Expression.mk (e.first.map g)) (List.map_congr_left fun x hx => ?_)
  refine congrArg (x.1, ·) (Summand.map_congr fun a ha => h a (List.mem_append_right _ ?_))
  exact List.mem_flatMap.mpr ⟨_, List.mem_map_of_mem hx, ha⟩

theorem pieces_map (f : α → β) (e : Expression α) :
    (e.map f).pieces = e.pieces.map (Piece.map f) := by
  rw [pieces, summands_map, pieces, List.map_flatMap, List.flatMap_map]
  exact congrArg (List.flatMap · _) (funext (Summand.pieces_map f))

end Expression

/-- A member of a flat sequence, as a child of a group. -/
def Piece.node : Piece Node → Node
  | marker m => .marker m
  | operand n => n

/-- The children of a group that contains an expression. -/
def Expression.nodes (e : Expression Node) : List Node := e.pieces.map Piece.node

theorem Summand.operand_mem_pieces {t : Summand α} {a : α} (h : Piece.operand a ∈ t.pieces) :
    a ∈ t.operands := by
  have hsigns : ∀ ss : List Sign, Piece.operand a ∉ Sign.pieces ss := by
    intro ss hmem
    obtain ⟨s, _, hs⟩ := List.mem_map.mp hmem
    cases hs
  rcases List.mem_append.mp h with hmem | hmem
  · exact absurd hmem (hsigns _)
  · rcases List.mem_cons.mp hmem with heq | hmem
    · exact Piece.operand.inj heq ▸ List.mem_cons_self ..
    · obtain ⟨⟨j, b⟩, hx, hb⟩ := List.mem_flatMap.mp hmem
      rcases List.mem_append.mp hb with hjoint | hb
      · cases j with
        | beside => cases hjoint
        | times signs =>
          rcases List.mem_cons.mp hjoint with heq | hmem
          · cases heq
          · exact absurd hmem (hsigns signs)
      · obtain rfl : a = b := Piece.operand.inj (List.mem_singleton.mp hb)
        exact List.mem_cons_of_mem _ (List.mem_map_of_mem hx)

theorem Expression.operand_mem_pieces {e : Expression α} {a : α}
    (h : Piece.operand a ∈ e.pieces) : a ∈ e.operands := by
  obtain ⟨t, ht, hmem⟩ := List.mem_flatMap.mp h
  exact List.mem_flatMap.mpr ⟨t, ht, Summand.operand_mem_pieces hmem⟩

/-- The group of an expression gives the expression back, if all its factors are
operands. -/
theorem Expression.piecesWith_nodes (f : Node → α) {e : Expression Node}
    (h : ∀ n ∈ e.operands, n.isMarker = false) :
    Node.piecesWith f e.nodes = (e.map f).pieces := by
  rw [Node.piecesWith, nodes, List.map_map, pieces_map]
  refine List.map_congr_left fun p hp => ?_
  cases p with
  | marker m => rfl
  | operand n =>
    exact congrArg (Piece.map f) (Node.piece_of_not_isMarker (h n (operand_mem_pieces hp)))

/-! ## Values -/

section Value

variable {R : Type} [CommRing R]

/-- The value of a summand: the product of its factors, where every `-` changes
the sign. -/
def Summand.value (t : Summand R) : R :=
  (-1) ^ t.signs.count .minus * (t.head * (t.tail.map fun (j, a) => (-1) ^ j.minuses * a).prod)

/-- The value of an expression: the sum of its summands. -/
def Expression.value (e : Expression R) : R := (e.summands.map Summand.value).sum

theorem Summand.prod_factors (t : Summand R) : (t.factors (-1)).prod = t.value := by
  have htail : ∀ tail : List (Joint × R),
      (tail.flatMap fun (j, a) => List.replicate j.minuses (-1) ++ [a]).prod =
        (tail.map fun (j, a) => (-1) ^ j.minuses * a).prod := by
    intro tail
    induction tail with
    | nil => rfl
    | cons x tail ih =>
      rw [List.flatMap_cons, List.prod_append, ih, List.map_cons, List.prod_cons,
        List.prod_append, List.prod_replicate, List.prod_singleton]
  rw [factors, List.prod_append, List.prod_replicate, List.prod_cons, htail, value]

end Value

/-- What an interpretation makes of a group that contains an expression. -/
theorem Expression.of_nodes (I : Interpretation α) (product : ∀ a, I.product [a] = a)
    (sum : ∀ a, I.sum [a] = a) {e : Expression Node} (h : ∀ n ∈ e.operands, n.isMarker = false) :
    I.of (.group e.nodes) =
      I.sum ((e.map I.of).summands.map fun t => I.product (t.factors I.negOne)) := by
  rw [Interpretation.of_group, piecesWith_nodes I.of h]
  exact Assembly.resolve_expression _ product sum _

theorem Expression.denote_nodes {e : Expression Node} (h : ∀ n ∈ e.operands, n.isMarker = false) :
    (Node.group e.nodes).denote = (e.map Node.denote).value := by
  have hnodes := of_nodes Interpretation.denotation (fun _ => List.prod_singleton)
    (fun _ => List.sum_singleton) h
  exact hnodes.trans (congrArg List.sum (List.map_congr_left fun t _ => t.prod_factors))

/-! ## Denotation -/

/-- What a tree denotes, if it is well formed: a number itself, a power that power
of the indeterminate, and a group the value of an expression whose factors are
well formed. -/
inductive Denotes : Node → ℚ[X] → Prop where
  | number (q : ℚ) : Denotes (.number q) (C q)
  | power (e : ℕ) : Denotes (.power e) (X ^ e)
  | group (e : Expression (Node × ℚ[X])) (factors : ∀ x ∈ e.operands, Denotes x.1 x.2) :
    Denotes (.group (e.map Prod.fst).nodes) (e.map Prod.snd).value

theorem Denotes.not_isMarker {n : Node} {v : ℚ[X]} (h : Denotes n v) : n.isMarker = false := by
  cases h <;> rfl

theorem Expression.mem_operands_map {f : α → β} {e : Expression α} {b : β}
    (h : b ∈ (e.map f).operands) : ∃ a ∈ e.operands, f a = b := by
  rw [operands, summands_map, List.flatMap_map] at h
  obtain ⟨t, ht, hb⟩ := List.mem_flatMap.mp h
  have hoperands : (t.map f).operands = t.operands.map f := by
    simp [Summand.operands, Summand.map, List.map_map, Function.comp_def]
  rw [hoperands] at hb
  obtain ⟨a, ha, rfl⟩ := List.mem_map.mp hb
  exact ⟨a, List.mem_flatMap.mpr ⟨t, ht, ha⟩, rfl⟩

/-- **Resolution reads a well-formed tree as it is meant.** -/
theorem Denotes.denote_eq {n : Node} {v : ℚ[X]} (h : Denotes n v) : n.denote = v := by
  induction h with
  | number q => rfl
  | power e => rfl
  | group e hfactors ih =>
    have hmarkers : ∀ n ∈ (e.map Prod.fst).operands, n.isMarker = false := by
      intro n hn
      obtain ⟨x, hx, rfl⟩ := Expression.mem_operands_map hn
      exact (hfactors x hx).not_isMarker
    -- By induction every factor denotes what the expression says it does.
    have hmeaning : (e.map Prod.fst).map Node.denote = e.map Prod.snd := by
      rw [Expression.map_map]
      exact Expression.map_congr ih
    rw [Expression.denote_nodes hmarkers, hmeaning]

/-- **A well-formed text is expanded to the polynomial that it denotes.** -/
theorem Source.expanded_of_denotes {s : Source} {n : Node} {v : ℚ[X]}
    (hsize : s.text.utf8ByteSize < 2 ^ 48) (htree : s.tree = .ok n) (h : Denotes n v) :
    ∃ p, s.expanded = .ok (.ok p) ∧ p.toPolynomial = v ∧
      ∀ q : DensePoly, (p == q) = true ↔ q.toPolynomial = v := by
  obtain ⟨p, hp, hpoly⟩ := expanded_of_tree hsize htree
  rw [h.denote_eq] at hpoly
  refine ⟨p, hp, hpoly, fun q => ?_⟩
  rw [DensePoly.beq_iff_toPolynomial_eq, hpoly, eq_comm]

/-- A `-` in front of a group and one in front of the whole cancel each other. -/
theorem Source.expanded_of_denotes_signs :
    ∃ p, (⟨"- 2x * -+(x + 1)", none⟩ : Source).expanded = .ok (.ok p) ∧
      p.toPolynomial = 2 * X ^ 2 + 2 * X := by
  let inner : Expression (Node × ℚ[X]) :=
    ⟨⟨[], (.power 1, X ^ 1), []⟩, [(.plus, ⟨[], (.number 1, C 1), []⟩)]⟩
  let whole : Expression (Node × ℚ[X]) :=
    ⟨⟨[.minus], (.number 2, C 2), [(.beside, (.power 1, X ^ 1)),
      (.times [.minus, .plus],
        (.group (inner.map Prod.fst).nodes, (inner.map Prod.snd).value))]⟩, []⟩
  have hinner : ∀ x ∈ inner.operands, Denotes x.1 x.2 := by
    rintro x (_ | ⟨_, _ | ⟨_, ⟨⟩⟩⟩)
    · exact .power 1
    · exact .number 1
  have hwhole : ∀ x ∈ whole.operands, Denotes x.1 x.2 := by
    rintro x (_ | ⟨_, _ | ⟨_, _ | ⟨_, ⟨⟩⟩⟩⟩)
    · exact .number 2
    · exact .power 1
    · exact .group inner hinner
  have hvalue : (whole.map Prod.snd).value = 2 * X ^ 2 + 2 * X := by
    have htwo : (C 2 : ℚ[X]) = 2 := map_ofNat C 2
    show (-1) ^ 1 * (C 2 * ((-1) ^ 0 * X ^ 1 * ((-1) ^ 1 *
      ((-1) ^ 0 * (X ^ 1 * 1) + ((-1) ^ 0 * (C 1 * 1) + 0)) * 1))) + 0 = _
    rw [htwo, C_1]
    ring
  have htree : (⟨"- 2x * -+(x + 1)", none⟩ : Source).tree =
      .ok (.group [.marker .minus, .number 2, .power 1, .marker .times, .marker .minus,
        .marker .plus, .group [.power 1, .marker .plus, .number 1]]) := by
    decide +kernel
  obtain ⟨p, hp, hpoly, -⟩ := expanded_of_denotes (by decide) htree (.group whole hwhole)
  exact ⟨p, hp, hpoly.trans hvalue⟩

end PolyExpand
