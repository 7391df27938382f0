import PolyExpand.Evaluation
import PolyExpand.Proofs.Assembly

/-!
# Interpretations — one recursion on trees

Whatever is computed from a tree treats a group in the same way: its children
become a flat sequence of markers and operands, and an `Assembly` puts the
operands together. An `Interpretation` is such an assembly together with what
leaves and bare markers are worth, and `Interpretation.of` is the recursion. The
value of a tree is one instance (`deferred_of`), its formal degree and its
meaning in `ℚ[X]` are others.

Three facts make the recursion worth having.

> `of_closed`: a property that leaves have and that assembling keeps is a
> property of every tree.

> `of_map`: a function that respects leaves and assembling takes one
> interpretation to the other.

> `of_resolve`: an interpretation does not see whether a tree has been resolved.

A relation between two interpretations is a property of their pair (`pair_of`).
-/

namespace PolyExpand

variable {α β : Type}

namespace Node

/-! ## Children of a group -/

/-- A child of a group, as a member of a flat sequence. -/
def piece : Node → Piece Node
  | marker m => .marker m
  | n => .operand n

/-- Children as a flat sequence, with a function applied to the operands. -/
def piecesWith (f : Node → α) (cs : List Node) : List (Piece α) :=
  cs.map fun c => c.piece.map f

theorem piece_of_not_isMarker {n : Node} (h : n.isMarker = false) : n.piece = .operand n := by
  cases n with
  | marker m => exact absurd h (by simp [isMarker])
  | _ => rfl

/-- The operands of a group are its children other than markers. -/
theorem operand_mem_piecesWith {f : Node → α} {cs : List Node} {a : α} :
    Piece.operand a ∈ piecesWith f cs ↔ ∃ c ∈ cs, c.isMarker = false ∧ f c = a := by
  rw [piecesWith, List.mem_map]
  constructor
  · rintro ⟨c, hc, heq⟩
    cases c with
    | marker m => simp [piece, Piece.map] at heq
    | _ => exact ⟨_, hc, rfl, Piece.operand.inj heq⟩
  · rintro ⟨c, hc, hmarker, rfl⟩
    exact ⟨c, hc, by rw [piece_of_not_isMarker hmarker]; rfl⟩

theorem piecesWith_congr {f g : Node → α} {cs : List Node} (h : ∀ c ∈ cs, f c = g c) :
    piecesWith f cs = piecesWith g cs := by
  refine List.map_congr_left fun c hc => ?_
  cases c with
  | marker m => rfl
  | _ => exact congrArg Piece.operand (h _ hc)

theorem piecesWith_append (f : Node → α) (cs ds : List Node) :
    piecesWith f (cs ++ ds) = piecesWith f cs ++ piecesWith f ds := List.map_append

theorem map_piecesWith (f : Node → α) (g : α → β) (cs : List Node) :
    (piecesWith f cs).map (Piece.map g) = piecesWith (fun c => g (f c)) cs := by
  rw [piecesWith, List.map_map, piecesWith]
  refine List.map_congr_left fun c _ => ?_
  cases c <;> rfl

theorem resolvedPieces_eq : ∀ cs : List Node, resolvedPieces cs = piecesWith resolve cs
  | [] => rfl
  | c :: cs => by
    have ih := resolvedPieces_eq cs
    cases c with
    | marker m => exact congrArg (List.cons (.marker m)) ih
    | _ => exact congrArg (List.cons (.operand _)) ih

theorem deferredPieces_eq : ∀ cs : List Node, deferredPieces cs = piecesWith deferred cs
  | [] => rfl
  | c :: cs => by
    have ih := deferredPieces_eq cs
    cases c with
    | marker m => exact congrArg (List.cons (.marker m)) ih
    | _ => exact congrArg (List.cons (.operand _)) ih

theorem resolve_group (cs : List Node) :
    resolve (.group cs) = assembly.resolve (piecesWith resolve cs) := by
  rw [resolve, resolvedPieces_eq]

/-- Only groups change in resolution. -/
theorem resolve_of_ne_group {n : Node} (h : ∀ cs, n ≠ .group cs) : resolve n = n := by
  cases n with
  | group cs => exact absurd rfl (h cs)
  | _ => rfl

end Node

/-- A way of computing something from a tree. -/
structure Interpretation (α : Type) extends Assembly α where
  /-- A marker that stands where only operands may stand. -/
  marker : Marker → α
  number : Rat → α
  power : Nat → α

namespace Interpretation

mutual

/-- What an interpretation makes of a tree. -/
def of (I : Interpretation α) : Node → α
  | .marker m => I.marker m
  | .number q => I.number q
  | .power e => I.power e
  | .group cs => I.resolve (pieces I cs)
  | .sum cs => I.sum (all I cs)
  | .product cs => I.product (all I cs)

/-- Children as a flat sequence, the operands interpreted. -/
def pieces (I : Interpretation α) : List Node → List (Piece α)
  | [] => []
  | .marker m :: cs => .marker m :: pieces I cs
  | c :: cs => .operand (of I c) :: pieces I cs

/-- What an interpretation makes of each tree of a list. -/
def all (I : Interpretation α) : List Node → List α
  | [] => []
  | c :: cs => of I c :: all I cs

end

theorem pieces_eq (I : Interpretation α) : ∀ cs : List Node,
    I.pieces cs = Node.piecesWith I.of cs
  | [] => by rw [pieces]; rfl
  | c :: cs => by
    have ih := pieces_eq I cs
    cases c <;> simp [pieces, ih, Node.piecesWith, Node.piece, Piece.map]

theorem all_eq (I : Interpretation α) : ∀ cs : List Node, I.all cs = cs.map I.of
  | [] => by rw [all]; rfl
  | c :: cs => by rw [all, all_eq I cs, List.map_cons]

@[simp] theorem of_marker (I : Interpretation α) (m : Marker) : I.of (.marker m) = I.marker m := by
  rw [of]

@[simp] theorem of_number (I : Interpretation α) (q : Rat) : I.of (.number q) = I.number q := by
  rw [of]

@[simp] theorem of_power (I : Interpretation α) (e : Nat) : I.of (.power e) = I.power e := by
  rw [of]

theorem of_group (I : Interpretation α) (cs : List Node) :
    I.of (.group cs) = I.resolve (Node.piecesWith I.of cs) := by
  rw [of, pieces_eq]

theorem of_sum (I : Interpretation α) (cs : List Node) :
    I.of (.sum cs) = I.sum (cs.map I.of) := by
  rw [of, all_eq]

theorem of_product (I : Interpretation α) (cs : List Node) :
    I.of (.product cs) = I.product (cs.map I.of) := by
  rw [of, all_eq]

/-! ## Properties -/

/-- **A property of leaves that assembling keeps is a property of all trees.** -/
theorem of_closed {P : α → Prop} (I : Interpretation α) (marker : ∀ m, P (I.marker m))
    (number : ∀ q, P (I.number q)) (power : ∀ e, P (I.power e)) (negOne : P I.negOne)
    (product : ∀ as, (∀ a ∈ as, P a) → P (I.product as))
    (sum : ∀ as, (∀ a ∈ as, P a) → P (I.sum as)) (n : Node) : P (I.of n) := by
  have children : ∀ cs : List Node, (∀ c ∈ cs, P (I.of c)) → ∀ a ∈ cs.map I.of, P a := by
    intro cs ih a ha
    obtain ⟨c, hc, rfl⟩ := List.mem_map.mp ha
    exact ih c hc
  induction n using Node.induction with
  | marker m => rw [of_marker]; exact marker m
  | number q => rw [of_number]; exact number q
  | power e => rw [of_power]; exact power e
  | sum cs ih => rw [of_sum]; exact sum _ (children cs ih)
  | product cs ih => rw [of_product]; exact product _ (children cs ih)
  | group cs ih =>
    rw [of_group]
    refine I.resolve_closed negOne (fun as _ => product as) (fun as _ => sum as) ?_
    intro a ha
    obtain ⟨c, hc, -, rfl⟩ := Node.operand_mem_piecesWith.mp ha
    exact ih c hc

/-! ## From one interpretation to another -/

/-- **A function that respects leaves and assembling** takes one interpretation
of a tree to the other. -/
theorem of_map (f : α → β) (I : Interpretation α) (J : Interpretation β)
    (marker : ∀ m, f (I.marker m) = J.marker m) (number : ∀ q, f (I.number q) = J.number q)
    (power : ∀ e, f (I.power e) = J.power e) (negOne : f I.negOne = J.negOne)
    (product : ∀ as, f (I.product as) = J.product (as.map f))
    (sum : ∀ as, f (I.sum as) = J.sum (as.map f)) (n : Node) : f (I.of n) = J.of n := by
  have children : ∀ cs : List Node, (∀ c ∈ cs, f (I.of c) = J.of c) →
      (cs.map I.of).map f = cs.map J.of := by
    intro cs ih
    rw [List.map_map]
    exact List.map_congr_left ih
  induction n using Node.induction with
  | marker m => rw [of_marker, of_marker, marker]
  | number q => rw [of_number, of_number, number]
  | power e => rw [of_power, of_power, power]
  | sum cs ih => rw [of_sum, of_sum, sum, children cs ih]
  | product cs ih => rw [of_product, of_product, product, children cs ih]
  | group cs ih =>
    rw [of_group, of_group, Assembly.resolve_map f I.toAssembly J.toAssembly negOne product sum,
      Node.map_piecesWith, Node.piecesWith_congr ih]

/-- Computes two things at once. -/
def pair (I : Interpretation α) (J : Interpretation β) : Interpretation (α × β) where
  toAssembly := I.toAssembly.pair J.toAssembly
  marker m := (I.marker m, J.marker m)
  number q := (I.number q, J.number q)
  power e := (I.power e, J.power e)

theorem pair_of (I : Interpretation α) (J : Interpretation β) (n : Node) :
    (I.pair J).of n = (I.of n, J.of n) :=
  Prod.ext
    (of_map Prod.fst (I.pair J) I (fun _ => rfl) (fun _ => rfl) (fun _ => rfl) rfl
      (fun _ => rfl) (fun _ => rfl) n)
    (of_map Prod.snd (I.pair J) J (fun _ => rfl) (fun _ => rfl) (fun _ => rfl) rfl
      (fun _ => rfl) (fun _ => rfl) n)

/-- **Resolution does not change what a tree is interpreted as**, as long as the
number minus one is worth what minus one is worth. -/
theorem of_resolve (I : Interpretation α) (negOne : I.number (-1) = I.negOne) (n : Node) :
    I.of (Node.resolve n) = I.of n := by
  induction n using Node.induction with
  | marker m => rfl
  | number q => rfl
  | power e => rfl
  | sum cs _ => rfl
  | product cs _ => rfl
  | group cs ih =>
    -- Trees are assembled like everything else, so interpreting commutes with it.
    have hnegOne : I.of Node.assembly.negOne = I.negOne := (I.of_number (-1)).trans negOne
    rw [Node.resolve_group, Assembly.resolve_map I.of Node.assembly I.toAssembly hnegOne
      I.of_product I.of_sum, Node.map_piecesWith, of_group, Node.piecesWith_congr ih]

/-! ## Evaluation is an interpretation -/

/-- The values of trees, none computed yet. -/
def deferred : Interpretation DeferredValue where
  toAssembly := DeferredValue.assembly
  marker m := fun _ => .error (.bareMarker m)
  number q := fun _ => .ok (.constant q)
  power e := fun _ => .ok (Term.poly ⟨1, e⟩)

theorem deferred_of (n : Node) : deferred.of n = n.deferred := by
  induction n using Node.induction with
  | marker m => rfl
  | number q => rfl
  | power e => rfl
  | sum cs ih =>
    rw [of_sum, List.map_congr_left ih, ← Node.deferredAll_eq_map]
    rfl
  | product cs ih =>
    rw [of_product, List.map_congr_left ih, ← Node.deferredAll_eq_map]
    rfl
  | group cs ih =>
    rw [of_group, Node.piecesWith_congr ih, ← Node.deferredPieces_eq]
    rfl

end Interpretation

end PolyExpand
