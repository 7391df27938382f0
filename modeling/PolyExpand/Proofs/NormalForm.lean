import PolyExpand.Proofs.Interpretation

/-!
# Normal form — what is left after resolution

Resolution takes a group of any shape and makes a tree in which nothing is left
to resolve. At its root that holds without any condition (`resolve_isOperand`):
the result is never a marker and never a group, because only operands are ever
assembled, and each of them is the result of a resolution itself.

Below the root it depends on what the group holds. A sum or a product that was
there before is taken over with all that stands below it, so the strong
statement is about trees without any (`Unresolved`):

> `normal_resolve`: an unresolved tree resolves to a tree in `Normal` form, in
> which there is no marker, no group, no sum of one term and no product of fewer
> than two factors, at any depth.

"At any depth" is said with the list of all subtrees.
-/

namespace PolyExpand.Node

/-! ## Subtrees -/

mutual

/-- A tree and everything below it, in the order of the text. -/
def subtrees : Node → List Node
  | marker m => [marker m]
  | number q => [number q]
  | power e => [power e]
  | group cs => group cs :: subtreesAll cs
  | sum cs => sum cs :: subtreesAll cs
  | product cs => product cs :: subtreesAll cs

/-- The subtrees of each tree of a list. -/
def subtreesAll : List Node → List Node
  | [] => []
  | c :: cs => subtrees c ++ subtreesAll cs

end

/-- The trees directly below a node. -/
def children : Node → List Node
  | marker _ | number _ | power _ => []
  | group cs | sum cs | product cs => cs

theorem subtreesAll_eq_flatMap : ∀ cs : List Node, subtreesAll cs = cs.flatMap subtrees
  | [] => rfl
  | c :: cs => by rw [subtreesAll, subtreesAll_eq_flatMap cs, List.flatMap_cons]

theorem subtrees_eq (n : Node) : n.subtrees = n :: n.children.flatMap subtrees := by
  cases n <;> simp [subtrees, children, subtreesAll_eq_flatMap]

theorem forall_subtrees {P : Node → Prop} {n : Node} :
    (∀ s ∈ n.subtrees, P s) ↔ P n ∧ ∀ c ∈ n.children, ∀ s ∈ c.subtrees, P s := by
  rw [subtrees_eq, List.forall_mem_cons, List.forall_mem_flatMap]

/-- The children of a subtree are subtrees. -/
theorem mem_subtrees_of_mem_children {n s c : Node} (hs : s ∈ n.subtrees) (hc : c ∈ s.children) :
    c ∈ n.subtrees := by
  have hself : ∀ d : Node, d ∈ d.subtrees := fun d => d.subtrees_eq ▸ List.mem_cons_self ..
  induction n using Node.induction with
  | marker m | number q | power e =>
    obtain rfl := List.mem_singleton.mp hs
    cases hc
  | group cs ih | sum cs ih | product cs ih =>
    rw [subtrees_eq, List.mem_cons, List.mem_flatMap] at hs ⊢
    obtain rfl | ⟨d, hd, hsd⟩ := hs
    · exact Or.inr ⟨c, hc, hself c⟩
    · exact Or.inr ⟨d, hd, ih d hd hsd⟩

/-- Whether a node is one that resolution makes out of others. -/
def isCompound : Node → Bool
  | sum _ | product _ => true
  | marker _ | number _ | power _ | group _ => false

/-- No sum and no product anywhere: the trees that can be written down. -/
def Unresolved (n : Node) : Prop := ∀ s ∈ n.subtrees, s.isCompound = false

theorem Unresolved.child {cs : List Node} (h : (group cs).Unresolved) {c : Node} (hc : c ∈ cs) :
    c.Unresolved :=
  (forall_subtrees.mp h).2 c hc

/-- Induction over the trees that can be written down. -/
@[elab_as_elim]
theorem Unresolved.induction {P : Node → Prop} (marker : ∀ m, P (.marker m))
    (number : ∀ q, P (.number q)) (power : ∀ e, P (.power e))
    (group : ∀ cs, (group cs).Unresolved → (∀ c ∈ cs, P c) → P (.group cs)) {n : Node}
    (h : n.Unresolved) : P n := by
  induction n using Node.induction with
  | marker m => exact marker m
  | number q => exact number q
  | power e => exact power e
  | sum cs _ => exact absurd (forall_subtrees.mp h).1 (by simp [isCompound])
  | product cs _ => exact absurd (forall_subtrees.mp h).1 (by simp [isCompound])
  | group cs ih => exact group cs h fun c hc => ih c hc (h.child hc)

/-- A node is in order: no marker, no group, and no sum or product that adds or
multiplies nothing. -/
def InOrder : Node → Prop
  | marker _ | group _ => False
  | number _ | power _ => True
  | sum cs => cs.length ≠ 1
  | product cs => 2 ≤ cs.length

/-- A tree in order at every depth. -/
def Normal (n : Node) : Prop := ∀ s ∈ n.subtrees, s.InOrder

/-! ## The root -/

/-- Neither a marker nor a group. -/
def IsOperand (n : Node) : Prop := (∀ m, n ≠ marker m) ∧ ∀ cs, n ≠ group cs

theorem IsOperand.isMarker_eq {n : Node} (h : n.IsOperand) : n.isMarker = false := by
  cases n with
  | marker m => exact absurd rfl (h.1 m)
  | _ => rfl

theorem resolve_isOperand {n : Node} (h : n.isMarker = false) : n.resolve.IsOperand := by
  induction n using Node.induction with
  | marker m => exact absurd h (by simp [isMarker])
  | number q => exact ⟨by simp [resolve], by simp [resolve]⟩
  | power e => exact ⟨by simp [resolve], by simp [resolve]⟩
  | sum cs _ => exact ⟨by simp [resolve], by simp [resolve]⟩
  | product cs _ => exact ⟨by simp [resolve], by simp [resolve]⟩
  | group cs ih =>
    rw [resolve_group]
    -- minus one, products and sums are operands; the rest is by induction
    refine assembly.resolve_closed ⟨by simp [assembly], by simp [assembly]⟩
      (fun as _ _ => ⟨by simp [assembly], by simp [assembly]⟩)
      (fun as _ _ => ⟨by simp [assembly], by simp [assembly]⟩) ?_
    intro a ha
    obtain ⟨c, hc, hmarker, rfl⟩ := operand_mem_piecesWith.mp ha
    exact ih c hc hmarker

theorem resolve_group_singleton {n : Node} (h : n.IsOperand) : resolve (group [n]) = n := by
  have hself : n.resolve = n := resolve_of_ne_group h.2
  rw [resolve_group, piecesWith, List.map_singleton, piece_of_not_isMarker h.isMarker_eq]
  show assembly.resolve [Piece.operand n.resolve] = n
  rw [hself]
  rfl

/-! ## Below the root -/

theorem normal_resolve {n : Node} (hmarker : n.isMarker = false) (h : n.Unresolved) :
    n.resolve.Normal := by
  revert hmarker
  refine Unresolved.induction ?_ ?_ ?_ ?_ h
  · intro m hmarker
    exact absurd hmarker (by simp [isMarker])
  · intro q _
    simp [Normal, resolve, subtrees, InOrder]
  · intro e _
    simp [Normal, resolve, subtrees, InOrder]
  · intro cs _ ih _
    rw [resolve_group]
    refine assembly.resolve_closed (P := Normal) ?_ ?_ ?_ ?_
    · simp [Normal, assembly, subtrees, InOrder]
    · intro as hlength has
      exact forall_subtrees.mpr ⟨hlength, has⟩
    · intro as hlength has
      exact forall_subtrees.mpr ⟨hlength, has⟩
    · intro a ha
      obtain ⟨c, hc, hmarker, rfl⟩ := operand_mem_piecesWith.mp ha
      exact ih c hc hmarker

/-- **No operator and no group survives resolution.** Whatever a sequence holds,
its resolution is an operand, and resolving that once more, alone or as a
sequence of one, gives it back. If the sequence holds no sum and no product at
any depth, then the result is in order at every depth. -/
theorem resolve_group_isOperand_normal (cs : List Node) :
    (resolve (group cs)).IsOperand ∧
      resolve (resolve (group cs)) = resolve (group cs) ∧
      resolve (group [resolve (group cs)]) = resolve (group cs) ∧
      ((∀ c ∈ cs, c.Unresolved) → (resolve (group cs)).Normal) := by
  have hoperand : (resolve (group cs)).IsOperand := resolve_isOperand rfl
  refine ⟨hoperand, resolve_of_ne_group hoperand.2, resolve_group_singleton hoperand, ?_⟩
  intro h
  exact normal_resolve rfl (forall_subtrees.mpr ⟨rfl, h⟩)

/-- A group of signs, an empty group and a group of one, with signs all around:
`* - () + (x) (-)`. -/
theorem resolve_group_isOperand_normal_signs :
    (∀ c ∈ [marker .times, marker .minus, group [], marker .plus, group [power 1],
        group [marker .minus]], c.Unresolved) ∧
      (resolve (group [marker .times, marker .minus, group [], marker .plus, group [power 1],
        group [marker .minus]])).Normal := by
  have hunresolved : ∀ c ∈ [marker .times, marker .minus, group [], marker .plus,
      group [power 1], group [marker .minus]], c.Unresolved := by
    unfold Unresolved
    decide
  exact ⟨hunresolved, (resolve_group_isOperand_normal _).2.2.2 hunresolved⟩

end PolyExpand.Node
