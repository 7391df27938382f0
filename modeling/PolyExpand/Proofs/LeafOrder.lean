import PolyExpand.Proofs.NormalForm
import PolyExpand.Proofs.RegionFactors
import PolyExpand.Proofs.UnaryPlus

/-!
# Leaf order — nothing is lost, doubled or moved

Resolution takes a group apart and puts it together again, but the numbers and powers
of the result, from left to right (`leaves`), can be written down without it
(`written`). At every level the unary `+`s are left out; then each `-` counts as the
number minus one, unless it is the last that is left, and all other signs count for
nothing. Where the regions end, which of them have a factor and what is wrapped into
a product or a sum does not matter.

> `Node.leaves_resolve_eq_written`: these are the leaves of the result, whatever the
> sequence is.

Assembling trees puts leaves one behind the other (`leaves_assembly`), so the leaves
of a resolved group are a concatenation of factors. The cuts between regions cancel
(`Assembly.resolve_concat_eq`), and what is left is one walk along the members of the
group (`flatten_factors`).
-/

namespace PolyExpand.Node

/-! ## Leaves -/

/-- Whether a node is a number or a power. -/
def isLeaf : Node → Bool
  | number _ | power _ => true
  | marker _ | group _ | sum _ | product _ => false

/-- The numbers and powers of a tree, from left to right. -/
def leaves (n : Node) : List Node := n.subtrees.filter isLeaf

theorem leaves_children {n : Node} (h : n.isLeaf = false) :
    n.leaves = n.children.flatMap leaves := by
  unfold leaves
  rw [subtrees_eq, List.filter_cons_of_neg (by simp [h]), List.filter_flatMap]

/-- A tree that is put together has the leaves of its parts. -/
theorem leaves_assembly (ps : List (Piece Node)) : (assembly.resolve ps).leaves =
    (Assembly.concat [number (-1)]).resolve (ps.map (Piece.map leaves)) := by
  refine Assembly.resolve_map leaves assembly (.concat [number (-1)]) rfl ?_ ?_ ps
  · intro cs
    exact (leaves_children rfl).trans (List.flatMap_def ..)
  · intro cs
    exact (leaves_children rfl).trans (List.flatMap_def ..)

/-! ## Leaves as they are written -/

theorem sizeOf_le_of_sublist {cs ds : List Node} (h : cs.Sublist ds) : sizeOf cs ≤ sizeOf ds := by
  induction h with
  | slnil => exact Nat.le_refl _
  | cons d _ ih =>
    rw [List.cons.sizeOf_spec]
    omega
  | cons_cons d _ ih =>
    rw [List.cons.sizeOf_spec, List.cons.sizeOf_spec]
    omega

theorem sizeOf_withoutUnaryPlus_lt (cs : List Node) :
    sizeOf (withoutUnaryPlus cs) < sizeOf (group cs) := by
  have hle := sizeOf_le_of_sublist (withoutUnaryPlus_sublist cs)
  rw [group.sizeOf_spec]
  omega

mutual

/-- The leaves of a tree in the order in which they are written, its signs among them.
A sum and a product are taken as they are. -/
def written : Node → List Node
  | marker _ => []
  | number q => [number q]
  | power e => [power e]
  | group cs => writtenAll (withoutUnaryPlus cs)
  | sum cs => leaves (sum cs)
  | product cs => leaves (product cs)
termination_by n => sizeOf n
decreasing_by exact sizeOf_withoutUnaryPlus_lt cs

/-- The same for the members of a group without unary `+`s: a minus one for every `-`
but one at the end, and nothing for a `+` or a `*`. -/
def writtenAll : List Node → List Node
  | [] => []
  | [marker .minus] => []
  | marker .minus :: c :: cs => number (-1) :: writtenAll (c :: cs)
  | marker .plus :: cs | marker .times :: cs => writtenAll cs
  | c :: cs => written c ++ writtenAll cs
termination_by cs => sizeOf cs

end

/-- Members of a group as factors: the same walk. -/
theorem flatten_factors : ∀ cs : List Node,
    (factors [number (-1)] (piecesWith written cs)).flatten = writtenAll cs
  | [] => by
    rw [writtenAll]
    rfl
  | c :: cs => by
    have ih := flatten_factors cs
    cases c with
    | marker m =>
      cases m with
      | minus =>
        cases cs with
        | nil =>
          rw [writtenAll]
          rfl
        | cons c cs =>
          rw [writtenAll, ← ih]
          rfl
      | plus | times =>
        rw [writtenAll, ← ih]
        rfl
    | _ =>
      rw [writtenAll, ← ih]
      · rfl
      all_goals simp

/-- **Operands stay in their order**, and none is lost or doubled: the leaves of the
resolved tree are those that are written, with a minus one for each `-` that something
other than a unary `+` follows in its group. -/
theorem leaves_resolve_eq_written (cs : List Node) :
    (resolve (group cs)).leaves = (group cs).written := by
  have hall : ∀ n : Node, n.isMarker = false → n.resolve.leaves = n.written := by
    intro n hn
    induction n using Node.induction with
    | marker m => exact absurd hn (by simp [isMarker])
    | number q =>
      rw [written]
      rfl
    | power e =>
      rw [written]
      rfl
    | sum cs _ =>
      rw [written]
      rfl
    | product cs _ =>
      rw [written]
      rfl
    | group cs ih =>
      have hchildren : piecesWith (fun c => c.resolve.leaves) cs = piecesWith written cs := by
        refine List.map_congr_left fun c hc => ?_
        cases c with
        | marker m => rfl
        | _ => exact congrArg Piece.operand (ih _ hc rfl)
      rw [resolve_group, leaves_assembly, map_piecesWith, hchildren, Assembly.resolve_concat_eq,
        dropUnaryPlus_piecesWith, flatten_factors, written]
  exact hall (group cs) rfl

/-- Of `2 - + - (* x) - +` the last `-` is not written: the `+` behind it is unary. -/
example : (group [number 2, marker .minus, marker .plus, marker .minus,
    group [marker .times, power 1], marker .minus, marker .plus]).written =
      [number 2, number (-1), number (-1), power 1] := by
  cbv

end PolyExpand.Node
