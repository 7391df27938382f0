import PolyExpand.Node
import PolyExpand.Resolution

/-!
# Resolving trees

A group is resolved from the inside: the groups among its children first,
and then its own flat sequence of markers and operands, which becomes a sum
of products (`Resolution`). Only groups are resolved. A sum or a product is
taken as it is, with whatever stands below it.

A resolved group among the children is an operand, never a marker, so what
a group contains has no influence on how its neighbours are bound.
-/

namespace PolyExpand.Node

/-- Trees are put together from product and sum nodes. -/
def assembly : Assembly Node := ⟨.number (-1), .product, .sum⟩

mutual

/-- A group as a sum of products; any other tree unchanged. -/
def resolve : Node → Node
  | group cs => assembly.resolve (resolvedPieces cs)
  | n => n

/-- Children as a flat sequence of markers and resolved operands. -/
def resolvedPieces : List Node → List (Piece Node)
  | [] => []
  | marker m :: cs => .marker m :: resolvedPieces cs
  | c :: cs => .operand (resolve c) :: resolvedPieces cs

end

end PolyExpand.Node
