import PolyExpand.Marker

/-!
# Nodes — expressions as trees

One type holds an expression in both of its forms. Before resolution a
`group` is the flat content of one pair of parentheses, operators and
operands side by side in the order of the text. Resolution replaces it by
`sum` and `product` nodes, whose children are operands only. Markers,
numbers and powers are the leaves of both forms, and mixed trees are trees
too: nothing stops a group from standing below a product.

Trees have lists of children, so recursion on them comes in pairs, one
function for a node and one for a list of nodes. `Node.induction` is the
matching induction principle, stated for members of the list of children.
Equality of trees is decided by `same`.
-/

namespace PolyExpand

/-- An expression, resolved or not. -/
inductive Node where
  /-- An operator that has not been applied to anything yet. -/
  | marker (m : Marker)
  | number (value : Rat)
  /-- The indeterminate raised to a power. -/
  | power (exponent : Nat)
  /-- The content of a pair of parentheses, as it was written. -/
  | group (children : List Node)
  | sum (children : List Node)
  | product (children : List Node)

namespace Node

/-- To prove a property of every tree, prove it of each node whose children
all have it. -/
@[elab_as_elim]
theorem induction {motive : Node → Prop}
    (marker : ∀ m, motive (.marker m))
    (number : ∀ q, motive (.number q))
    (power : ∀ e, motive (.power e))
    (group : ∀ cs, (∀ c ∈ cs, motive c) → motive (.group cs))
    (sum : ∀ cs, (∀ c ∈ cs, motive c) → motive (.sum cs))
    (product : ∀ cs, (∀ c ∈ cs, motive c) → motive (.product cs)) :
    ∀ n, motive n
  | .marker m => marker m
  | .number q => number q
  | .power e => power e
  | .group cs => group cs fun c _ => induction marker number power group sum product c
  | .sum cs => sum cs fun c _ => induction marker number power group sum product c
  | .product cs => product cs fun c _ => induction marker number power group sum product c

/-- Whether a node is an operator marker. -/
def isMarker : Node → Bool
  | marker _ => true
  | _ => false

mutual

/-- Whether two trees are the same. -/
def same : Node → Node → Bool
  | marker m, marker n => m == n
  | number p, number q => p == q
  | power d, power e => d == e
  | group as, group bs => sameAll as bs
  | sum as, sum bs => sameAll as bs
  | product as, product bs => sameAll as bs
  | _, _ => false

/-- Whether two lists of trees are the same. -/
def sameAll : List Node → List Node → Bool
  | [], [] => true
  | a :: as, b :: bs => same a b && sameAll as bs
  | _, _ => false

end

/-- Lists are the same if their members are compared correctly. -/
theorem sameAll_iff_of_forall : ∀ (as bs : List Node),
    (∀ a ∈ as, ∀ b, same a b = true ↔ a = b) → (sameAll as bs = true ↔ as = bs)
  | [], [], _ => by simp [sameAll]
  | [], _ :: _, _ => by simp [sameAll]
  | _ :: _, [], _ => by simp [sameAll]
  | a :: as, b :: bs, h => by
    simp [sameAll, h a (by simp) b,
      sameAll_iff_of_forall as bs fun a' ha' => h a' (by simp [ha'])]

/-- Equality of trees is what `same` decides. -/
theorem same_iff (a b : Node) : same a b = true ↔ a = b := by
  induction a using Node.induction generalizing b with
  | marker m => cases b <;> simp [same]
  | number q => cases b <;> simp [same]
  | power e => cases b <;> simp [same]
  | group cs ih => cases b <;> simp [same, sameAll_iff_of_forall cs _ ih]
  | sum cs ih => cases b <;> simp [same, sameAll_iff_of_forall cs _ ih]
  | product cs ih => cases b <;> simp [same, sameAll_iff_of_forall cs _ ih]

instance : DecidableEq Node := fun a b => decidable_of_iff _ (same_iff a b)

end Node

end PolyExpand
