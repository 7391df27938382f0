import PolyExpand.Node
import PolyExpand.Numeral

/-!
# Trees in print

A tree is printed on one line. Leaves are printed as they would be written,
a group between brackets, a sum and a product between parentheses with their
operator in front, and children are set apart by one space each. The space
behind the operator is printed even if no child follows it: the empty sum is
`(+ )`.
-/

namespace PolyExpand.Node

mutual

/-- The printed form of a tree. -/
def text : Node → List Char
  | marker m => [m.char]
  | number q => Numeral.rational q
  | power e => Numeral.power e
  | group cs => '[' :: [' '].intercalate (textAll cs) ++ [']']
  | sum cs => '(' :: '+' :: ' ' :: [' '].intercalate (textAll cs) ++ [')']
  | product cs => '(' :: '*' :: ' ' :: [' '].intercalate (textAll cs) ++ [')']

/-- The printed form of each tree of a list. -/
def textAll : List Node → List (List Char)
  | [] => []
  | c :: cs => text c :: textAll cs

end

theorem textAll_eq_map : ∀ cs : List Node, textAll cs = cs.map text
  | [] => rfl
  | c :: cs => by rw [textAll, List.map_cons, textAll_eq_map cs]

instance : ToString Node := ⟨fun n => String.ofList n.text⟩

end PolyExpand.Node
