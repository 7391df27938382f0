import PolyExpand.Evaluation
import PolyExpand.Nesting

/-!
# Sources — a text, from its items to its polynomial

A source is a text, perhaps with a name that reports of malformed texts
quote. It is seen in four ways, each made from the one before: the items
that the lexer finds, the tree of groups, the resolved tree, and the
polynomial. Only the first step to a tree can find the text malformed, and
then all later views fail with the same report.
-/

namespace PolyExpand

/-- A text to be read. -/
structure Source where
  text : String
  /-- What the text is called, if it has a name. -/
  name? : Option String := none

namespace Source

/-- The name that reports quote. -/
def displayName (s : Source) : String := s.name?.getD "<input>"

/-- Reads the text to its end: the items, and the cursor behind them. -/
def read (s : Source) : List Item × Cursor := (Cursor.start s.text.toList).readAll

/-- Everything the lexer finds. -/
def items (s : Source) : List Item := s.read.1

/-- The tree of groups. -/
def tree (s : Source) : Except Malformed Node := Node.ofItems s.items

/-- The tree as a sum of products. -/
def resolved (s : Source) : Except Malformed Node := do return (← s.tree).resolve

/-- The polynomial: its outer layer says whether the text is well formed,
its inner one whether the resolved tree has a value. -/
def expanded (s : Source) : Except Malformed Value := do return (← s.resolved).evaluate

end Source

end PolyExpand
