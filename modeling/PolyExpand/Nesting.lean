import PolyExpand.Cursor
import PolyExpand.Node

/-!
# Nesting — from a sequence of items to a tree of groups

Items are taken in order, and each either stops the reading or changes what
is held: the nodes read so far of the innermost open group, and behind them
one frame for every group that is still open around it. A frame remembers
where its `(` stood, because that is the place to report if no `)` ever
comes, and what had been read of the list that the group interrupts.

The frames take the place of calls. A reader that calls itself at every `(`
and returns at the `)` that belongs to it needs no frames, and meets the
first fault while the calls around it are still waiting. `within` in
`PolyExpand.Proofs.Descent` is that reader, and `Nesting.read_eq_within`
says that it reads the same nodes and reports the same fault.

The first thing to go wrong is the one that is reported. A fault of the
lexer stops the reading where it stands, as does a `)` with no frame to
close. A missing `)` shows only at the end, and then the innermost open
group is the one to blame.
-/

namespace PolyExpand

/-- A group that has been opened and not closed. -/
structure Frame where
  /-- The byte of its `(`. -/
  opened : Nat
  /-- What was read before it of the list around it, last node first. -/
  before : List Node

/-- What is held while items are read. -/
structure Nesting where
  /-- What was read of the innermost open list, last node first. -/
  done : List Node
  /-- The open groups, innermost first. -/
  frames : List Frame

namespace Nesting

/-- Nothing read, nothing open. -/
def empty : Nesting := ⟨[], []⟩

/-- Adds a node to the innermost open list. -/
def push (s : Nesting) (n : Node) : Nesting := ⟨n :: s.done, s.frames⟩

/-- Opens a group at a byte. -/
def opening (s : Nesting) (byte : Nat) : Nesting := ⟨[], ⟨byte, s.done⟩ :: s.frames⟩

/-- Closes the innermost group, for a `)` at a byte. -/
def closing (s : Nesting) (byte : Nat) : Except Malformed Nesting :=
  match s.frames with
  | [] => .error ⟨.unmatchedClose, ⟨byte, 1⟩⟩
  | f :: frames => .ok ⟨.group s.done.reverse :: f.before, frames⟩

/-- Takes one item. -/
def step (s : Nesting) (i : Item) : Except Malformed Nesting :=
  match i.token with
  | .error m => .error m
  | .ok .openParen => .ok (s.opening i.offset)
  | .ok .closeParen => s.closing i.offset
  | .ok (.marker m) => .ok (s.push (.marker m))
  | .ok (.number q) => .ok (s.push (.number q))
  | .ok (.power e) => .ok (s.push (.power e))

/-- The list that was read, once there are no more items. -/
def finish (s : Nesting) : Except Malformed (List Node) :=
  match s.frames with
  | [] => .ok s.done.reverse
  | f :: _ => .error ⟨.unclosedOpen, ⟨f.opened, 1⟩⟩

end Nesting

/-- The tree of groups that a sequence of items writes. The whole sequence
is a group too, without parentheses of its own. -/
def Node.ofItems (items : List Item) : Except Malformed Node := do
  let s ← items.foldlM Nesting.step Nesting.empty
  return .group (← s.finish)

end PolyExpand
