import PolyExpand.Proofs.Balance
import PolyExpand.Source

/-!
# Descent — one call for every group

`Nesting` keeps the open groups in a list of frames, and a text is read before
they are looked at. They could as well be the calls that have not returned yet,
all of them reading from one cursor: `within` reads up to the `)` that closes the
group it was called for, and calls itself for every `(` on the way. The two must
not differ in anything, neither in the tree nor in which report comes first, and
in particular the end of the text has to be blamed on the last call.

What a call returns goes to its caller, and `Nesting.leave` says what the caller
does with it in terms of frames. Reading on from any state is a call for the
innermost group, and then whatever the callers do:

> `read_eq_within`, and with nothing open `Source.tree_eq_within`.
-/

namespace PolyExpand

/-- What a call has read: the nodes of its group, and the cursor behind it. -/
structure Within (k : Cursor) where
  nodes : List Node
  after : Cursor
  after_le : after.rest.length ≤ k.rest.length

/-- Puts a node in front that was read before. -/
def Within.cons {k k' : Cursor} (h : k'.rest.length ≤ k.rest.length) (n : Node) (w : Within k') :
    Within k :=
  ⟨n :: w.nodes, w.after, Nat.le_trans w.after_le h⟩

/-- Reads a group to its end. `opened?` is the byte of its `(`; the outermost list
has none, and ends with the text. -/
def within (opened? : Option Nat) (k : Cursor) : Except Malformed (Within k) :=
  match h : k.next with
  | (none, k') =>
    match opened? with
    | none => .ok ⟨[], k', by simp [(Cursor.next_eq_none h).2]⟩
    | some byte => .error ⟨.unclosedOpen, ⟨byte, 1⟩⟩
  | (some i, k') =>
    have hlt := Cursor.length_rest_next h
    match i.token with
    | .error m => .error m
    | .ok .openParen => do
      let inner ← within (some i.offset) k'
      have hle := Nat.le_trans inner.after_le (Nat.le_of_lt hlt)
      let more ← within opened? inner.after
      return more.cons hle (.group inner.nodes)
    | .ok .closeParen =>
      match opened? with
      | none => .error ⟨.unmatchedClose, ⟨i.offset, 1⟩⟩
      | some _ => .ok ⟨[], k', Nat.le_of_lt hlt⟩
    | .ok (.marker m) => (within opened? k').map (Within.cons (Nat.le_of_lt hlt) (.marker m))
    | .ok (.number q) => (within opened? k').map (Within.cons (Nat.le_of_lt hlt) (.number q))
    | .ok (.power e) => (within opened? k').map (Within.cons (Nat.le_of_lt hlt) (.power e))
termination_by k.rest.length
decreasing_by
  all_goals first
    | exact hlt
    | exact Nat.lt_of_le_of_lt inner.after_le hlt

namespace Nesting

/-- The byte of the `(` of the innermost open group, if one is open. -/
def innermost? (s : Nesting) : Option Nat := s.frames.head?.map Frame.opened

/-- Goes on after the innermost group has been read: it becomes a node of the list
around it, and without a list around it this is the end. -/
def leave (s : Nesting) (nodes : List Node) (after : Cursor) : Except Malformed (List Node) :=
  match s.frames with
  | [] => .ok (s.done.reverse ++ nodes)
  | f :: frames => read ⟨.group (s.done.reverse ++ nodes) :: f.before, frames⟩ after

theorem leave_push (s : Nesting) (n : Node) (nodes : List Node) (after : Cursor) :
    (s.push n).leave nodes after = s.leave (n :: nodes) after := by
  simp only [leave, push, List.reverse_cons, List.append_assoc, List.singleton_append]

theorem leave_opening (s : Nesting) (byte : Nat) (nodes : List Node) (after : Cursor) :
    (s.opening byte).leave nodes after = (s.push (.group nodes)).read after := by
  simp only [leave, opening, push, List.reverse_nil, List.nil_append]

/-- Going on with a node in front is going on from the state that holds it. -/
theorem bind_cons {k k' : Cursor} (h : k'.rest.length ≤ k.rest.length) (n : Node) (s : Nesting)
    (r : Except Malformed (Within k')) :
    (r.map (Within.cons h n) >>= fun w => s.leave w.nodes w.after) =
      r >>= fun w => (s.push n).leave w.nodes w.after := by
  cases r with
  | error m => rfl
  | ok w => exact (leave_push s n w.nodes w.after).symm

/-- **Reading on is a call** for the innermost group, and then what is left to do. -/
theorem read_eq_within (k : Cursor) (s : Nesting) :
    s.read k = within s.innermost? k >>= fun w => s.leave w.nodes w.after := by
  rw [within.eq_def]
  split
  next k' h =>
    rw [read_of_next_none h]
    obtain ⟨done, frames⟩ := s
    cases frames with
    | nil =>
      show Except.ok done.reverse = .ok (done.reverse ++ [])
      rw [List.append_nil]
    | cons f frames => rfl
  next i k' h =>
    have hlt := Cursor.length_rest_next h
    -- A leaf is pushed by the one, and put in front of what comes by the other.
    have hleaf : ∀ (t : Token) (n : Node), i.token = .ok t → t.leaf? = some n →
        s.read k = (within s.innermost? k').map (Within.cons (Nat.le_of_lt hlt) n) >>=
          fun w => s.leave w.nodes w.after := by
      intro t n htoken hn
      rw [read_of_next_some h, step_leaf htoken hn, bind_cons]
      exact read_eq_within k' (s.push n)
    split
    next m htoken =>
      have hstep : s.step i = .error m := by rw [step, htoken]
      rw [read_of_next_some h, hstep]
      rfl
    next htoken =>
      have hstep : s.step i = .ok (s.opening i.offset) := by rw [step, htoken]
      have ih := read_eq_within k' (s.opening i.offset)
      rw [read_of_next_some h, hstep]
      refine ih.trans ?_
      show within (some i.offset) k' >>= _ = (within (some i.offset) k' >>= _) >>= _
      cases within (some i.offset) k' with
      | error m => rfl
      | ok inner =>
        -- The call for the group has returned, and its caller goes on.
        have hinner := inner.after_le
        have ih' := read_eq_within inner.after (s.push (.group inner.nodes))
        refine (leave_opening s i.offset inner.nodes inner.after).trans (ih'.trans ?_)
        exact (bind_cons _ _ s (within s.innermost? inner.after)).symm
    next htoken =>
      have hstep : s.step i = s.closing i.offset := by rw [step, htoken]
      rw [read_of_next_some h, hstep]
      obtain ⟨done, frames⟩ := s
      cases frames with
      | nil => rfl
      | cons f frames =>
        show read ⟨.group done.reverse :: f.before, frames⟩ k' =
          read ⟨.group (done.reverse ++ []) :: f.before, frames⟩ k'
        rw [List.append_nil]
    next m htoken => exact hleaf _ _ htoken rfl
    next q htoken => exact hleaf _ _ htoken rfl
    next e htoken => exact hleaf _ _ htoken rfl
termination_by k.rest.length

end Nesting

/-- The tree of a text is what is read from its first byte, with nothing held. -/
theorem Source.tree_eq_read (s : Source) :
    s.tree = (Nesting.empty.read (Cursor.start s.text.toList)).map Node.group :=
  Node.ofItems_eq_run _

/-- **The tree of a text is what one call reads**, from its first byte. -/
theorem Source.tree_eq_within (s : Source) :
    s.tree = (within none (Cursor.start s.text.toList)).map fun w => .group w.nodes := by
  rw [tree_eq_read, Nesting.read_eq_within]
  show (within none _ >>= fun w => Except.ok w.nodes).map Node.group = _
  cases within none (Cursor.start s.text.toList) with
  | error m => rfl
  | ok w => rfl

end PolyExpand
