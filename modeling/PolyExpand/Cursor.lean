import PolyExpand.Lexeme

/-!
# Cursors — reading a text from its first byte to its last

A cursor is a position in a text: the number of bytes before it and the
characters after it. `next` passes over blanks and reads one lexeme, which
becomes an *item* by being given the byte it starts at. Reading never gives
up: after a fault it goes on behind the faulty segment, so that the items of
a text (`readAll`) are all there is to find in it, faults included. Whoever
wants the first fault only, takes the items in order and stops there.

A step counts its bytes at two points only, behind the gap of blanks and
behind the whole lexeme. A reader that keeps one position while it reads has
to count at six: at a character, at the rest of a name or of a number, at a
`^`, at a `/` and at a run of digits, and it reports from where it stands.
`Cursor.walk` in `PolyExpand.Proofs.Moves` is that reader, and
`walk_eq_next` says that it finds the same at the same bytes.

`next_eq_some` says what a step does to the text: a gap of blanks, then the
segment, and the cursor behind it. `next_eq_none` says that a step finds
nothing only when nothing but blanks is left, and that the cursor is then
at the end. Since a segment is never empty, reading comes to its end
(`readAll` recurses on the number of characters left).
-/

namespace PolyExpand

open Text

/-- A lexeme, and the byte at which it starts. -/
structure Item where
  offset : Nat
  lexeme : Lexeme
deriving DecidableEq

namespace Item

/-- The byte behind an item. -/
def stop (i : Item) : Nat := i.offset + byteSize i.lexeme.segment

/-- The token that an item is, or what is malformed about it: the report
covers the culprit and nothing before it. -/
def token (i : Item) : Except Malformed Token :=
  match i.lexeme with
  | .token t _ => .ok t
  | .fault f before culprit =>
    .error ⟨f, ⟨i.offset + byteSize before, byteSize culprit⟩⟩

end Item

/-- A position in a text. -/
structure Cursor where
  /-- How many bytes have been read. -/
  byte : Nat
  /-- What has not been read. -/
  rest : List Char
deriving DecidableEq

namespace Cursor

/-- The position before the first character. -/
def start (text : List Char) : Cursor := ⟨0, text⟩

/-- Moves over the blanks in front of the cursor. -/
def skipBlanks (k : Cursor) : Cursor :=
  ⟨k.byte + byteSize (k.rest.takeWhile isBlank), k.rest.dropWhile isBlank⟩

/-- Reads one item, if there is one, and moves behind it. -/
def next (k : Cursor) : Option Item × Cursor :=
  let here := k.skipBlanks
  match here.rest with
  | [] => (none, here)
  | c :: rest =>
    let (lexeme, left) := Lexeme.scan c rest
    (some ⟨here.byte, lexeme⟩, ⟨here.byte + byteSize lexeme.segment, left⟩)

/-- A step that finds an item has passed a gap of blanks and the segment of
the item, which is not empty, and stands behind it. -/
theorem next_eq_some {k k' : Cursor} {i : Item} (h : k.next = (some i, k')) :
    ∃ gap, (∀ c ∈ gap, isBlank c = true) ∧ i.lexeme.segment ≠ [] ∧
      k.rest = gap ++ i.lexeme.segment ++ k'.rest ∧
      i.offset = k.byte + byteSize gap ∧ k'.byte = i.stop := by
  refine ⟨k.rest.takeWhile isBlank, fun c hc => ?_, ?_⟩
  · exact List.all_eq_true.mp (List.all_takeWhile (p := isBlank)) c hc
  have split_rest := k.rest.takeWhile_append_dropWhile (p := isBlank)
  simp only [next, skipBlanks] at h
  split at h
  next => simp at h
  next c rest hrest =>
    obtain ⟨more, hmore⟩ := Lexeme.scan_segment c rest
    have happend := Lexeme.scan_append c rest
    simp only [Prod.mk.injEq, Option.some.injEq] at h
    obtain ⟨rfl, rfl⟩ := h
    refine ⟨by simp [hmore], ?_, rfl, rfl⟩
    rw [hrest, ← happend, ← List.append_assoc] at split_rest
    exact split_rest.symm

/-- A step that finds nothing has passed blanks only, and stands at the end. -/
theorem next_eq_none {k k' : Cursor} (h : k.next = (none, k')) :
    (∀ c ∈ k.rest, isBlank c = true) ∧ k' = ⟨k.byte + byteSize k.rest, []⟩ := by
  have split_rest := k.rest.takeWhile_append_dropWhile (p := isBlank)
  simp only [next, skipBlanks] at h
  split at h
  next hrest =>
    rw [hrest, List.append_nil] at split_rest
    simp only [Prod.mk.injEq, true_and] at h
    rw [hrest, split_rest] at h
    refine ⟨fun c hc => ?_, h.symm⟩
    rw [← split_rest] at hc
    exact List.all_eq_true.mp (List.all_takeWhile (p := isBlank)) c hc
  next => simp at h

/-- Every item leaves less text to read. -/
theorem length_rest_next {k k' : Cursor} {i : Item} (h : k.next = (some i, k')) :
    k'.rest.length < k.rest.length := by
  obtain ⟨gap, _, hne, hrest, _⟩ := next_eq_some h
  have := List.length_pos_iff.mpr hne
  simp [hrest]
  omega

/-- Reads to the end: every item in order, and the cursor at which nothing
more was found. -/
def readAll (k : Cursor) : List Item × Cursor :=
  match _h : k.next with
  | (none, last) => ([], last)
  | (some i, k') =>
    let (items, last) := readAll k'
    (i :: items, last)
termination_by k.rest.length
decreasing_by exact length_rest_next _h

theorem readAll_of_next_none {k k' : Cursor} (h : k.next = (none, k')) :
    k.readAll = ([], k') := by
  rw [readAll]
  split <;> simp_all

theorem readAll_of_next_some {k k' : Cursor} {i : Item} (h : k.next = (some i, k')) :
    k.readAll = (i :: k'.readAll.1, k'.readAll.2) := by
  rw [readAll]
  split <;> simp_all

end Cursor

end PolyExpand
