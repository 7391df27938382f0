import PolyExpand.Proofs.Descent
import PolyExpand.Proofs.Layout
import PolyExpand.Proofs.Reading
import PolyExpand.Proofs.Tiling

/-!
# Concatenation — texts side by side, with blanks between them

Where two texts meet, something may be read that is in neither of them: `3/` and `2` make one
number, and `x^` and `3` a power. With a blank between them nothing is read across. How far
the lexer goes depends on digits, on characters of a name, on a `^` and on a `/`, at most two
characters ahead, and a blank is none of these: in front of one it stops as it does at the end
of a text (`Lexeme.scan_append_behind`). So the first text is read as if nothing stood behind
it, even if it ends in the middle of a number or with a fault.

The second text is read as it is on its own, only from a later byte, and a step does the same
from every byte (`Cursor.next_moved`).

> `Source.read_separated`: the items of two texts with blanks between them are those of the
> first and then, moved behind the blanks, those of the second.

If the first text has a tree, no group of it is open at its end, and what is read from there
stands behind its nodes (`Nesting.read_behind`). The places of items have no influence on what
is read but on the places of reports (`Nesting.run_moved`).
-/

namespace PolyExpand

open Text

/-! ## Blanks stop everything -/

/-- A text that starts with a blank, if there is anything to it. -/
def StartsBlank (text : List Char) : Prop := ∀ c ∈ text.head?, isBlank c = true

namespace StartsBlank

variable {behind : List Char}

theorem of_gap {gap : List Char} (hne : gap ≠ []) (hgap : ∀ c ∈ gap, isBlank c = true)
    (text : List Char) : StartsBlank (gap ++ text) := by
  intro c hc
  rw [List.head?_append_of_ne_nil _ hne] at hc
  exact hgap c (List.mem_of_mem_head? hc)

theorem ne_cons (h : StartsBlank behind) {c : Char} (hc : isBlank c = false) (more : List Char) :
    behind ≠ c :: more := by
  rintro rfl
  rw [h c rfl] at hc
  cases hc

section Run

variable {p : Char → Bool} (hp : ∀ b ∈ [' ', '\t', '\r', '\n'], p b = false)
include hp

/-- A run of a class without the four blanks stops in front of it. -/
theorem stops (h : StartsBlank behind) : ∀ c ∈ behind.head?, p c = false :=
  fun c hc => hp c (isBlank_iff.mp (h c hc))

/-- What a run leaves does not go on with it, nor does it with the text behind. -/
theorem stops_dropWhile (h : StartsBlank behind) (rest : List Char) :
    ∀ c ∈ (rest.dropWhile p ++ behind).head?, p c = false := by
  cases hleft : rest.dropWhile p with
  | nil => exact h.stops hp
  | cons d left =>
    have hd := head?_dropWhile_eq_false p rest
    rw [hleft] at hd
    exact hd

theorem takeWhile_append (h : StartsBlank behind) (rest : List Char) :
    (rest ++ behind).takeWhile p = rest.takeWhile p := by
  have hrun : ∀ c ∈ rest.takeWhile p, p c = true := List.all_eq_true.mp List.all_takeWhile
  conv_lhs => rw [← rest.takeWhile_append_dropWhile (p := p), List.append_assoc]
  exact takeWhile_append_of_stop hrun (h.stops_dropWhile hp rest)

theorem dropWhile_append (h : StartsBlank behind) (rest : List Char) :
    (rest ++ behind).dropWhile p = rest.dropWhile p ++ behind := by
  have hrun : ∀ c ∈ rest.takeWhile p, p c = true := List.all_eq_true.mp List.all_takeWhile
  conv_lhs => rw [← rest.takeWhile_append_dropWhile (p := p), List.append_assoc]
  exact dropWhile_append_of_stop hrun (h.stops_dropWhile hp rest)

end Run

end StartsBlank

/-! ## One lexeme -/

namespace Lexeme

variable {behind : List Char}

theorem scanName_append_behind (h : StartsBlank behind) (c : Char) (rest : List Char) :
    scanName c (rest ++ behind) = ((scanName c rest).1, (scanName c rest).2 ++ behind) := by
  have hname : ∀ b ∈ [' ', '\t', '\r', '\n'], isNameChar b = false := by simp [isNameChar]
  have hdigit : ∀ b ∈ [' ', '\t', '\r', '\n'], b.isDigit = false := by simp
  unfold scanName
  rw [h.takeWhile_append hname, h.dropWhile_append hname]
  cases rest.dropWhile isNameChar with
  | nil =>
    split
    next after hafter => exact absurd hafter (h.ne_cons rfl after)
    next => rfl
  | cons d left =>
    by_cases hd : d = '^'
    · subst hd
      show (power _ ((left ++ behind).takeWhile Char.isDigit),
        (left ++ behind).dropWhile Char.isDigit) = _
      rw [h.takeWhile_append hdigit, h.dropWhile_append hdigit]
      rfl
    · simp [hd]

theorem scanNumber_append_behind (h : StartsBlank behind) (c : Char) (rest : List Char) :
    scanNumber c (rest ++ behind) =
      ((scanNumber c rest).1, (scanNumber c rest).2 ++ behind) := by
  have hdigit : ∀ b ∈ [' ', '\t', '\r', '\n'], b.isDigit = false := by simp
  unfold scanNumber
  rw [h.takeWhile_append hdigit, h.dropWhile_append hdigit]
  -- The digits leave nothing, or a character that may be a `/`, or one behind that as well.
  match rest.dropWhile Char.isDigit with
  | [] =>
    split
    next d after hafter => exact absurd hafter (h.ne_cons (c := '/') rfl _)
    next => rfl
  | [s] =>
    rw [List.singleton_append]
    split
    next d after hafter =>
      obtain ⟨rfl, hbehind⟩ := List.cons.inj hafter
      have hd : d.isDigit = false := h.stops hdigit d (by rw [hbehind]; rfl)
      simp [hd, hbehind]
    next => simp
  | s :: d :: after =>
    by_cases hs : s = '/'
    · subst hs
      by_cases hd : d.isDigit
      · simp [hd, h.takeWhile_append hdigit, h.dropWhile_append hdigit]
      · simp [hd]
    · simp [hs]

theorem scan_append_behind (h : StartsBlank behind) (c : Char) (rest : List Char) :
    scan c (rest ++ behind) = ((scan c rest).1, (scan c rest).2 ++ behind) := by
  unfold scan
  split
  next => exact scanName_append_behind h c rest
  next =>
    split
    next => exact scanNumber_append_behind h c rest
    next => rfl

/-- **What is found is found again** where the text goes on with a blank. -/
theorem FoundBefore.append_behind {x : Lexeme} {rest : List Char} (hx : x.FoundBefore rest)
    (h : StartsBlank behind) : x.FoundBefore (rest ++ behind) := by
  obtain ⟨c, more, htext, hc, hscan⟩ := hx
  refine ⟨c, more ++ behind, ?_, hc, ?_⟩
  · rw [← List.append_assoc, htext, List.cons_append]
  · rw [scan_append_behind h, hscan]

end Lexeme

/-! ## Reading on behind the first text -/

namespace Cursor

/-- A cursor in a text that goes on with another one. -/
def followedBy (k : Cursor) (behind : List Char) : Cursor := ⟨k.byte, k.rest ++ behind⟩

/-- The cursor in front of a text that stands behind all that is left to read. -/
def past (k : Cursor) (behind : List Char) : Cursor := ⟨k.byte + byteSize k.rest, behind⟩

theorem found_of_next {k k' : Cursor} {i : Item} (h : k.next = (some i, k')) :
    i.lexeme.FoundBefore k'.rest := by
  obtain ⟨c, rest, hc, hlexeme, hrest⟩ := lexeme_of_next h
  rw [hlexeme, hrest]
  exact Lexeme.found_scan hc rest

theorem past_of_next_some {k k' : Cursor} {i : Item} (h : k.next = (some i, k'))
    (behind : List Char) : k'.past behind = k.past behind := by
  obtain ⟨gap, htile⟩ := exists_tile h
  rw [past, past, htile.byte_eq, htile.offset_eq, htile.rest_eq, byteSize_append, byteSize_append,
    ← Nat.add_assoc, ← Nat.add_assoc]

variable {behind : List Char}

/-- A step that finds an item finds the same item if a blank stands behind the text. -/
theorem next_followedBy {k k' : Cursor} {i : Item} (h : k.next = (some i, k'))
    (hbehind : StartsBlank behind) :
    (k.followedBy behind).next = (some i, k'.followedBy behind) := by
  obtain ⟨gap, htile⟩ := exists_tile h
  have hfound := (found_of_next h).append_behind hbehind
  have hitem : i = ⟨k.byte + byteSize gap, i.lexeme⟩ := by rw [← htile.offset_eq]
  rw [followedBy, htile.rest_eq, List.append_assoc, List.append_assoc,
    next_gap fun c hc => isBlank_iff.mpr (htile.blank c hc), next_found hfound, ← hitem,
    followedBy, htile.byte_eq, htile.offset_eq]

/-- A step that finds nothing in a text goes on to the text behind it. -/
theorem next_followedBy_of_none {k k' : Cursor} (h : k.next = (none, k')) (behind : List Char) :
    (k.followedBy behind).next = (k.past behind).next :=
  next_gap (next_eq_none h).1 k.byte behind

/-- **The items of two texts** are those of the first and then those of the second, if the
second starts with a blank. -/
theorem readAll_followedBy (hbehind : StartsBlank behind) (k : Cursor) :
    (k.followedBy behind).readAll.1 = k.readAll.1 ++ (k.past behind).readAll.1 := by
  rcases hnext : k.next with ⟨_ | i, k'⟩
  · rw [readAll_congr (next_followedBy_of_none hnext behind), readAll_of_next_none hnext,
      List.nil_append]
  · have := length_rest_next hnext
    rw [readAll_of_next_some (next_followedBy hnext hbehind), readAll_of_next_some hnext,
      readAll_followedBy hbehind k', past_of_next_some hnext, List.cons_append]
termination_by k.rest.length

/-- As long as it finds items of the first text, the cursor stands where it stands without
the second. -/
theorem after_followedBy (hbehind : StartsBlank behind) (m : ℕ) : ∀ k : Cursor,
    m ≤ k.readAll.1.length → (k.followedBy behind).after m = (k.after m).followedBy behind := by
  induction m with
  | zero => exact fun k _ => rfl
  | succ m ih =>
    intro k hm
    rcases hnext : k.next with ⟨_ | i, k'⟩
    · rw [readAll_of_next_none hnext] at hm
      exact absurd hm (Nat.not_succ_le_zero m)
    · rw [readAll_of_next_some hnext] at hm
      rw [after, after, next_followedBy hnext hbehind, hnext]
      exact ih k' (Nat.le_of_succ_le_succ hm)

/-- Behind the items of the first text, the cursor stands where it stands if it starts in
front of the second. -/
theorem after_past (hbehind : StartsBlank behind) (m : ℕ) (k : Cursor) :
    (k.followedBy behind).after (k.readAll.1.length + (m + 1)) =
      (k.past behind).after (m + 1) := by
  rcases hnext : k.next with ⟨_ | i, k'⟩
  · rw [readAll_of_next_none hnext, List.length_nil, Nat.zero_add, after, after,
      next_followedBy_of_none hnext]
  · have := length_rest_next hnext
    have ih := after_past hbehind m k'
    rw [readAll_of_next_some hnext, List.length_cons, Nat.add_right_comm, after,
      next_followedBy hnext hbehind, ih, past_of_next_some hnext]
termination_by k.rest.length

end Cursor

/-! ## Reading from a later byte -/

/-- A report of a text that stands a number of bytes further on. -/
def Malformed.moved (n : ℕ) (m : Malformed) : Malformed :=
  ⟨m.fault, ⟨m.span.offset + n, m.span.length⟩⟩

/-- An item of a text that stands a number of bytes further on. -/
def Item.moved (n : ℕ) (i : Item) : Item := ⟨i.offset + n, i.lexeme⟩

/-- The token stays what it is, and the report is moved. -/
theorem Item.token_moved (n : ℕ) (i : Item) :
    (i.moved n).token = i.token.mapError (Malformed.moved n) := by
  obtain ⟨offset, lexeme⟩ := i
  cases lexeme with
  | token t literal => rfl
  | fault f before culprit =>
    show Except.error _ = Except.error (Malformed.moved n _)
    rw [Malformed.moved, moved, Nat.add_right_comm]

namespace Cursor

/-- A cursor in a text that stands a number of bytes further on. -/
def moved (n : ℕ) (k : Cursor) : Cursor := ⟨k.byte + n, k.rest⟩

/-- **A step does the same from every byte.** -/
theorem next_moved (n : ℕ) (k : Cursor) :
    (k.moved n).next = (k.next.1.map (Item.moved n), k.next.2.moved n) := by
  obtain ⟨b, rest⟩ := k
  have hskip : skipBlanks ⟨b + n, rest⟩ = (skipBlanks ⟨b, rest⟩).moved n := by
    rw [skipBlanks, skipBlanks, moved, Nat.add_right_comm]
  rw [moved, next, next, hskip]
  cases hrest : (skipBlanks ⟨b, rest⟩).rest with
  | nil => simp [moved, hrest]
  | cons c more => simp [moved, hrest, Item.moved, Nat.add_right_comm]

theorem readAll_moved (n : ℕ) (k : Cursor) :
    (k.moved n).readAll.1 = k.readAll.1.map (Item.moved n) := by
  have hmoved := next_moved n k
  rcases hnext : k.next with ⟨_ | i, k'⟩
  · rw [hnext] at hmoved
    rw [readAll_of_next_none hmoved, readAll_of_next_none hnext, List.map_nil]
  · have := length_rest_next hnext
    rw [hnext] at hmoved
    rw [readAll_of_next_some hmoved, readAll_of_next_some hnext, List.map_cons,
      readAll_moved n k']
termination_by k.rest.length

theorem after_moved (n m : ℕ) : ∀ k : Cursor, (k.moved n).after m = (k.after m).moved n := by
  induction m with
  | zero => exact fun k => rfl
  | succ m ih =>
    intro k
    rw [after, after, next_moved, ih]

end Cursor

namespace Nesting

/-- What is held of a text that stands a number of bytes further on. -/
def moved (n : ℕ) (s : Nesting) : Nesting :=
  ⟨s.done, s.frames.map fun f => ⟨f.opened + n, f.before⟩⟩

theorem closing_moved (n byte : ℕ) (s : Nesting) :
    (s.moved n).closing (byte + n) =
      ((s.closing byte).map (moved n)).mapError (Malformed.moved n) := by
  obtain ⟨done, frames⟩ := s
  cases frames with
  | nil => rfl
  | cons f frames => rfl

/-- One item changes what is held in the same way, wherever it stands. -/
theorem step_moved (n : ℕ) (s : Nesting) (i : Item) :
    (s.moved n).step (i.moved n) = ((s.step i).map (moved n)).mapError (Malformed.moved n) := by
  rw [step, step, Item.token_moved]
  cases i.token with
  | error m => rfl
  | ok t =>
    cases t with
    | openParen => rfl
    | closeParen => exact closing_moved n i.offset s
    | marker m => rfl
    | number q => rfl
    | power e => rfl

theorem finish_moved (n : ℕ) (s : Nesting) :
    (s.moved n).finish = s.finish.mapError (Malformed.moved n) := by
  obtain ⟨done, frames⟩ := s
  cases frames with
  | nil => rfl
  | cons f frames => rfl

/-- **Places of items are places of reports**, and nothing else depends on them. -/
theorem run_moved (n : ℕ) : ∀ (items : List Item) (s : Nesting),
    (s.moved n).run (items.map (Item.moved n)) = (s.run items).mapError (Malformed.moved n)
  | [], s => finish_moved n s
  | i :: items, s => by
    rw [List.map_cons, run_cons, run_cons, step_moved]
    cases s.step i with
    | error m => rfl
    | ok s' => exact run_moved n items s'

theorem read_moved (n : ℕ) (k : Cursor) :
    empty.read (k.moved n) = (empty.read k).mapError (Malformed.moved n) := by
  rw [read, read, Cursor.readAll_moved]
  exact run_moved n k.readAll.1 empty

/-! ## Reading behind nodes -/

/-- Where nothing is open, what was read before stays in front of what is read. -/
theorem read_behind (front : List Node) (k : Cursor) :
    read ⟨front.reverse, []⟩ k = (empty.read k).map (front ++ ·) := by
  rw [read_eq_within, read_eq_within]
  show (within none k >>= fun w => leave ⟨front.reverse, []⟩ w.nodes w.after) =
    (within none k >>= fun w => leave empty w.nodes w.after).map (front ++ ·)
  cases within none k with
  | error m => rfl
  | ok w =>
    show Except.ok (front.reverse.reverse ++ w.nodes) = Except.ok (front ++ w.nodes)
    rw [List.reverse_reverse]

/-- Items that can be read to the end can be read on from there. -/
theorem run_append {s : Nesting} {items : List Item} {cs : List Node} (h : s.run items = .ok cs)
    (more : List Item) : s.run (items ++ more) = run ⟨cs.reverse, []⟩ more := by
  induction items generalizing s with
  | nil =>
    obtain ⟨done, frames⟩ := s
    cases frames with
    | nil =>
      obtain rfl : done.reverse = cs := Except.ok.inj h
      rw [List.reverse_reverse, List.nil_append]
    | cons f frames => cases h
  | cons i items ih =>
    rw [run_cons] at h
    rw [List.cons_append, run_cons]
    cases hstep : s.step i with
    | error m =>
      rw [hstep] at h
      cases h
    | ok s' =>
      rw [hstep] at h
      exact ih h

end Nesting

/-! ## Two texts and the blanks between them -/

section Separated

variable (a b : List Char) {gap : List Char}

namespace Cursor

theorem start_separated (gap : List Char) :
    start (a ++ gap ++ b) = (start a).followedBy (gap ++ b) := by
  rw [start, start, followedBy, List.append_assoc]

variable (hne : gap ≠ []) (hgap : ∀ c ∈ gap, isBlank c = true)
include hgap

/-- Behind the first text, the blanks are passed and the second is read from there. -/
theorem next_past_start :
    ((start a).past (gap ++ b)).next = ((start b).moved (byteSize a + byteSize gap)).next := by
  rw [past, next_gap hgap, start, start, moved, Nat.zero_add, Nat.zero_add]

include hne

theorem readAll_separated : (start (a ++ gap ++ b)).readAll.1 =
    (start a).readAll.1 ++ (start b).readAll.1.map (Item.moved (byteSize a + byteSize gap)) := by
  rw [start_separated, readAll_followedBy (.of_gap hne hgap b),
    readAll_congr (next_past_start a b hgap), readAll_moved]

theorem after_separated (m : ℕ) :
    (start (a ++ gap ++ b)).after ((start a).readAll.1.length + (m + 1)) =
      ((start b).after (m + 1)).moved (byteSize a + byteSize gap) := by
  rw [start_separated, after_past (.of_gap hne hgap b), after, next_past_start a b hgap,
    next_moved, after_moved, after]

end Cursor

/-- What is read of the second text is held behind the nodes of the first, and reports are
moved. -/
theorem Nesting.read_behind_gap (hne : gap ≠ []) (hgap : ∀ c ∈ gap, isBlank c = true)
    {ca : List Node} (ha : empty.read (Cursor.start a) = .ok ca) :
    empty.read (Cursor.start (a ++ gap ++ b)) =
      ((empty.read (Cursor.start b)).mapError
        (Malformed.moved (byteSize a + byteSize gap))).map (ca ++ ·) := by
  let n := byteSize a + byteSize gap
  let items := (Cursor.start b).readAll.1
  calc empty.read (Cursor.start (a ++ gap ++ b))
    _ = empty.run ((Cursor.start a).readAll.1 ++ items.map (Item.moved n)) := by
      rw [read, Cursor.readAll_separated a b hne hgap]
    _ = run ⟨ca.reverse, []⟩ (items.map (Item.moved n)) := run_append ha _
    _ = read ⟨ca.reverse, []⟩ ((Cursor.start b).moved n) := by rw [read, Cursor.readAll_moved]
    _ = (empty.read ((Cursor.start b).moved n)).map (ca ++ ·) := read_behind ca _
    _ = ((empty.read (Cursor.start b)).mapError (Malformed.moved n)).map (ca ++ ·) := by
      rw [read_moved]

end Separated

namespace Source

/-- The nodes read from a text are those of its tree, and its report is that of the text. -/
theorem read_of_tree {s : Source} {x : Except Malformed (List Node)}
    (h : s.tree = x.map Node.group) : Nesting.empty.read (Cursor.start s.text.toList) = x := by
  rw [tree_eq_read] at h
  cases hread : Nesting.empty.read (Cursor.start s.text.toList) with
  | error m =>
    rw [hread] at h
    cases x with
    | error m' => rw [Except.error.inj h]
    | ok cs => cases h
  | ok ds =>
    rw [hread] at h
    cases x with
    | error m' => cases h
    | ok cs => rw [Node.group.inj (Except.ok.inj h)]

/-- **Texts with blanks between them are read one after the other**, faults included. The
items are those of the first text and then those of the second, moved behind the blanks, and
the same holds of the tokens and reports. The cursor takes the places it takes in the first
text, with the blanks and the second text left to read, and then those it takes in the
second.

If the first text has a tree, the nodes of the second stand behind its nodes, and what is
wrong with the second is reported where it stands now. -/
theorem read_separated (a b : Source) {gap : String} (hne : gap ≠ "")
    (hgap : ∀ c ∈ gap.toList, c ∈ [' ', '\t', '\r', '\n']) (name? : Option String) :
    let s : Source := ⟨a.text ++ gap ++ b.text, name?⟩
    let n := a.text.utf8ByteSize + gap.utf8ByteSize
    s.items = a.items ++ b.items.map (Item.moved n) ∧
    s.items.map Item.token = a.items.map Item.token ++
      b.items.map (fun i => i.token.mapError (Malformed.moved n)) ∧
    (∀ m ≤ a.items.length, (Cursor.start s.text.toList).after m =
      ((Cursor.start a.text.toList).after m).followedBy (gap.toList ++ b.text.toList)) ∧
    (∀ m, (Cursor.start s.text.toList).after (a.items.length + (m + 1)) =
      ((Cursor.start b.text.toList).after (m + 1)).moved n) ∧
    ∀ ca, a.tree = .ok (.group ca) →
      (∀ cb, b.tree = .ok (.group cb) → s.tree = .ok (.group (ca ++ cb))) ∧
      ∀ m, b.tree = .error m → s.tree = .error (m.moved n) := by
  intro s n
  have hne' : gap.toList ≠ [] := by simpa using hne
  have hblank : ∀ c ∈ gap.toList, isBlank c = true := fun c hc => isBlank_iff.mpr (hgap c hc)
  have hstarts := StartsBlank.of_gap hne' hblank b.text.toList
  have htext : s.text.toList = a.text.toList ++ gap.toList ++ b.text.toList := by
    simp [s]
  have hn : n = byteSize a.text.toList + byteSize gap.toList := by
    rw [byteSize_toList, byteSize_toList]
  have hitems : s.items = a.items ++ b.items.map (Item.moved n) := by
    rw [items, read, htext, hn]
    exact Cursor.readAll_separated _ _ hne' hblank
  refine ⟨hitems, ?_, fun m hm => ?_, fun m => ?_, fun ca ha => ?_⟩
  · rw [hitems, List.map_append, List.map_map]
    exact congrArg _ (List.map_congr_left fun i _ => Item.token_moved n i)
  · rw [htext, Cursor.start_separated]
    exact Cursor.after_followedBy hstarts m _ hm
  · rw [htext, hn]
    exact Cursor.after_separated _ _ hne' hblank m
  · have hread := Nesting.read_behind_gap _ b.text.toList hne' hblank
      (read_of_tree (x := .ok ca) ha)
    refine ⟨fun cb hb => ?_, fun m hb => ?_⟩
    · rw [tree_eq_read, htext, hread, read_of_tree (x := .ok cb) hb]
      rfl
    · rw [tree_eq_read, htext, hread, hn, read_of_tree (x := .error m) hb]
      rfl

/-- The blanks keep a `/` from its denominator, a tree in front of another one, and a `)` at
its place. -/
theorem read_separated_cut :
    (⟨"3/\r\n2x^", none⟩ : Source).items.map Item.token =
      [.ok (.number 3), .error ⟨.unexpectedCharacter '/', ⟨1, 1⟩⟩, .ok (.number 2),
        .error ⟨.invalidNumber .missingExponent, ⟨6, 1⟩⟩] ∧
    (⟨"(x) -2", none⟩ : Source).tree =
      .ok (.group [.group [.power 1], .marker .minus, .number 2]) ∧
    (⟨"(x) y)", none⟩ : Source).tree = .error ⟨.unmatchedClose, ⟨5, 1⟩⟩ := by
  have htree : (⟨"(x)", none⟩ : Source).tree = .ok (.group [.group [.power 1]]) := by
    decide +kernel
  have hsecond : (⟨"-2", none⟩ : Source).tree = .ok (.group [.marker .minus, .number 2]) := by
    decide +kernel
  have hreport : (⟨"y)", none⟩ : Source).tree = .error ⟨.unmatchedClose, ⟨1, 1⟩⟩ := by
    decide +kernel
  obtain ⟨-, htokens, -⟩ :=
    read_separated ⟨"3/", none⟩ ⟨"2x^", none⟩ (by simp : "\r\n" ≠ "") (by simp) none
  obtain ⟨-, -, -, -, hone⟩ :=
    read_separated ⟨"(x)", none⟩ ⟨"-2", none⟩ (by simp : " " ≠ "") (by simp) none
  obtain ⟨-, -, -, -, hother⟩ :=
    read_separated ⟨"(x)", none⟩ ⟨"y)", none⟩ (by simp : " " ≠ "") (by simp) none
  refine ⟨?_, (hone _ htree).1 _ hsecond, (hother _ htree).2 _ hreport⟩
  refine htokens.trans ?_
  decide +kernel

end Source

end PolyExpand
