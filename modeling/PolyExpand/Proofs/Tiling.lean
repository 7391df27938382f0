import PolyExpand.Proofs.Moves
import PolyExpand.Proofs.Reading

/-!
# Tiling — a text is its gaps and its segments

A cursor keeps its position twice, as a number of bytes and as the text that has
not been read. The two say the same after any number of steps (`Cursor.At`): what
has been read is a front part of the text, and `byte` is its size, so the position
never falls into the middle of a character.

A step that finds something lays one `Tile`: a gap of blanks, and behind it a
segment that starts with another character. That holds of faults as it does of
tokens. The bytes that a report points at lie in the segment, and reading goes on
behind it.

> `Source.tiled`: from any number of steps on, a step lays a tile or finds nothing
> but the end of the text, and finds it for ever after; the gaps and the segments
> of all tiles, one behind the other, are the text. Steps that count at every move
> come by the same places, and find the same.
-/

namespace PolyExpand

open Text

theorem Text.isBlank_iff {c : Char} : isBlank c = true ↔ c ∈ [' ', '\t', '\r', '\n'] := by
  simp [isBlank, or_assoc]

/-! ## Culprits -/

namespace Lexeme

/-- A fault has a culprit of at least one character. -/
def Blames (x : Lexeme) : Prop := ∀ f before culprit, x = .fault f before culprit → culprit ≠ []

theorem blames_whole (digits : List Char) : (whole digits).Blames := by
  intro f before culprit h
  cases h

theorem blames_fraction (numerator denominator : List Char) :
    (fraction numerator denominator).Blames := by
  intro f before culprit h
  simp only [fraction] at h
  split at h
  next =>
    injection h with _ _ hculprit
    rw [← hculprit]
    simp
  next => cases h

/-- Without digits the `^` is to blame, and otherwise there are digits. -/
theorem blames_power (name digits : List Char) : (power name digits).Blames := by
  intro f before culprit h
  unfold power at h
  split at h
  next =>
    injection h with _ _ hculprit
    rw [← hculprit]
    simp
  next hdigits =>
    split at h
    next =>
      injection h with _ _ hculprit
      rw [← hculprit]
      exact hdigits
    next => cases h

theorem blames_sign (c : Char) : (sign c).Blames := by
  intro f before culprit h
  by_cases hopen : c = '('
  · rw [sign, if_pos hopen] at h
    cases h
  by_cases hclose : c = ')'
  · rw [sign, if_neg hopen, if_pos hclose] at h
    cases h
  rw [sign, if_neg hopen, if_neg hclose] at h
  split at h
  next => cases h
  next =>
    injection h with _ _ hculprit
    rw [← hculprit]
    simp

theorem blames_scan (c : Char) (rest : List Char) : (scan c rest).1.Blames :=
  forall_scan blames_whole blames_fraction blames_power
    (fun _ _ _ _ h => by cases h) blames_sign c rest

end Lexeme

namespace Cursor

/-! ## One step -/

/-- A step from `k` to `k'` has passed a gap and found an item behind it. -/
structure Tile (k : Cursor) (gap : List Char) (i : Item) (k' : Cursor) : Prop where
  blank : ∀ c ∈ gap, c ∈ [' ', '\t', '\r', '\n']
  /-- The segment has a first character, and the gap has ended before it. -/
  starts : ∃ c more, i.lexeme.segment = c :: more ∧ c ∉ [' ', '\t', '\r', '\n']
  rest_eq : k.rest = gap ++ i.lexeme.segment ++ k'.rest
  offset_eq : i.offset = k.byte + byteSize gap
  byte_eq : k'.byte = i.offset + byteSize i.lexeme.segment
  /-- A token is written with the whole segment. -/
  literal_eq : ∀ t, i.token = .ok t → i.lexeme = .token t i.lexeme.segment
  /-- A report points at whole characters of the segment, and at one at least. -/
  report : ∀ m, i.token = .error m → ∃ before culprit,
    i.lexeme.segment = before ++ culprit ∧ culprit ≠ [] ∧
      m.span = ⟨i.offset + byteSize before, byteSize culprit⟩

theorem exists_tile {k k' : Cursor} {i : Item} (h : k.next = (some i, k')) :
    ∃ gap, Tile k gap i k' := by
  obtain ⟨gap, hgap, -, hrest, hoffset, hbyte⟩ := next_eq_some h
  obtain ⟨c, left, hc, hlexeme, -⟩ := lexeme_of_next h
  obtain ⟨more, hmore⟩ := Lexeme.scan_segment c left
  rw [← hlexeme] at hmore
  refine ⟨gap, ?_, ⟨c, more, hmore, ?_⟩, hrest, hoffset, hbyte, ?_, ?_⟩
  · exact fun d hd => isBlank_iff.mp (hgap d hd)
  · intro hmem
    rw [isBlank_iff.mpr hmem] at hc
    exact absurd hc (by decide)
  · intro t ht
    cases hcase : i.lexeme with
    | fault f before culprit => simp [Item.token, hcase] at ht
    | token u literal =>
      obtain rfl : u = t := by simpa [Item.token, hcase] using ht
      rfl
  · intro m hm
    cases hcase : i.lexeme with
    | token t literal => simp [Item.token, hcase] at hm
    | fault f before culprit =>
      obtain rfl : _ = m := by simpa [Item.token, hcase] using hm
      exact ⟨before, culprit, rfl,
        Lexeme.blames_scan c left f before culprit (hlexeme.symm.trans hcase), rfl⟩

/-! ## Any number of steps -/

/-- The cursor after a number of steps, whatever they find. -/
def after (k : Cursor) : Nat → Cursor
  | 0 => k
  | n + 1 => k.next.2.after n

/-- The cursor after a number of steps that count at every move. -/
def walked (k : Cursor) : Nat → Cursor
  | 0 => k
  | n + 1 => k.walk.2.walked n

theorem walked_eq_after (n : Nat) : ∀ k : Cursor, k.walked n = k.after n := by
  induction n with
  | zero => exact fun _ => rfl
  | succ n ih =>
    intro k
    rw [walked, after, ih, walk_eq_next]

/-- The cursor stands in a text, between two of its characters or at an end. -/
def At (text : List Char) (k : Cursor) : Prop :=
  ∃ before, text = before ++ k.rest ∧ k.byte = byteSize before

theorem at_start (text : List Char) : (start text).At text := ⟨[], rfl, rfl⟩

theorem At.next {text : List Char} {k : Cursor} (h : k.At text) : k.next.2.At text := by
  obtain ⟨before, htext, hbyte⟩ := h
  rcases hnext : k.next with ⟨_ | i, k'⟩
  · obtain ⟨-, rfl⟩ := next_eq_none hnext
    refine ⟨text, by simp, ?_⟩
    show k.byte + byteSize k.rest = byteSize text
    rw [htext, byteSize_append, hbyte]
  · obtain ⟨gap, htile⟩ := exists_tile hnext
    refine ⟨before ++ gap ++ i.lexeme.segment, ?_, ?_⟩
    · show text = _ ++ k'.rest
      rw [htext, htile.rest_eq]
      simp
    · show k'.byte = _
      rw [htile.byte_eq, htile.offset_eq, hbyte, byteSize_append, byteSize_append]

theorem At.after {text : List Char} (n : Nat) : ∀ {k : Cursor}, k.At text → (k.after n).At text := by
  induction n with
  | zero => exact fun h => h
  | succ n ih => exact fun h => ih h.next

/-- Where a step finds nothing, no later step finds anything, or moves. -/
theorem after_of_next_none {k k' : Cursor} (h : k.next = (none, k')) (n : Nat) :
    k'.after n = k' ∧ k'.next = (none, k') := by
  obtain ⟨-, hk'⟩ := next_eq_none h
  have hnext : k'.next = (none, k') := by
    rw [hk']
    rfl
  refine ⟨?_, hnext⟩
  induction n with
  | zero => rfl
  | succ n ih =>
    rw [after, hnext]
    exact ih

/-- The items of a text are what its steps find, in order. -/
theorem getElem?_readAll (n : Nat) : ∀ k : Cursor, k.readAll.1[n]? = (k.after n).next.1 := by
  induction n with
  | zero =>
    intro k
    rcases hnext : k.next with ⟨_ | i, k'⟩
    · rw [readAll_of_next_none hnext, after, hnext]
      rfl
    · rw [readAll_of_next_some hnext, after, hnext]
      rfl
  | succ n ih =>
    intro k
    rcases hnext : k.next with ⟨_ | i, k'⟩
    · obtain ⟨hafter, hnone⟩ := after_of_next_none hnext n
      rw [readAll_of_next_none hnext, after, hnext, hafter, hnone]
      rfl
    · rw [readAll_of_next_some hnext, after, hnext, List.getElem?_cons_succ]
      exact ih k'

/-! ## The whole text -/

/-- The text in front of a cursor is made of the gaps and the segments of all items,
and of blanks at its end. -/
theorem exists_tiles (k : Cursor) : ∃ (gaps : List (List Char × Item)) (last : List Char),
    k.readAll.1 = gaps.map Prod.snd ∧
    (∀ g ∈ gaps, ∀ c ∈ g.1, c ∈ [' ', '\t', '\r', '\n']) ∧
    (∀ c ∈ last, c ∈ [' ', '\t', '\r', '\n']) ∧
    k.rest = (gaps.flatMap fun (gap, i) => gap ++ i.lexeme.segment) ++ last := by
  rcases hnext : k.next with ⟨_ | i, k'⟩
  · obtain ⟨hblank, -⟩ := next_eq_none hnext
    refine ⟨[], k.rest, ?_, by simp, fun c hc => isBlank_iff.mp (hblank c hc), by simp⟩
    rw [readAll_of_next_none hnext]
    rfl
  · have := length_rest_next hnext
    obtain ⟨gap, htile⟩ := exists_tile hnext
    obtain ⟨gaps, last, hitems, hgaps, hlast, hrest⟩ := exists_tiles k'
    refine ⟨(gap, i) :: gaps, last, ?_, ?_, hlast, ?_⟩
    · rw [readAll_of_next_some hnext, hitems]
      rfl
    · exact List.forall_mem_cons.mpr ⟨htile.blank, hgaps⟩
    · rw [htile.rest_eq, hrest, List.flatMap_cons]
      simp
termination_by k.rest.length

end Cursor

namespace Source

/-- **A text is tiled by what is read of it**, faults included. The items are what
the steps find, one by one. After any number of steps the cursor stands between two
characters, with exactly the rest of the text unread. From there a step lays a tile,
or it finds nothing and moves to the last byte, where all later steps leave it. The
tiles make up the text, and there is a character for each of them. All this is so too
where the bytes are counted at every move. -/
theorem tiled (s : Source) :
    (∀ n, s.items[n]? = ((Cursor.start s.text.toList).after n).next.1) ∧
    (∀ n, ((Cursor.start s.text.toList).after n).At s.text.toList ∧
      (∀ i k', ((Cursor.start s.text.toList).after n).next = (some i, k') →
        ∃ gap, Cursor.Tile ((Cursor.start s.text.toList).after n) gap i k') ∧
      (∀ k', ((Cursor.start s.text.toList).after n).next = (none, k') →
        k'.byte = s.text.utf8ByteSize ∧ ∀ m, (k'.after m).next = (none, k'))) ∧
    (∃ (gaps : List (List Char × Item)) (last : List Char), s.items = gaps.map Prod.snd ∧
      (∀ g ∈ gaps, ∀ c ∈ g.1, c ∈ [' ', '\t', '\r', '\n']) ∧
      (∀ c ∈ last, c ∈ [' ', '\t', '\r', '\n']) ∧
      s.text.toList = (gaps.flatMap fun (gap, i) => gap ++ i.lexeme.segment) ++ last) ∧
    s.items.length ≤ s.text.length ∧
    ∀ n, let k := (Cursor.start s.text.toList).walked n
      k = (Cursor.start s.text.toList).after n ∧ k.walk.1 = s.items[n]?.map Item.word := by
  refine ⟨fun n => Cursor.getElem?_readAll n _, fun n => ?_, Cursor.exists_tiles _, ?_, fun n => ?_⟩
  · have hat := (Cursor.at_start s.text.toList).after n
    refine ⟨hat, fun i k' h => Cursor.exists_tile h, fun k' h => ?_⟩
    obtain ⟨before, htext, hbyte⟩ := hat
    obtain ⟨-, rfl⟩ := Cursor.next_eq_none h
    refine ⟨?_, fun m => ?_⟩
    · show _ + _ = _
      rw [← byteSize_toList, hbyte, ← byteSize_append, ← htext]
    · obtain ⟨hafter, hnone⟩ := Cursor.after_of_next_none h m
      rw [hafter, hnone]
  · rw [← String.length_toList]
    exact Cursor.length_readAll_le _
  · refine ⟨Cursor.walked_eq_after n _, ?_⟩
    rw [Cursor.walked_eq_after, Cursor.walk_eq_next, ← Cursor.getElem?_readAll]
    rfl

/-- Behind a fault, which is a character of two bytes, the end is found and kept. In front of
it is another one, a `^` that is found one byte back. -/
theorem tiled_faults :
    let s : Source := ⟨" x^ é", none⟩
    let i : Item := ⟨4, .fault (.unexpectedCharacter 'é') [] ['é']⟩
    (∃ gap, Cursor.Tile ((Cursor.start s.text.toList).after 1) gap i ⟨6, []⟩) ∧
      6 = s.text.utf8ByteSize ∧ (∀ m, ((⟨6, []⟩ : Cursor).after m).next = (none, ⟨6, []⟩)) ∧
      (Cursor.start s.text.toList).walk.1 =
        some (.error ⟨.invalidNumber .missingExponent, ⟨2, 1⟩⟩) := by
  intro s i
  obtain ⟨-, hsteps, -, -, hwalked⟩ := tiled s
  have hfault : ((Cursor.start s.text.toList).after 1).next = (some i, ⟨6, []⟩) := by
    decide +kernel
  have hend : ((Cursor.start s.text.toList).after 2).next = (none, ⟨6, []⟩) := by
    decide +kernel
  obtain ⟨hlast, hkept⟩ := (hsteps 2).2.2 _ hend
  refine ⟨(hsteps 1).2.1 _ _ hfault, hlast, hkept, (hwalked 0).2.trans ?_⟩
  decide +kernel

end Source

end PolyExpand
