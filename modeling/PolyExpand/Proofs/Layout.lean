import PolyExpand.Proofs.Literals
import PolyExpand.Source

/-!
# Layouts — tokens set out with blanks between them

A token may be written in many ways: a number with leading zeros or as a fraction
that is not in lowest terms, a power under any name. A `Spelling` is a token as it
is written, and a `Layout` is a sequence of spellings with a gap of blanks in front
of each and behind the last. A gap may be empty, and mostly is: between `2`, `x`
and `(` nothing has to stand. A blank is needed only where two spellings would be
read as one, and that depends on their kinds alone (`Spelling.Kind.fuses`): two
numbers fuse, a name fuses with a number or another name behind it, and an exponent
with a number.

> `Layout.read_layout`: the items of a layout are its spellings, each at its byte.
> And without a gap, two spellings that fuse are never read as the two, whatever
> stands behind them.

What decides both is the first character of the second spelling. A literal is found
whole if that character cannot belong to it (`Spelling.found`), and is swallowed by
a longer one if it can (`Spelling.exists_longer`).
-/

namespace PolyExpand

open Text

/-! ## Spellings -/

/-- Decimal digits, at least one. -/
structure DigitRun where
  chars : List Char
  chars_ne_nil : chars ≠ []
  isDigit : ∀ c ∈ chars, c.isDigit = true

/-- The number that digits stand for. -/
def DigitRun.value (ds : DigitRun) : Nat := Numeral.value ds.chars

/-- One run of digits behind another. -/
def DigitRun.append (ds es : DigitRun) : DigitRun where
  chars := ds.chars ++ es.chars
  chars_ne_nil := by simp [ds.chars_ne_nil]
  isDigit := List.forall_mem_append.mpr ⟨ds.isDigit, es.isDigit⟩

/-- A letter, and whatever may follow it in a name. -/
structure Identifier where
  letter : Char
  more : List Char
  isLetter : Text.isLetter letter = true
  isNameChar : ∀ c ∈ more, Text.isNameChar c = true

/-- The characters of a name. -/
def Identifier.chars (x : Identifier) : List Char := x.letter :: x.more

theorem Identifier.isNameChar_append_digits (x : Identifier) (ds : DigitRun) :
    ∀ c ∈ x.more ++ ds.chars, Text.isNameChar c = true := by
  refine List.forall_mem_append.mpr ⟨x.isNameChar, fun c hc => ?_⟩
  simp [Text.isNameChar, ds.isDigit c hc]

theorem Identifier.isNameChar_append (x y : Identifier) :
    ∀ c ∈ x.more ++ y.chars, Text.isNameChar c = true := by
  have hletter : Text.isNameChar y.letter = true := by
    have hy : y.letter.isAlpha = true := y.isLetter
    simp [Text.isNameChar, hy]
  exact List.forall_mem_append.mpr ⟨x.isNameChar, List.forall_mem_cons.mpr ⟨hletter, y.isNameChar⟩⟩

/-- A token as it is written. -/
inductive Spelling where
  | openParen
  | closeParen
  | marker (m : Marker)
  | whole (digits : DigitRun)
  | fraction (numerator denominator : DigitRun) (nonzero : denominator.value ≠ 0)
  | name (x : Identifier)
  | power (x : Identifier) (digits : DigitRun) (permitted : digits.value ≤ maxExponent)

namespace Spelling

/-- The characters of a spelling. -/
def literal : Spelling → List Char
  | openParen => ['(']
  | closeParen => [')']
  | marker m => [m.char]
  | whole ds => ds.chars
  | fraction ns ds _ => ns.chars ++ '/' :: ds.chars
  | name x => x.chars
  | power x ds _ => x.chars ++ '^' :: ds.chars

/-- The token that is written. -/
def token : Spelling → Token
  | openParen => .openParen
  | closeParen => .closeParen
  | marker m => .marker m
  | whole ds => .number ds.value
  | fraction ns ds _ => .number ((ns.value : ℚ) / ds.value)
  | name _ => .power 1
  | power _ ds _ => .power ds.value

/-- What is read where the spelling stands. -/
def lexeme (v : Spelling) : Lexeme := .token v.token v.literal

/-- Kinds of spellings, as far as it matters to their neighbours. -/
inductive Kind where
  /-- A parenthesis or an operator. -/
  | sign
  | number
  /-- A name without an exponent. -/
  | name
  /-- A name with an exponent. -/
  | power
deriving DecidableEq

/-- The kind of a spelling. -/
def kind : Spelling → Kind
  | openParen | closeParen | marker _ => .sign
  | whole _ | fraction .. => .number
  | name _ => .name
  | power .. => .power

namespace Kind

/-- Whether a spelling of one kind needs a blank before one of the other. -/
def fuses : Kind → Kind → Bool
  | number, number => true
  | name, number | name, name | name, power => true
  | power, number => true
  | _, _ => false

/-- How a spelling of a kind starts. -/
def Starts : Kind → Char → Prop
  | sign, c => c ∈ ['(', ')', '+', '-', '*']
  | number, c => c.isDigit = true
  | name, c | power, c => isLetter c = true

/-- A spelling of a kind ends in front of a character. -/
def Ends : Kind → Char → Prop
  | sign, _ => True
  | number, c => c.isDigit = false ∧ c ≠ '/'
  | name, c => isNameChar c = false ∧ c ≠ '^'
  | power, c => c.isDigit = false

/-- A spelling of a kind goes on with a character. -/
def GoesOn : Kind → Char → Prop
  | sign, _ => False
  | number, c | power, c => c.isDigit = true
  | name, c => isNameChar c = true

theorem ends_of_isBlank {c : Char} (hc : isBlank c = true) (k : Kind) : k.Ends c := by
  simp only [isBlank, Bool.or_eq_true, beq_iff_eq] at hc
  rcases hc with ((rfl | rfl) | rfl) | rfl <;> cases k <;> simp only [Ends] <;> decide

theorem isDigit_of_isLetter {c : Char} (h : isLetter c = true) : c.isDigit = false := by
  by_contra hdigit
  rw [Bool.not_eq_false] at hdigit
  rw [isLetter_of_isDigit hdigit] at h
  cases h

/-- What does not fuse, ends where the other starts. -/
theorem ends_of_starts {k l : Kind} (h : k.fuses l = false) {c : Char} (hc : l.Starts c) :
    k.Ends c := by
  cases l with
  | sign =>
    simp only [Starts, List.mem_cons, List.not_mem_nil, or_false] at hc
    rcases hc with rfl | rfl | rfl | rfl | rfl <;> cases k <;> simp only [Ends] <;> decide
  | number =>
    cases k with
    | sign => exact trivial
    | number => cases h
    | name => cases h
    | power => cases h
  | name | power =>
    have hdigit : c.isDigit = false := isDigit_of_isLetter hc
    cases k with
    | sign => exact trivial
    | number =>
      refine ⟨hdigit, ?_⟩
      rintro rfl
      exact absurd hc (by simp only [Starts]; decide)
    | name => cases h
    | power => exact hdigit

/-- What fuses, goes on where the other starts. -/
theorem goesOn_of_starts {k l : Kind} (h : k.fuses l = true) {c : Char} (hc : l.Starts c) :
    k.GoesOn c := by
  cases k with
  | sign => cases l <;> cases h
  | number =>
    cases l with
    | number => exact hc
    | _ => cases h
  | power =>
    cases l with
    | number => exact hc
    | _ => cases h
  | name =>
    have hclass : isLetter c = true ∨ c.isDigit = true := by
      cases l with
      | sign => cases h
      | number => exact Or.inr hc
      | name => exact Or.inl hc
      | power => exact Or.inl hc
    simp only [GoesOn, isNameChar, Bool.or_eq_true]
    exact Or.inl hclass

end Kind

theorem exists_literal_eq_cons (v : Spelling) :
    ∃ c more, v.literal = c :: more ∧ v.kind.Starts c := by
  have hdigits : ∀ ds : DigitRun, ∃ c more, ds.chars = c :: more ∧ c.isDigit = true := by
    rintro ⟨chars, hne, hdigit⟩
    cases chars with
    | nil => exact absurd rfl hne
    | cons c more => exact ⟨c, more, rfl, hdigit c (List.mem_cons_self ..)⟩
  cases v with
  | openParen => exact ⟨'(', [], rfl, by simp [kind, Kind.Starts]⟩
  | closeParen => exact ⟨')', [], rfl, by simp [kind, Kind.Starts]⟩
  | marker m => exact ⟨m.char, [], rfl, by cases m <;> simp [kind, Kind.Starts, Marker.char]⟩
  | whole ds => exact hdigits ds
  | fraction ns ds _ =>
    obtain ⟨c, more, hchars, hc⟩ := hdigits ns
    exact ⟨c, more ++ '/' :: ds.chars, by rw [literal, hchars]; rfl, hc⟩
  | name x => exact ⟨x.letter, x.more, rfl, x.isLetter⟩
  | power x ds _ => exact ⟨x.letter, x.more ++ '^' :: ds.chars, rfl, x.isLetter⟩

/-- **A spelling is found** whole where what follows cannot belong to it. -/
theorem found (v : Spelling) {rest : List Char} (h : ∀ c ∈ rest.head?, v.kind.Ends c) :
    v.lexeme.FoundBefore rest := by
  cases v with
  | openParen => exact ⟨'(', rest, rfl, rfl, rfl⟩
  | closeParen => exact ⟨')', rest, rfl, rfl, rfl⟩
  | marker m => exact Lexeme.found_marker m rest
  | whole ds => exact Lexeme.found_whole ds.chars_ne_nil ds.isDigit h
  | fraction ns ds nonzero =>
    have hfound := Lexeme.found_fraction ns.chars_ne_nil ds.chars_ne_nil ns.isDigit ds.isDigit
      fun c hc => (h c hc).1
    have hnonzero : ¬ Numeral.value ds.chars = 0 := nonzero
    rw [Lexeme.fraction, if_neg hnonzero, Rat.mkRat_eq_div] at hfound
    exact hfound
  | name x => exact Lexeme.found_name x.isLetter x.isNameChar h
  | power x ds permitted =>
    have hfound := Lexeme.found_exponent x.isLetter x.isNameChar ds.isDigit h
    have hpermitted : Lexeme.exponentFault? (Numeral.value ds.chars) = none :=
      Lexeme.exponentFault?_eq_none_iff.mpr permitted
    rw [Lexeme.power, if_neg ds.chars_ne_nil, hpermitted] at hfound
    exact hfound

end Spelling

/-! ## Layouts -/

/-- Spellings, each with the gap in front of it, and the gap behind the last. -/
structure Layout where
  words : List (List Char × Spelling)
  last : List Char
  blank : ∀ w ∈ words, ∀ c ∈ w.1, isBlank c = true
  blank_last : ∀ c ∈ last, isBlank c = true
  /-- No gap is empty that has to keep two neighbours apart. -/
  apart : words.IsChain fun v w => w.1 = [] → v.2.kind.fuses w.2.kind = false

namespace Layout

/-- The characters of spellings, with the gaps in front of them. -/
def chars (words : List (List Char × Spelling)) : List Char :=
  words.flatMap fun w => w.1 ++ w.2.literal

/-- The text of a layout. -/
def text (L : Layout) : List Char := chars L.words ++ L.last

/-- Spellings as items, from a byte on. -/
def itemsFrom (byte : Nat) : List (List Char × Spelling) → List Item
  | [] => []
  | (gap, v) :: words =>
    ⟨byte + byteSize gap, v.lexeme⟩ :: itemsFrom (byte + byteSize gap + byteSize v.literal) words

/-- The items of a layout. -/
def items (L : Layout) : List Item := itemsFrom 0 L.words

end Layout

namespace Cursor

theorem next_gap {gap : List Char} (hgap : ∀ c ∈ gap, isBlank c = true) (b : Nat)
    (rest : List Char) : next ⟨b, gap ++ rest⟩ = next ⟨b + byteSize gap, rest⟩ := by
  induction gap generalizing b with
  | nil => rfl
  | cons c gap ih =>
    obtain ⟨hc, hmore⟩ := List.forall_mem_cons.mp hgap
    rw [List.cons_append, next_blank hc, ih hmore, byteSize_cons, Nat.add_assoc]

end Cursor

namespace Layout

/-- What stands behind a spelling does not belong to it. -/
theorem ends_head? {v : List Char × Spelling} {words : List (List Char × Spelling)}
    {last : List Char} (hblank : ∀ w ∈ words, ∀ c ∈ w.1, isBlank c = true)
    (hlast : ∀ c ∈ last, isBlank c = true)
    (hapart : ∀ w ∈ words.head?, w.1 = [] → v.2.kind.fuses w.2.kind = false) :
    ∀ c ∈ (chars words ++ last).head?, v.2.kind.Ends c := by
  intro c hc
  cases words with
  | nil => exact Spelling.Kind.ends_of_isBlank (hlast c (List.mem_of_mem_head? hc)) _
  | cons w words =>
    obtain ⟨gap, w⟩ := w
    cases gap with
    | cons d gap =>
      obtain rfl : d = c := Option.some.inj hc
      exact Spelling.Kind.ends_of_isBlank
        (hblank _ (List.mem_cons_self ..) d (List.mem_cons_self ..)) _
    | nil =>
      obtain ⟨d, more, hliteral, hstarts⟩ := w.exists_literal_eq_cons
      rw [chars, List.flatMap_cons, List.nil_append, hliteral] at hc
      obtain rfl : d = c := Option.some.inj hc
      exact Spelling.Kind.ends_of_starts (hapart _ rfl rfl) hstarts

/-- **Reading on** finds what is left of a layout, from wherever it starts. -/
theorem readAll_chars (words : List (List Char × Spelling)) {last : List Char}
    (hlast : ∀ c ∈ last, isBlank c = true) (b : Nat)
    (hblank : ∀ w ∈ words, ∀ c ∈ w.1, isBlank c = true)
    (hapart : words.IsChain fun v w => w.1 = [] → v.2.kind.fuses w.2.kind = false) :
    (Cursor.readAll ⟨b, chars words ++ last⟩).1 = itemsFrom b words := by
  induction words generalizing b with
  | nil =>
    have hend : Cursor.next ⟨b, last⟩ = (none, ⟨b + byteSize last, []⟩) := by
      have hgap := Cursor.next_gap hlast b []
      rw [List.append_nil] at hgap
      rw [hgap]
      rfl
    show (Cursor.readAll ⟨b, last⟩).1 = []
    rw [Cursor.readAll_of_next_none hend]
  | cons w words ih =>
    obtain ⟨gap, v⟩ := w
    obtain ⟨hgap, hmore⟩ := List.forall_mem_cons.mp hblank
    obtain ⟨hhead, htail⟩ := List.isChain_cons.mp hapart
    have hnext : Cursor.next ⟨b, gap ++ (v.literal ++ (chars words ++ last))⟩ =
        (some ⟨b + byteSize gap, v.lexeme⟩,
          ⟨b + byteSize gap + byteSize v.literal, chars words ++ last⟩) := by
      rw [Cursor.next_gap hgap]
      exact Cursor.next_found (v.found (ends_head? (v := (gap, v)) hmore hlast hhead)) _
    have htext : chars ((gap, v) :: words) ++ last =
        gap ++ (v.literal ++ (chars words ++ last)) := by
      simp only [chars, List.flatMap_cons, List.append_assoc]
    rw [htext, Cursor.readAll_of_next_some hnext, ih _ hmore htail, itemsFrom]

end Layout

/-! ## Without a gap -/

theorem length_lt_takeWhile {p : Char → Bool} {l : List Char} (hl : ∀ d ∈ l, p d = true) {c : Char}
    (hc : p c = true) (rest : List Char) :
    l.length < ((l ++ c :: rest).takeWhile p).length := by
  rw [List.takeWhile_append_of_pos hl, List.takeWhile_cons_of_pos hc]
  simp

namespace Lexeme

/-- A number is at least as long as the digits it starts with. -/
theorem length_takeWhile_lt_scanNumber (c : Char) (rest : List Char) :
    (rest.takeWhile Char.isDigit).length < (scanNumber c rest).1.segment.length := by
  unfold scanNumber
  split
  next =>
    split
    next =>
      simp only [segment_fraction, List.length_append, List.length_cons]
      omega
    next => simp
  next => simp

/-- And a name or a power as the name it starts with. -/
theorem length_takeWhile_lt_scanName (c : Char) (rest : List Char) :
    (rest.takeWhile isNameChar).length < (scanName c rest).1.segment.length := by
  unfold scanName
  split
  next =>
    simp only [segment_power, List.length_append, List.length_cons]
    omega
  next => simp [segment]

end Lexeme

namespace Spelling

/-- **A spelling is swallowed** by a longer lexeme where the text goes on with it. -/
theorem exists_longer (v : Spelling) {c : Char} (hc : v.kind.GoesOn c) (rest : List Char) :
    ∃ (x : Lexeme) (left : List Char), v.literal ++ c :: rest = x.segment ++ left ∧
      x.FoundBefore left ∧ v.literal.length < x.segment.length := by
  have hsplit := rest.takeWhile_append_dropWhile (p := Char.isDigit)
  have hmore : ∀ d ∈ rest.takeWhile Char.isDigit, d.isDigit = true :=
    List.all_eq_true.mp List.all_takeWhile
  have hleft := head?_dropWhile_eq_false Char.isDigit rest
  cases v with
  | openParen => exact hc.elim
  | closeParen => exact hc.elim
  | marker m => exact hc.elim
  | whole ds =>
    obtain ⟨chars, hne, hdigits⟩ := ds
    cases chars with
    | nil => exact absurd rfl hne
    | cons d chars =>
      obtain ⟨hd, hchars⟩ := List.forall_mem_cons.mp hdigits
      refine ⟨_, _, (Lexeme.scan_append d (chars ++ c :: rest)).symm,
        Lexeme.found_scan (isBlank_of_isDigit hd) _, ?_⟩
      rw [Lexeme.scan_digit hd]
      exact Nat.lt_of_le_of_lt (length_lt_takeWhile hchars hc rest)
        (Lexeme.length_takeWhile_lt_scanNumber d _)
  | fraction ns ds nonzero =>
    have hlonger : ∀ d ∈ ds.chars ++ c :: rest.takeWhile Char.isDigit, d.isDigit = true :=
      List.forall_mem_append.mpr ⟨ds.isDigit, List.forall_mem_cons.mpr ⟨hc, hmore⟩⟩
    refine ⟨_, _, ?_, Lexeme.found_fraction ns.chars_ne_nil (by simp) ns.isDigit hlonger hleft, ?_⟩
    · simp [literal, hsplit]
    · simp [literal]
  | name x =>
    refine ⟨_, _, (Lexeme.scan_append x.letter (x.more ++ c :: rest)).symm,
      Lexeme.found_scan (isBlank_of_isLetter x.isLetter) _, ?_⟩
    rw [Lexeme.scan, if_pos x.isLetter]
    exact Nat.lt_of_le_of_lt (length_lt_takeWhile x.isNameChar hc rest)
      (Lexeme.length_takeWhile_lt_scanName x.letter _)
  | power x ds permitted =>
    have hlonger : ∀ d ∈ ds.chars ++ c :: rest.takeWhile Char.isDigit, d.isDigit = true :=
      List.forall_mem_append.mpr ⟨ds.isDigit, List.forall_mem_cons.mpr ⟨hc, hmore⟩⟩
    refine ⟨_, _, ?_, Lexeme.found_exponent x.isLetter x.isNameChar hlonger hleft, ?_⟩
    · simp [literal, Identifier.chars, hsplit]
    · simp [literal, Identifier.chars]

/-! Two spellings that fuse are one lexeme, or one lexeme and then a `/` that belongs
to no number: `1/2` and `3/4` are read as `1/23` and a stray `/4`. -/

theorem slash_stops (cs : List Char) :
    ∀ c ∈ ('/' :: cs).head?, c.isDigit = false ∧ isNameChar c = false ∧ c ≠ '^' := by
  intro c hc
  obtain rfl : '/' = c := Option.some.inj hc
  decide

theorem exists_fused {v w : Spelling} (h : v.kind.fuses w.kind = true) :
    ∃ (x : Lexeme) (left : List Char), v.literal ++ w.literal = x.segment ++ left ∧
      x.FoundBefore left ∧ ∀ c ∈ left.head?, c = '/' := by
  have hslash : ∀ (cs : List Char), ∀ c ∈ ('/' :: cs).head?, c = '/' :=
    fun cs c hc => (Option.some.inj hc).symm
  cases v with
  | openParen => cases h
  | closeParen => cases h
  | marker m => cases h
  | whole ds =>
    cases w with
    | whole es =>
      exact ⟨_, [], by simp [literal, DigitRun.append],
        Lexeme.found_whole (ds.append es).chars_ne_nil (ds.append es).isDigit (by simp), by simp⟩
    | fraction ns es _ =>
      exact ⟨_, [], by simp [literal, DigitRun.append],
        Lexeme.found_fraction (ds.append ns).chars_ne_nil es.chars_ne_nil (ds.append ns).isDigit
          es.isDigit (by simp), by simp⟩
    | _ => cases h
  | fraction ns ds _ =>
    cases w with
    | whole es =>
      exact ⟨_, [], by simp [literal, DigitRun.append],
        Lexeme.found_fraction ns.chars_ne_nil (ds.append es).chars_ne_nil ns.isDigit
          (ds.append es).isDigit (by simp), by simp⟩
    | fraction ms es _ =>
      exact ⟨_, '/' :: es.chars, by simp [literal, DigitRun.append],
        Lexeme.found_fraction ns.chars_ne_nil (ds.append ms).chars_ne_nil ns.isDigit
          (ds.append ms).isDigit fun c hc => (slash_stops _ c hc).1, hslash _⟩
    | _ => cases h
  | name x =>
    cases w with
    | whole es =>
      exact ⟨_, [], by simp [literal, Identifier.chars, Lexeme.segment],
        Lexeme.found_name x.isLetter (x.isNameChar_append_digits es) (by simp), by simp⟩
    | fraction ms es _ =>
      exact ⟨_, '/' :: es.chars, by simp [literal, Identifier.chars, Lexeme.segment],
        Lexeme.found_name x.isLetter (x.isNameChar_append_digits ms)
          fun c hc => (slash_stops _ c hc).2, hslash _⟩
    | name y =>
      exact ⟨_, [], by simp [literal, Identifier.chars, Lexeme.segment],
        Lexeme.found_name x.isLetter (x.isNameChar_append y) (by simp), by simp⟩
    | power y es _ =>
      exact ⟨_, [], by simp [literal, Identifier.chars],
        Lexeme.found_exponent x.isLetter (x.isNameChar_append y) es.isDigit (by simp), by simp⟩
    | _ => cases h
  | power x ds _ =>
    cases w with
    | whole es =>
      exact ⟨_, [], by simp [literal, Identifier.chars, DigitRun.append],
        Lexeme.found_exponent x.isLetter x.isNameChar (ds.append es).isDigit (by simp), by simp⟩
    | fraction ms es _ =>
      exact ⟨_, '/' :: es.chars, by simp [literal, Identifier.chars, DigitRun.append],
        Lexeme.found_exponent x.isLetter x.isNameChar (ds.append ms).isDigit
          fun c hc => (slash_stops _ c hc).1, hslash _⟩
    | _ => cases h

/-- Side by side, they are not read as the two. -/
theorem tokens_ne_of_fuses {v w : Spelling} (h : v.kind.fuses w.kind = true) (b : Nat) :
    (Cursor.readAll ⟨b, v.literal ++ w.literal⟩).1.map Item.token ≠ [.ok v.token, .ok w.token] := by
  obtain ⟨x, left, htext, hfound, hslash⟩ := exists_fused h
  rw [htext, Cursor.readAll_of_next_some (Cursor.next_found hfound b)]
  intro heq
  cases left with
  | nil =>
    have hend : Cursor.next ⟨b + byteSize x.segment, []⟩ = (none, ⟨b + byteSize x.segment, []⟩) :=
      rfl
    rw [Cursor.readAll_of_next_none hend] at heq
    simp at heq
  | cons c left =>
    obtain rfl : c = '/' := hslash c rfl
    have hstray : (Lexeme.sign '/').FoundBefore left := ⟨'/', left, rfl, rfl, rfl⟩
    have hnext := Cursor.next_found hstray (b + byteSize x.segment)
    rw [Lexeme.segment_sign, List.singleton_append] at hnext
    rw [Cursor.readAll_of_next_some hnext] at heq
    simp only [List.map_cons, List.cons.injEq] at heq
    cases heq.2.1

end Spelling

/-- **Reading a layout** gives its spellings back: each at its byte, with the literal
as it is written and the value that it stands for, and nothing else. Where the gap
is missing between two spellings that fuse, what is read in place of the first is
longer, whatever comes behind the second; and if nothing does, then the text is not
read as the two tokens at all. -/
theorem Layout.read_layout :
    (∀ (L : Layout) (name? : Option String),
      (⟨String.ofList L.text, name?⟩ : Source).items = L.items) ∧
    ∀ v w : Spelling, v.kind.fuses w.kind = true →
      (∀ (b : Nat) (rest : List Char), ∃ i k',
        Cursor.next ⟨b, v.literal ++ w.literal ++ rest⟩ = (some i, k') ∧
        v.literal.length < i.lexeme.segment.length) ∧
      ∀ name? : Option String, (⟨String.ofList (v.literal ++ w.literal), name?⟩ : Source).items.map
        Item.token ≠ [.ok v.token, .ok w.token] := by
  refine ⟨fun L name? => ?_, fun v w h => ⟨fun b rest => ?_, fun name? => ?_⟩⟩
  · rw [Source.items, Source.read, String.toList_ofList]
    exact readAll_chars L.words L.blank_last 0 L.blank L.apart
  · obtain ⟨c, more, hliteral, hstarts⟩ := w.exists_literal_eq_cons
    obtain ⟨x, left, htext, hfound, hlonger⟩ :=
      v.exists_longer (Spelling.Kind.goesOn_of_starts h hstarts) (more ++ rest)
    have hnext := Cursor.next_found hfound b
    rw [← htext, ← List.cons_append, ← hliteral, ← List.append_assoc] at hnext
    exact ⟨_, _, hnext, hlonger⟩
  · rw [Source.items, Source.read, String.toList_ofList]
    exact Spelling.tokens_ne_of_fuses h 0

/-- Zeros in front of a number and of an exponent, a name that a sign ends, and one
that takes no gap in front; and two halves that have none between them. -/
theorem Layout.read_layout_halves :
    let half : Spelling := .fraction ⟨['1'], by simp, by simp⟩ ⟨['2'], by simp, by simp⟩ (by decide)
    (⟨"02x_1*\n y^03 ", none⟩ : Source).items =
      [⟨0, .token (.number 2) ['0', '2']⟩, ⟨2, .token (.power 1) ['x', '_', '1']⟩,
        ⟨5, .token (.marker .times) ['*']⟩, ⟨8, .token (.power 3) ['y', '^', '0', '3']⟩] ∧
    half.kind.fuses half.kind = true ∧
    (⟨"1/21/2", none⟩ : Source).items.map Item.token ≠
      [.ok (.number (1 / 2)), .ok (.number (1 / 2))] := by
  intro half
  obtain ⟨hread, hfuse⟩ := Layout.read_layout
  let L : Layout := {
    words := [([], .whole ⟨['0', '2'], by simp, by simp⟩),
      ([], .name ⟨'x', ['_', '1'], by decide, by simp [isNameChar]⟩), ([], .marker .times),
      (['\n', ' '], .power ⟨'y', [], by decide, by simp⟩ ⟨['0', '3'], by simp, by simp⟩
        (by decide))]
    last := [' ']
    blank := by simp [isBlank]
    blank_last := by simp [isBlank]
    apart := by decide }
  exact ⟨hread L none, rfl, (hfuse half half rfl).2 none⟩

end PolyExpand
