import PolyExpand.DensePoly.Text
import PolyExpand.Proofs.Balance
import Mathlib.Algebra.Order.Ring.Unbundled.Rat

/-!
# Literals — what is printed is read back

The lexer takes the longest literal it can, so whether it finds a literal
depends on what stands behind it (`Lexeme.FoundBefore`). Behind a printed number
there is a blank, an `x` or nothing, and behind a printed power a blank or
nothing, and then each is found as it was printed:

> `found_magnitude`, `found_power`: a rational without its sign and a permitted
> power are read back as themselves.

> `found_excess`: a power beyond the limit is refused, and its exponent is the
> culprit.

With a literal found, reading a text is reading what is behind it from the next
state (`Nesting.read_leaf`). So a text can be followed from its front to its end
without a word about items.
-/

namespace PolyExpand

open Text

/-! ## Maximal munch -/

theorem takeWhile_append_of_stop {p : Char → Bool} {l rest : List Char}
    (hl : ∀ c ∈ l, p c = true) (hrest : ∀ c ∈ rest.head?, p c = false) :
    (l ++ rest).takeWhile p = l := by
  rw [List.takeWhile_append_of_pos hl]
  cases rest with
  | nil => simp
  | cons c rest =>
    have hc : p c = false := hrest c rfl
    rw [List.takeWhile_cons_of_neg (by simp [hc]), List.append_nil]

theorem dropWhile_append_of_stop {p : Char → Bool} {l rest : List Char}
    (hl : ∀ c ∈ l, p c = true) (hrest : ∀ c ∈ rest.head?, p c = false) :
    (l ++ rest).dropWhile p = rest := by
  rw [List.dropWhile_append_of_pos hl]
  cases rest with
  | nil => rfl
  | cons c rest =>
    have hc : p c = false := hrest c rfl
    rw [List.dropWhile_cons_of_neg (by simp [hc])]

/-- A run ends where it can go on no longer. -/
theorem head?_dropWhile_eq_false (p : Char → Bool) (cs : List Char) :
    ∀ c ∈ (cs.dropWhile p).head?, p c = false := by
  intro c hc
  have hnot := List.head?_dropWhile_not p cs
  rw [hc] at hnot
  exact Bool.eq_false_iff.mpr (by simpa using hnot)

theorem isLetter_of_isDigit {c : Char} (h : c.isDigit = true) : isLetter c = false := by
  have hhigh : c.val.toNat ≤ 57 := of_decide_eq_true (Bool.and_eq_true_iff.mp h).2
  by_contra hletter
  rw [Bool.not_eq_false] at hletter
  rcases Bool.or_eq_true_iff.mp hletter with hupper | hlower
  · have hbounds : c.val ≥ 'A'.val ∧ c.val ≤ 'Z'.val := of_decide_eq_true hupper
    have hlow : 65 ≤ c.val.toNat := hbounds.1
    omega
  · have hlow : 97 ≤ c.val.toNat := of_decide_eq_true (Bool.and_eq_true_iff.mp hlower).1
    omega

/-- A class without the four blanks has no blank in it. -/
theorem isBlank_of_class {p : Char → Bool} (hp : ∀ b ∈ [' ', '\t', '\r', '\n'], p b = false)
    {c : Char} (h : p c = true) : isBlank c = false := by
  by_contra hblank
  rw [Bool.not_eq_false, isBlank] at hblank
  simp only [Bool.or_eq_true, beq_iff_eq, or_assoc] at hblank
  have hmem : c ∈ [' ', '\t', '\r', '\n'] := by simpa using hblank
  rw [hp c hmem] at h
  cases h

theorem isBlank_of_isDigit {c : Char} (h : c.isDigit = true) : isBlank c = false :=
  isBlank_of_class (p := Char.isDigit) (by simp) h

theorem isBlank_of_isLetter {c : Char} (h : isLetter c = true) : isBlank c = false :=
  isBlank_of_class (p := isLetter) (by simp [isLetter]) h

namespace Lexeme

/-- Reading finds a lexeme, from its first character, when the rest of the text
stands behind it. -/
def FoundBefore (x : Lexeme) (rest : List Char) : Prop :=
  ∃ c more, x.segment ++ rest = c :: more ∧ isBlank c = false ∧ scan c more = (x, rest)

theorem found_scan {c : Char} (hc : isBlank c = false) (rest : List Char) :
    (scan c rest).1.FoundBefore (scan c rest).2 :=
  ⟨c, rest, scan_append c rest, hc, rfl⟩

theorem found_marker (m : Marker) (rest : List Char) :
    (token (.marker m) [m.char]).FoundBefore rest := by
  refine ⟨m.char, rest, rfl, ?_, ?_⟩
  · cases m <;> rfl
  · cases m <;> rfl

theorem scan_digit {c : Char} (hc : c.isDigit = true) (more : List Char) :
    scan c more = scanNumber c more := by
  rw [scan, if_neg (by simp [isLetter_of_isDigit hc]), if_pos hc]

/-- Digits end before a `/` that no digit follows. -/
theorem found_whole_of_noDenominator {digits rest : List Char} (hne : digits ≠ [])
    (hdigits : ∀ d ∈ digits, d.isDigit = true) (hrest : ∀ c ∈ rest.head?, c.isDigit = false)
    (hslash : ∀ d more, rest = '/' :: d :: more → d.isDigit = false) :
    (whole digits).FoundBefore rest := by
  cases digits with
  | nil => exact absurd rfl hne
  | cons c digits =>
    obtain ⟨hc, hmore⟩ := List.forall_mem_cons.mp hdigits
    refine ⟨c, digits ++ rest, rfl, isBlank_of_isDigit hc, ?_⟩
    rw [scan_digit hc, scanNumber, takeWhile_append_of_stop hmore hrest,
      dropWhile_append_of_stop hmore hrest]
    split
    next d after => rw [if_neg (by simp [hslash d after rfl])]
    next => rfl

theorem found_whole {digits rest : List Char} (hne : digits ≠ [])
    (hdigits : ∀ d ∈ digits, d.isDigit = true)
    (hrest : ∀ c ∈ rest.head?, c.isDigit = false ∧ c ≠ '/') :
    (whole digits).FoundBefore rest := by
  refine found_whole_of_noDenominator hne hdigits (fun c hc => (hrest c hc).1) ?_
  rintro d more rfl
  exact absurd rfl (hrest '/' rfl).2

theorem found_fraction {numerator denominator rest : List Char} (hnumerator : numerator ≠ [])
    (hdenominator : denominator ≠ []) (hdigits : ∀ d ∈ numerator, d.isDigit = true)
    (hdigits' : ∀ d ∈ denominator, d.isDigit = true)
    (hrest : ∀ c ∈ rest.head?, c.isDigit = false) :
    (fraction numerator denominator).FoundBefore rest := by
  cases numerator with
  | nil => exact absurd rfl hnumerator
  | cons c numerator =>
    cases denominator with
    | nil => exact absurd rfl hdenominator
    | cons d denominator =>
      obtain ⟨hc, hmore⟩ := List.forall_mem_cons.mp hdigits
      obtain ⟨hd, hmore'⟩ := List.forall_mem_cons.mp hdigits'
      -- The `/` ends the numerator, and the digit behind it makes it a fraction.
      have hslash : ∀ x ∈ ('/' :: d :: (denominator ++ rest)).head?, x.isDigit = false := by
        intro x hx
        obtain rfl : '/' = x := Option.some.inj hx
        rfl
      refine ⟨c, numerator ++ '/' :: d :: (denominator ++ rest), ?_, isBlank_of_isDigit hc, ?_⟩
      · simp
      · rw [scan_digit hc, scanNumber, takeWhile_append_of_stop hmore hslash,
          dropWhile_append_of_stop hmore hslash]
        show (if d.isDigit then _ else _) = _
        rw [if_pos hd, takeWhile_append_of_stop hmore' hrest,
          dropWhile_append_of_stop hmore' hrest]

/-- A rational is found without its sign, unless a digit or a `/` follows. -/
theorem found_magnitude (q : Rat) {rest : List Char}
    (hrest : ∀ c ∈ rest.head?, c.isDigit = false ∧ c ≠ '/') :
    (token (.number |q|) (Numeral.magnitude q)).FoundBefore rest := by
  have hdigits : ∀ n : Nat, ∀ d ∈ Numeral.digits n, d.isDigit = true :=
    fun n d hd => Numeral.isDigit_of_mem_digits hd
  rw [Numeral.magnitude]
  split
  next hden =>
    have habs : |q| = (q.num.natAbs : Rat) := by
      rw [Rat.abs_def, hden, Nat.cast_one, Rat.divInt_one]
      exact Rat.intCast_natCast _
    have hfound := found_whole (Numeral.digits_ne_nil q.num.natAbs) (hdigits _) hrest
    rwa [whole, Numeral.value_digits, ← habs] at hfound
  next hden =>
    have habs : |q| = mkRat q.num.natAbs q.den := by
      rw [Rat.abs_def, Rat.mkRat_eq_divInt]
    have hfound := found_fraction (Numeral.digits_ne_nil q.num.natAbs)
      (Numeral.digits_ne_nil q.den) (hdigits _) (hdigits _) fun c hc => (hrest c hc).1
    rwa [fraction, Numeral.value_digits, Numeral.value_digits, if_neg q.den_nz, ← habs] at hfound

/-! ## Powers -/

/-- What is no part of a name is no digit. -/
theorem isDigit_of_not_isNameChar {c : Char} (h : isNameChar c = false) : c.isDigit = false := by
  simp only [isNameChar, Bool.or_eq_false_iff] at h
  exact h.1.2

section Name

variable {letter : Char} {more rest : List Char} (hletter : isLetter letter = true)
  (hmore : ∀ c ∈ more, isNameChar c = true)
include hletter hmore

theorem found_name (hrest : ∀ c ∈ rest.head?, isNameChar c = false ∧ c ≠ '^') :
    (token (.power 1) (letter :: more)).FoundBefore rest := by
  have hstop : ∀ c ∈ rest.head?, isNameChar c = false := fun c hc => (hrest c hc).1
  refine ⟨letter, more ++ rest, rfl, isBlank_of_isLetter hletter, ?_⟩
  rw [scan, if_pos hletter, scanName, takeWhile_append_of_stop hmore hstop,
    dropWhile_append_of_stop hmore hstop]
  split
  next after => exact absurd rfl (hrest '^' rfl).2
  next => rfl

theorem found_exponent {digits : List Char} (hdigits : ∀ d ∈ digits, d.isDigit = true)
    (hrest : ∀ c ∈ rest.head?, c.isDigit = false) :
    (power (letter :: more) digits).FoundBefore rest := by
  refine ⟨letter, more ++ '^' :: (digits ++ rest), by simp, isBlank_of_isLetter hletter, ?_⟩
  -- The `^` is no part of a name, so the name ends before it.
  have hcaret : ∀ c ∈ ('^' :: (digits ++ rest)).head?, isNameChar c = false := by
    intro c hc
    obtain rfl : '^' = c := Option.some.inj hc
    rfl
  rw [scan, if_pos hletter, scanName, takeWhile_append_of_stop hmore hcaret,
    dropWhile_append_of_stop hmore hcaret]
  show (power (letter :: more) _, _) = _
  rw [takeWhile_append_of_stop hdigits hrest, dropWhile_append_of_stop hdigits hrest]

end Name

theorem found_digits (e : Nat) {rest : List Char} (hrest : ∀ c ∈ rest.head?, c.isDigit = false) :
    (power ['x'] (Numeral.digits e)).FoundBefore rest :=
  found_exponent rfl (by simp) (fun _ hd => Numeral.isDigit_of_mem_digits hd) hrest

/-- A permitted power is found where its name or its exponent does not go on. -/
theorem found_power {e : Nat} (he : e ≤ maxExponent) {rest : List Char}
    (hrest : ∀ c ∈ rest.head?, isNameChar c = false ∧ c ≠ '^') :
    (token (.power e) (Numeral.power e)).FoundBefore rest := by
  rw [Numeral.power]
  by_cases h : e = 1
  · rw [if_pos h, h]
    exact found_name rfl (by simp) hrest
  · have hdigit : ∀ c ∈ rest.head?, c.isDigit = false := fun c hc =>
      isDigit_of_not_isNameChar (hrest c hc).1
    have hfound := found_digits e hdigit
    rw [power, if_neg (Numeral.digits_ne_nil e), Numeral.value_digits,
      exponentFault?_eq_none_iff.mpr he] at hfound
    rw [if_neg h]
    exact hfound

/-- Any other power is found to be a fault, as long as its exponent is a word. -/
theorem found_excess {e : Nat} (he : maxExponent < e) (hword : e ≤ maxWord) {rest : List Char}
    (hrest : ∀ c ∈ rest.head?, c = ' ') :
    (fault (.invalidNumber (.exponentTooLarge e)) ['x', '^'] (Numeral.digits e)).FoundBefore
      rest := by
  have hdigit : ∀ c ∈ rest.head?, c.isDigit = false := fun c hc => by rw [hrest c hc]; rfl
  have hfound := found_digits e hdigit
  have hfault : exponentFault? e = some (.exponentTooLarge e) := by
    rw [exponentFault?, if_neg (by omega), if_pos he]
  rw [power, if_neg (Numeral.digits_ne_nil e), Numeral.value_digits, hfault] at hfound
  exact hfound

end Lexeme

/-! ## Reading on -/

namespace Cursor

theorem next_found {x : Lexeme} {rest : List Char} (h : x.FoundBefore rest) (b : Nat) :
    next ⟨b, x.segment ++ rest⟩ = (some ⟨b, x⟩, ⟨b + byteSize x.segment, rest⟩) := by
  obtain ⟨c, more, htext, hblank, hscan⟩ := h
  have hskip : skipBlanks ⟨b, c :: more⟩ = ⟨b, c :: more⟩ := by
    rw [skipBlanks, List.takeWhile_cons_of_neg (by simp [hblank]),
      List.dropWhile_cons_of_neg (by simp [hblank])]
    rfl
  rw [htext]
  simp only [next, hskip, hscan]

theorem next_blank {c : Char} (hc : isBlank c = true) (b : Nat) (rest : List Char) :
    next ⟨b, c :: rest⟩ = next ⟨b + c.utf8Size, rest⟩ := by
  have hskip : skipBlanks ⟨b, c :: rest⟩ = skipBlanks ⟨b + c.utf8Size, rest⟩ := by
    simp only [skipBlanks]
    rw [List.takeWhile_cons_of_pos hc, List.dropWhile_cons_of_pos hc, byteSize_cons,
      ← Nat.add_assoc]
  rw [next, next, hskip]

theorem readAll_congr {k l : Cursor} (h : k.next = l.next) : k.readAll = l.readAll := by
  rcases hnext : l.next with ⟨_ | i, k'⟩
  · rw [readAll_of_next_none hnext, readAll_of_next_none (h.trans hnext)]
  · rw [readAll_of_next_some hnext, readAll_of_next_some (h.trans hnext)]

end Cursor

namespace Nesting

theorem read_end (s : Nesting) (b : Nat) : s.read ⟨b, []⟩ = s.finish :=
  read_of_next_none rfl s

theorem read_blank (s : Nesting) (b : Nat) (rest : List Char) :
    s.read ⟨b, ' ' :: rest⟩ = s.read ⟨b + 1, rest⟩ := by
  rw [read, Cursor.readAll_congr (Cursor.next_blank rfl b rest)]
  rfl

theorem read_leaf {t : Token} {n : Node} {literal rest : List Char}
    (h : (Lexeme.token t literal).FoundBefore rest) (hleaf : t.leaf? = some n) (s : Nesting)
    (b : Nat) :
    s.read ⟨b, literal ++ rest⟩ = (s.push n).read ⟨b + byteSize literal, rest⟩ := by
  have hnext := Cursor.next_found h b
  have hstep : s.step ⟨b, .token t literal⟩ = .ok (s.push n) := step_leaf rfl hleaf
  rw [show literal ++ rest = (Lexeme.token t literal).segment ++ rest from rfl,
    read_of_next_some hnext, hstep]
  rfl

theorem read_fault {f : Fault} {before culprit rest : List Char}
    (h : (Lexeme.fault f before culprit).FoundBefore rest) (s : Nesting) (b : Nat) :
    s.read ⟨b, before ++ culprit ++ rest⟩ =
      .error ⟨f, ⟨b + byteSize before, byteSize culprit⟩⟩ := by
  have hnext := Cursor.next_found h b
  rw [show before ++ culprit = (Lexeme.fault f before culprit).segment from rfl,
    read_of_next_some hnext]
  rfl

end Nesting

end PolyExpand
