import PolyExpand.Proofs.Layout
import PolyExpand.Proofs.Tiling
import Mathlib.Algebra.Group.Nat.Defs

/-!
# Maximal munch — what a segment means, and what ends it

The lexer decides character by character how far to go. What it arrives at can be
told from the segment alone, together with the first characters behind it: `Means`
lists the segments that there are, faulty ones included, each with what must not
follow it, and with the token or the report that it gives. Nothing in the list
mentions a scan.

The list is all there is (`Lexeme.means_scan`): wherever a step starts, what it takes
is one of these segments, and the text goes on in a way that ends it. And everything
in the list is found (`Means.exists_found`), so a text starts with one such segment
at most.

> `Source.classified`: the items of a text are the segments of the list, in whatever
> order they come and whatever faults stand before them.

The two places where the lexer looks ahead are two conditions of the list. Digits end
in front of a `/` that no digit follows. A name never ends in front of a `^`: it is
the start of an exponent, or of a fault.
-/

namespace PolyExpand

open Text

/-! ## The list -/

/-- A text that does not start with a digit. -/
def NoDigit (rest : List Char) : Prop := ∀ c ∈ rest.head?, c.isDigit = false

/-- A text that does not start with a `/` and a digit. -/
def NoDenominator (rest : List Char) : Prop :=
  ∀ d more, rest = '/' :: d :: more → d.isDigit = false

/-- A text that continues neither a name nor a power. -/
def NoName (rest : List Char) : Prop := ∀ c ∈ rest.head?, isNameChar c = false ∧ c ≠ '^'

/-- What a segment means that starts at the byte `b`, when a text follows it: a token,
or a report of what is wrong and at which bytes. -/
inductive Means (b : Nat) : List Char → List Char → Except Malformed Token → Prop where
  | openParen (rest : List Char) : Means b ['('] rest (.ok .openParen)
  | closeParen (rest : List Char) : Means b [')'] rest (.ok .closeParen)
  | plus (rest : List Char) : Means b ['+'] rest (.ok (.marker .plus))
  | minus (rest : List Char) : Means b ['-'] rest (.ok (.marker .minus))
  | times (rest : List Char) : Means b ['*'] rest (.ok (.marker .times))
  | whole (ds : DigitRun) {rest : List Char} (hdigit : NoDigit rest)
      (hdenominator : NoDenominator rest) : Means b ds.chars rest (.ok (.number ds.value))
  | fraction (ns ds : DigitRun) {rest : List Char} (hdigit : NoDigit rest) (h : ds.value ≠ 0) :
      Means b (ns.chars ++ '/' :: ds.chars) rest (.ok (.number ((ns.value : ℚ) / ds.value)))
  | overZero (ns ds : DigitRun) {rest : List Char} (hdigit : NoDigit rest) (h : ds.value = 0) :
      Means b (ns.chars ++ '/' :: ds.chars) rest
        (.error ⟨.invalidNumber .zeroDenominator, ⟨b, byteSize (ns.chars ++ '/' :: ds.chars)⟩⟩)
  | name (x : Identifier) {rest : List Char} (hname : NoName rest) :
      Means b x.chars rest (.ok (.power 1))
  | power (x : Identifier) (ds : DigitRun) {rest : List Char} (hdigit : NoDigit rest)
      (h : ds.value ≤ 65535) : Means b (x.chars ++ '^' :: ds.chars) rest (.ok (.power ds.value))
  | tooLarge (x : Identifier) (ds : DigitRun) {rest : List Char} (hdigit : NoDigit rest)
      (h : 65535 < ds.value) (hword : ds.value ≤ 2 ^ 64 - 1) :
      Means b (x.chars ++ '^' :: ds.chars) rest (.error ⟨.invalidNumber (.exponentTooLarge ds.value),
        ⟨b + byteSize (x.chars ++ ['^']), byteSize ds.chars⟩⟩)
  | overflow (x : Identifier) (ds : DigitRun) {rest : List Char} (hdigit : NoDigit rest)
      (h : 2 ^ 64 - 1 < ds.value) :
      Means b (x.chars ++ '^' :: ds.chars) rest (.error ⟨.invalidNumber .exponentOverflow,
        ⟨b + byteSize (x.chars ++ ['^']), byteSize ds.chars⟩⟩)
  | missing (x : Identifier) {rest : List Char} (hdigit : NoDigit rest) :
      Means b (x.chars ++ ['^']) rest
        (.error ⟨.invalidNumber .missingExponent, ⟨b + byteSize x.chars, 1⟩⟩)
  | stranger (c : Char) (rest : List Char) (hblank : c ∉ [' ', '\t', '\r', '\n'])
      (hsign : c ∉ ['(', ')', '+', '-', '*']) (hletter : isLetter c = false)
      (hdigit : c.isDigit = false) :
      Means b [c] rest (.error ⟨.unexpectedCharacter c, ⟨b, c.utf8Size⟩⟩)

/-! ## What a step takes is in the list -/

theorem noDigit_dropWhile (rest : List Char) : NoDigit (rest.dropWhile Char.isDigit) :=
  head?_dropWhile_eq_false Char.isDigit rest

/-- The longest run of digits from a digit on. -/
def DigitRun.take (c : Char) (rest : List Char) (hc : c.isDigit = true) : DigitRun where
  chars := c :: rest.takeWhile Char.isDigit
  chars_ne_nil := List.cons_ne_nil _ _
  isDigit := List.forall_mem_cons.mpr ⟨hc, List.all_eq_true.mp List.all_takeWhile⟩

/-- The longest name from a letter on. -/
def Identifier.take (c : Char) (rest : List Char) (hc : Text.isLetter c = true) : Identifier where
  letter := c
  more := rest.takeWhile Text.isNameChar
  isLetter := hc
  isNameChar := List.all_eq_true.mp List.all_takeWhile

namespace Lexeme

variable (b : Nat)

theorem means_fraction (ns ds : DigitRun) {rest : List Char} (hdigit : NoDigit rest) :
    Means b (fraction ns.chars ds.chars).segment rest
      (Item.token ⟨b, fraction ns.chars ds.chars⟩) := by
  rw [segment_fraction]
  unfold fraction
  split
  next hzero => exact .overZero ns ds hdigit hzero
  next hnonzero =>
    rw [Rat.mkRat_eq_div]
    exact .fraction ns ds hdigit hnonzero

/-- An exponent is refused for one of two reasons, and its size says which. -/
theorem exponentFault?_eq_some_iff {exponent : Nat} {cause : NumberFault} :
    exponentFault? exponent = some cause ↔
      2 ^ 64 - 1 < exponent ∧ cause = .exponentOverflow ∨
        (65535 < exponent ∧ exponent ≤ 2 ^ 64 - 1) ∧ cause = .exponentTooLarge exponent := by
  have hword : maxWord = 2 ^ 64 - 1 := rfl
  have hlimit : maxExponent = 65535 := rfl
  unfold exponentFault?
  constructor
  · intro h
    split at h
    next hlarge => exact Or.inl ⟨by omega, (Option.some.inj h).symm⟩
    next hsmall =>
      split at h
      next hlarge => exact Or.inr ⟨by omega, (Option.some.inj h).symm⟩
      next => cases h
  · rintro (⟨hlarge, rfl⟩ | ⟨⟨hlarge, hfits⟩, rfl⟩)
    · rw [if_pos (by omega)]
    · rw [if_neg (by omega), if_pos (by omega)]

theorem means_power (x : Identifier) {digits rest : List Char}
    (hdigits : ∀ d ∈ digits, d.isDigit = true) (hdigit : NoDigit rest) :
    Means b (power x.chars digits).segment rest (Item.token ⟨b, power x.chars digits⟩) := by
  rw [segment_power]
  unfold power
  split
  next hnil =>
    rw [hnil]
    exact .missing x hdigit
  next hne =>
    let ds : DigitRun := ⟨digits, hne, hdigits⟩
    split
    next cause hcause =>
      rcases exponentFault?_eq_some_iff.mp hcause with ⟨hlarge, rfl⟩ | ⟨⟨hlarge, hword⟩, rfl⟩
      · exact .overflow x ds hdigit hlarge
      · exact .tooLarge x ds hdigit hlarge hword
    next hnone => exact .power x ds hdigit (exponentFault?_eq_none_iff.mp hnone)

theorem means_sign {c : Char} (hblank : isBlank c = false) (hletter : isLetter c = false)
    (hdigit : c.isDigit = false) (rest : List Char) :
    Means b (sign c).segment rest (Item.token ⟨b, sign c⟩) := by
  rw [segment_sign]
  by_cases hopen : c = '('
  · subst hopen
    exact .openParen rest
  by_cases hclose : c = ')'
  · subst hclose
    exact .closeParen rest
  rw [sign, if_neg hopen, if_neg hclose]
  split
  next m hm =>
    obtain rfl := Marker.ofChar?_eq_some_iff.mp hm
    cases m with
    | plus => exact .plus rest
    | minus => exact .minus rest
    | times => exact .times rest
  next hnone =>
    -- The character writes no marker, so it is none of the three that do.
    have hmarker : ∀ m : Marker, c ≠ m.char := by
      intro m hm
      rw [hm, Marker.ofChar?_char] at hnone
      cases hnone
    refine .stranger c rest (fun hmem => ?_) (fun hmem => ?_) hletter hdigit
    · rw [isBlank_iff.mpr hmem] at hblank
      cases hblank
    · simp only [List.mem_cons, List.not_mem_nil, or_false] at hmem
      rcases hmem with h | h | h | h | h
      · exact hopen h
      · exact hclose h
      · exact hmarker .plus h
      · exact hmarker .minus h
      · exact hmarker .times h

theorem means_scanName {c : Char} (hc : isLetter c = true) (rest : List Char) :
    Means b (scanName c rest).1.segment (scanName c rest).2
      (Item.token ⟨b, (scanName c rest).1⟩) := by
  let x := Identifier.take c rest hc
  unfold scanName
  split
  next after hafter =>
    exact means_power b x (List.all_eq_true.mp List.all_takeWhile) (noDigit_dropWhile after)
  next hnone =>
    have hends : NoName (rest.dropWhile isNameChar) := by
      intro d hd
      refine ⟨head?_dropWhile_eq_false isNameChar rest d hd, ?_⟩
      rintro rfl
      obtain ⟨after, hafter⟩ := List.head?_eq_some_iff.mp hd
      exact hnone after hafter
    exact .name x hends

theorem means_scanNumber {c : Char} (hc : c.isDigit = true) (rest : List Char) :
    Means b (scanNumber c rest).1.segment (scanNumber c rest).2
      (Item.token ⟨b, (scanNumber c rest).1⟩) := by
  let ns := DigitRun.take c rest hc
  have hends := noDigit_dropWhile rest
  unfold scanNumber
  split
  next d after hafter =>
    split
    next hd => exact means_fraction b ns (DigitRun.take d after hd) (noDigit_dropWhile after)
    next hd =>
      -- The `/` is left for the next step, because nothing can be divided by.
      rw [hafter] at hends
      refine .whole ns hends fun d' more hmore => ?_
      obtain ⟨rfl, -⟩ : d = d' ∧ after = more := by simpa using hmore
      exact Bool.eq_false_iff.mpr hd
  next hnone => exact .whole ns hends fun d more hmore => absurd hmore (hnone d more)

/-- **What a step takes is in the list**, and means there what the step makes of it. -/
theorem means_scan {c : Char} (hc : isBlank c = false) (rest : List Char) :
    Means b (scan c rest).1.segment (scan c rest).2 (Item.token ⟨b, (scan c rest).1⟩) := by
  unfold scan
  split
  next hletter => exact means_scanName b hletter rest
  next hletter =>
    split
    next hdigit => exact means_scanNumber b hdigit rest
    next hdigit =>
      exact means_sign b hc (Bool.eq_false_iff.mpr hletter) (Bool.eq_false_iff.mpr hdigit) rest

end Lexeme

/-! ## What is in the list is found -/

namespace Lexeme

theorem found_stranger {c : Char} (hblank : c ∉ [' ', '\t', '\r', '\n'])
    (hsign : c ∉ ['(', ')', '+', '-', '*']) (hletter : isLetter c = false)
    (hdigit : c.isDigit = false) (rest : List Char) :
    (fault (.unexpectedCharacter c) [] [c]).FoundBefore rest := by
  have hstays : isBlank c = false := by
    by_contra hc
    exact hblank (isBlank_iff.mp (Bool.not_eq_false _ ▸ hc))
  have hmarker : Marker.ofChar? c = none := by
    unfold Marker.ofChar?
    rw [if_neg (by rintro rfl; simp at hsign), if_neg (by rintro rfl; simp at hsign),
      if_neg (by rintro rfl; simp at hsign)]
  refine ⟨c, rest, rfl, hstays, ?_⟩
  unfold scan
  rw [if_neg (by simp [hletter]), if_neg (by simp [hdigit])]
  unfold sign
  rw [if_neg (by rintro rfl; simp at hsign), if_neg (by rintro rfl; simp at hsign), hmarker]

end Lexeme

/-- **What is in the list is found** where the text goes on as the list says. -/
theorem Means.exists_found {b : Nat} {segment rest : List Char} {t : Except Malformed Token}
    (h : Means b segment rest t) :
    ∃ x : Lexeme, x.segment = segment ∧ Item.token ⟨b, x⟩ = t ∧ x.FoundBefore rest := by
  -- A name and an exponent are found as a power, which is a token or a fault.
  have hexponent : ∀ (x : Identifier) (ds : DigitRun) (rest : List Char), NoDigit rest →
      (Lexeme.power x.chars ds.chars).FoundBefore rest := fun x ds rest hdigit =>
    Lexeme.found_exponent x.isLetter x.isNameChar ds.isDigit hdigit
  cases h with
  | openParen => exact ⟨.token .openParen ['('], rfl, rfl, '(', rest, rfl, rfl, rfl⟩
  | closeParen => exact ⟨.token .closeParen [')'], rfl, rfl, ')', rest, rfl, rfl, rfl⟩
  | plus => exact ⟨_, rfl, rfl, Lexeme.found_marker .plus rest⟩
  | minus => exact ⟨_, rfl, rfl, Lexeme.found_marker .minus rest⟩
  | times => exact ⟨_, rfl, rfl, Lexeme.found_marker .times rest⟩
  | whole ds hdigit hdenominator =>
    have hfound := Lexeme.found_whole_of_noDenominator ds.chars_ne_nil ds.isDigit hdigit hdenominator
    exact ⟨_, rfl, rfl, hfound⟩
  | fraction ns ds hdigit hnonzero =>
    have hfound := Lexeme.found_fraction ns.chars_ne_nil ds.chars_ne_nil ns.isDigit ds.isDigit hdigit
    refine ⟨_, Lexeme.segment_fraction _ _, ?_, hfound⟩
    have hvalue : ¬ Numeral.value ds.chars = 0 := hnonzero
    rw [Lexeme.fraction, if_neg hvalue, Rat.mkRat_eq_div]
    rfl
  | overZero ns ds hdigit hzero =>
    have hfound := Lexeme.found_fraction ns.chars_ne_nil ds.chars_ne_nil ns.isDigit ds.isDigit hdigit
    refine ⟨_, Lexeme.segment_fraction _ _, ?_, hfound⟩
    have hvalue : Numeral.value ds.chars = 0 := hzero
    rw [Lexeme.fraction, if_pos hvalue]
    rfl
  | name x hname => exact ⟨_, rfl, rfl, Lexeme.found_name x.isLetter x.isNameChar hname⟩
  | power x ds hdigit hpermitted =>
    refine ⟨_, Lexeme.segment_power _ _, ?_, hexponent x ds rest hdigit⟩
    have hfault : Lexeme.exponentFault? (Numeral.value ds.chars) = none :=
      Lexeme.exponentFault?_eq_none_iff.mpr hpermitted
    rw [Lexeme.power, if_neg ds.chars_ne_nil, hfault]
    rfl
  | tooLarge x ds hdigit hlarge hword =>
    refine ⟨_, Lexeme.segment_power _ _, ?_, hexponent x ds rest hdigit⟩
    have hfault : Lexeme.exponentFault? (Numeral.value ds.chars) =
        some (.exponentTooLarge ds.value) :=
      Lexeme.exponentFault?_eq_some_iff.mpr (Or.inr ⟨⟨hlarge, hword⟩, rfl⟩)
    rw [Lexeme.power, if_neg ds.chars_ne_nil, hfault]
    rfl
  | overflow x ds hdigit hlarge =>
    refine ⟨_, Lexeme.segment_power _ _, ?_, hexponent x ds rest hdigit⟩
    have hfault : Lexeme.exponentFault? (Numeral.value ds.chars) = some .exponentOverflow :=
      Lexeme.exponentFault?_eq_some_iff.mpr (Or.inl ⟨hlarge, rfl⟩)
    rw [Lexeme.power, if_neg ds.chars_ne_nil, hfault]
    rfl
  | missing x hdigit =>
    refine ⟨_, Lexeme.segment_power x.chars [], rfl, ?_⟩
    exact Lexeme.found_exponent x.isLetter x.isNameChar (by simp) hdigit
  | stranger c rest hblank hsign hletter hdigit =>
    exact ⟨_, rfl, rfl, Lexeme.found_stranger hblank hsign hletter hdigit rest⟩

namespace Cursor

/-- What a step takes behind a gap is in the list, with the text behind the step. -/
theorem means_of_next {k k' : Cursor} {i : Item} (h : k.next = (some i, k')) :
    ∃ gap, (∀ c ∈ gap, c ∈ [' ', '\t', '\r', '\n']) ∧
      k.rest = gap ++ i.lexeme.segment ++ k'.rest ∧ i.offset = k.byte + byteSize gap ∧
      Means i.offset i.lexeme.segment k'.rest i.token := by
  obtain ⟨gap, htile⟩ := exists_tile h
  obtain ⟨c, rest, hc, hlexeme, hrest⟩ := lexeme_of_next h
  have hmeans := Lexeme.means_scan i.offset hc rest
  rw [← hlexeme, ← hrest] at hmeans
  exact ⟨gap, htile.blank, htile.rest_eq, htile.offset_eq, hmeans⟩

end Cursor

/-- **Every item is classified by what it is written with.** After any number of steps,
faults included, the segment that a step takes from the text, behind a gap, is in the
list with the text behind it, and the item is what the list says. Conversely, what is in
the list is taken as a whole wherever it is written, behind any gap, and the item is what
the list says. -/
theorem Source.classified (s : Source) :
    (∀ n i k', ((Cursor.start s.text.toList).after n).next = (some i, k') →
      ∃ gap, (∀ c ∈ gap, c ∈ [' ', '\t', '\r', '\n']) ∧
        ((Cursor.start s.text.toList).after n).rest = gap ++ i.lexeme.segment ++ k'.rest ∧
        i.offset = ((Cursor.start s.text.toList).after n).byte + byteSize gap ∧
        Means i.offset i.lexeme.segment k'.rest i.token) ∧
    ∀ (b : Nat) (gap segment rest : List Char) (t : Except Malformed Token),
      (∀ c ∈ gap, c ∈ [' ', '\t', '\r', '\n']) → Means (b + byteSize gap) segment rest t →
      ∃ i, Cursor.next ⟨b, gap ++ segment ++ rest⟩ =
          (some i, ⟨b + byteSize gap + byteSize segment, rest⟩) ∧
        i.offset = b + byteSize gap ∧ i.lexeme.segment = segment ∧ i.token = t := by
  constructor
  · intro n i k' h
    exact Cursor.means_of_next h
  · intro b gap segment rest t hgap hmeans
    obtain ⟨x, rfl, htoken, hfound⟩ := hmeans.exists_found
    refine ⟨⟨b + byteSize gap, x⟩, ?_, rfl, rfl, htoken⟩
    rw [List.append_assoc, Cursor.next_gap (fun c hc => isBlank_iff.mpr (hgap c hc))]
    exact Cursor.next_found hfound _

/-- A `/` that divides nothing, an exponent that is one too large behind zeros, and a
character of two bytes, one after the other. -/
theorem Source.classified_faults :
    let x : Identifier := ⟨'y', ['_', '1'], by decide, by simp [isNameChar]⟩
    let ds : DigitRun := ⟨['0', '6', '5', '5', '3', '6'], by simp, by simp⟩
    Means 0 ['3'] "/ y_1^065536é".toList (.ok (.number 3)) ∧
    Means 3 (x.chars ++ '^' :: ds.chars) ['é']
      (.error ⟨.invalidNumber (.exponentTooLarge 65536), ⟨7, 6⟩⟩) ∧
    (∃ i, Cursor.next ⟨2, [' '] ++ (x.chars ++ '^' :: ds.chars) ++ ['é']⟩ = (some i, ⟨13, ['é']⟩) ∧
      i.offset = 3 ∧ i.token = .error ⟨.invalidNumber (.exponentTooLarge 65536), ⟨7, 6⟩⟩) := by
  intro x ds
  let s : Source := ⟨"3/ y_1^065536é", none⟩
  obtain ⟨hsteps, hfound⟩ := Source.classified s
  have hthree : ((Cursor.start s.text.toList).after 0).next =
      (some ⟨0, .token (.number 3) ['3']⟩, ⟨1, "/ y_1^065536é".toList⟩) := by
    decide +kernel
  have hlarge : Means 3 (x.chars ++ '^' :: ds.chars) ['é']
      (.error ⟨.invalidNumber (.exponentTooLarge 65536), ⟨7, 6⟩⟩) :=
    .tooLarge x ds (by simp [NoDigit]) (by decide) (by decide)
  obtain ⟨-, -, -, -, hmeans⟩ := hsteps 0 _ _ hthree
  obtain ⟨i, hnext, hoffset, -, htoken⟩ := hfound 2 [' '] _ _ _ (by simp) hlarge
  exact ⟨hmeans, hlarge, i, hnext, hoffset, htoken⟩

end PolyExpand
