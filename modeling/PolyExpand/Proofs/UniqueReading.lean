import PolyExpand.Proofs.RoundTrip

/-!
# Unique reading — a text that belongs to one polynomial

The lexer reads a printed polynomial back only up to the largest permitted exponent. That
its text belongs to no other polynomial holds without any limit: what is printed first can
be told from what is printed behind it, because nothing behind goes on with it
(`append_inj_of_stop`). A term is a number, of digits and `/`, and a power, of characters
of a name and `^`, and either may be missing; the next term starts with a blank.

> `DensePoly.text_inj`: polynomials with the same text have the same coefficients.

A number and a power are told from their own characters by `Numeral.magnitude_inj` and
`Numeral.power_inj`. What is missing in a term is decided by the rest of it: a number
only where it would be one, and a power only where its exponent would be zero.
-/

namespace PolyExpand

open Text

/-- Two runs of a class of characters that end where the class does are the same, and so
are the texts behind them. -/
theorem append_inj_of_stop {p : Char → Bool} {l l' r r' : List Char} (hl : ∀ c ∈ l, p c = true)
    (hl' : ∀ c ∈ l', p c = true) (hr : ∀ c ∈ r.head?, p c = false)
    (hr' : ∀ c ∈ r'.head?, p c = false) (h : l ++ r = l' ++ r') : l = l' ∧ r = r' := by
  constructor
  · rw [← takeWhile_append_of_stop hl hr, h, takeWhile_append_of_stop hl' hr']
  · rw [← dropWhile_append_of_stop hl hr, h, dropWhile_append_of_stop hl' hr']

namespace Numeral

/-- A character of a rational without its sign. -/
def isMagnitudeChar (c : Char) : Bool := c.isDigit || c == '/'

/-- A character of a power. -/
def isPowerChar (c : Char) : Bool := isNameChar c || c == '^'

theorem isMagnitudeChar_of_mem {q : Rat} : ∀ c ∈ magnitude q, isMagnitudeChar c = true := by
  have hdigits : ∀ n : Nat, ∀ c ∈ digits n, isMagnitudeChar c = true := fun n c hc => by
    simp [isMagnitudeChar, isDigit_of_mem_digits hc]
  unfold magnitude
  split
  next => exact hdigits _
  next =>
    exact List.forall_mem_append.mpr ⟨hdigits _, List.forall_mem_cons.mpr ⟨rfl, hdigits _⟩⟩

theorem isPowerChar_of_mem {e : Nat} : ∀ c ∈ power e, isPowerChar c = true := by
  have hdigits : ∀ c ∈ digits e, isPowerChar c = true := fun c hc => by
    simp [isPowerChar, isNameChar, isDigit_of_mem_digits hc]
  unfold power
  split
  next => exact List.forall_mem_singleton.mpr rfl
  next => exact List.forall_mem_cons.mpr ⟨rfl, List.forall_mem_cons.mpr ⟨rfl, hdigits⟩⟩

theorem magnitude_ne_nil (q : Rat) : magnitude q ≠ [] := by
  unfold magnitude
  split
  next => exact digits_ne_nil _
  next => simp

theorem power_ne_nil (e : Nat) : power e ≠ [] := by
  unfold power
  split <;> simp

/-- A rational is told by its sign and its size. -/
theorem eq_of_abs_eq {p q : Rat} (hsign : p < 0 ↔ q < 0) (habs : |p| = |q|) : p = q := by
  by_cases hp : p < 0
  · rw [abs_of_neg hp, abs_of_neg (hsign.mp hp)] at habs
    exact neg_inj.mp habs
  · rwa [abs_of_nonneg (not_lt.mp hp), abs_of_nonneg (not_lt.mp (hsign.not.mp hp))] at habs

theorem magnitude_inj {p q : Rat} (h : magnitude p = magnitude q) : |p| = |q| := by
  -- Both are read back, and there is but one way to read the text.
  have hend : ∀ c ∈ ([] : List Char).head?, c.isDigit = false ∧ c ≠ '/' := fun c hc => by cases hc
  obtain ⟨c, more, hp, -, hscan⟩ := Lexeme.found_magnitude p hend
  obtain ⟨d, more', hq, -, hscan'⟩ := Lexeme.found_magnitude q hend
  have htext : c :: more = d :: more' := by
    rw [← hp, ← hq]
    simp [Lexeme.segment, h]
  obtain ⟨rfl, rfl⟩ := List.cons.inj htext
  rw [hscan] at hscan'
  obtain ⟨heq, -⟩ : |p| = |q| ∧ _ := by simpa using hscan'
  exact heq

theorem power_inj {d e : Nat} (h : power d = power e) : d = e := by
  unfold power at h
  by_cases hd : d = 1
  · by_cases he : e = 1
    · rw [hd, he]
    · rw [if_pos hd, if_neg he] at h
      simp at h
  · by_cases he : e = 1
    · rw [if_neg hd, if_pos he] at h
      simp at h
    · rw [if_neg hd, if_neg he] at h
      exact digits_inj.mp (List.cons.inj (List.cons.inj h).2).2

end Numeral

namespace Term

/-- The number of a printed term, where one is printed. -/
def numberText (t : Term) : List Char :=
  if t.exponent ≠ 0 ∧ |t.coefficient| = 1 then [] else Numeral.magnitude t.coefficient

/-- The power of a printed term, where one is printed. -/
def powerText (t : Term) : List Char :=
  if t.exponent = 0 then [] else Numeral.power t.exponent

theorem unsigned_eq_append (t : Term) : t.unsigned = t.numberText ++ t.powerText := by
  have hunit : t.coefficient = 1 ∨ t.coefficient = -1 ↔ |t.coefficient| = 1 :=
    (abs_eq zero_le_one).symm
  unfold unsigned numberText powerText
  by_cases hexponent : t.exponent = 0
  · simp [hexponent]
  · by_cases habs : |t.coefficient| = 1
    · simp [hexponent, habs, hunit.mpr habs]
    · have hnot := hunit.not.mpr habs
      simp [hexponent, habs, hnot]

theorem isMagnitudeChar_of_mem_numberText (t : Term) :
    ∀ c ∈ t.numberText, Numeral.isMagnitudeChar c = true := by
  unfold numberText
  split
  next => simp
  next => exact Numeral.isMagnitudeChar_of_mem

theorem isPowerChar_of_mem_powerText (t : Term) :
    ∀ c ∈ t.powerText, Numeral.isPowerChar c = true := by
  unfold powerText
  split
  next => simp
  next => exact Numeral.isPowerChar_of_mem

/-- No number goes on with a power, nor with a blank. -/
theorem not_isMagnitudeChar_head? (t : Term) {r : List Char} (hr : ∀ c ∈ r.head?, c = ' ') :
    ∀ c ∈ (t.powerText ++ r).head?, Numeral.isMagnitudeChar c = false := by
  intro c hc
  unfold powerText at hc
  split at hc
  next =>
    obtain rfl := hr c hc
    rfl
  next =>
    obtain ⟨hdigit, hslash⟩ := stop_of_power t.exponent r c hc
    simp [Numeral.isMagnitudeChar, hdigit, hslash]

theorem powerText_inj {t u : Term} (h : t.powerText = u.powerText) : t.exponent = u.exponent := by
  unfold powerText at h
  by_cases ht : t.exponent = 0
  · by_cases hu : u.exponent = 0
    · rw [ht, hu]
    · rw [if_pos ht, if_neg hu] at h
      exact absurd h.symm (Numeral.power_ne_nil _)
  · by_cases hu : u.exponent = 0
    · rw [if_neg ht, if_pos hu] at h
      exact absurd h (Numeral.power_ne_nil _)
    · rw [if_neg ht, if_neg hu] at h
      exact Numeral.power_inj h

theorem numberText_inj {t u : Term} (hexponent : t.exponent = u.exponent)
    (h : t.numberText = u.numberText) : |t.coefficient| = |u.coefficient| := by
  unfold numberText at h
  rw [hexponent] at h
  by_cases ht : u.exponent ≠ 0 ∧ |t.coefficient| = 1
  · by_cases hu : u.exponent ≠ 0 ∧ |u.coefficient| = 1
    · rw [ht.2, hu.2]
    · rw [if_pos ht, if_neg hu] at h
      exact absurd h.symm (Numeral.magnitude_ne_nil _)
  · by_cases hu : u.exponent ≠ 0 ∧ |u.coefficient| = 1
    · rw [if_neg ht, if_pos hu] at h
      exact absurd h (Numeral.magnitude_ne_nil _)
    · rw [if_neg ht, if_neg hu] at h
      exact Numeral.magnitude_inj h

/-- **A term without its sign** can be told from what follows it behind a blank. -/
theorem unsigned_append_inj {t u : Term} {r r' : List Char} (hr : ∀ c ∈ r.head?, c = ' ')
    (hr' : ∀ c ∈ r'.head?, c = ' ') (h : t.unsigned ++ r = u.unsigned ++ r') :
    |t.coefficient| = |u.coefficient| ∧ t.exponent = u.exponent ∧ r = r' := by
  have hblank : ∀ {rest : List Char}, (∀ c ∈ rest.head?, c = ' ') →
      ∀ c ∈ rest.head?, Numeral.isPowerChar c = false := by
    intro rest hrest c hc
    rw [hrest c hc]
    rfl
  rw [unsigned_eq_append, unsigned_eq_append, List.append_assoc, List.append_assoc] at h
  obtain ⟨hnumber, hbehind⟩ := append_inj_of_stop t.isMagnitudeChar_of_mem_numberText
    u.isMagnitudeChar_of_mem_numberText (t.not_isMagnitudeChar_head? hr)
    (u.not_isMagnitudeChar_head? hr') h
  obtain ⟨hpower, hrest⟩ := append_inj_of_stop t.isPowerChar_of_mem_powerText
    u.isPowerChar_of_mem_powerText (hblank hr) (hblank hr') hbehind
  have hexponent := powerText_inj hpower
  exact ⟨numberText_inj hexponent hnumber, hexponent, hrest⟩

/-! ## Signs -/

theorem eq_of_abs_eq {t u : Term} (hsign : t.coefficient < 0 ↔ u.coefficient < 0)
    (habs : |t.coefficient| = |u.coefficient|) (hexponent : t.exponent = u.exponent) : t = u := by
  obtain ⟨a, d⟩ := t
  obtain ⟨b, e⟩ := u
  obtain rfl : d = e := hexponent
  have hcoefficient : a = b := Numeral.eq_of_abs_eq hsign habs
  rw [hcoefficient]

theorem unsigned_ne_nil (t : Term) : t.unsigned ≠ [] := by
  rw [unsigned_eq_append]
  by_cases hexponent : t.exponent = 0
  · have hnumber : t.numberText = Numeral.magnitude t.coefficient :=
      if_neg fun h => h.1 hexponent
    rw [hnumber]
    exact List.append_ne_nil_of_left_ne_nil (Numeral.magnitude_ne_nil _) _
  · have hpower : t.powerText = Numeral.power t.exponent := if_neg hexponent
    rw [hpower]
    exact List.append_ne_nil_of_right_ne_nil _ (Numeral.power_ne_nil _)

theorem leadingText_ne_nil (t : Term) : t.leadingText ≠ [] := by
  unfold leadingText
  split
  next => exact List.cons_ne_nil _ _
  next => exact t.unsigned_ne_nil

theorem minus_not_mem_unsigned (t : Term) : '-' ∉ t.unsigned := by
  rw [unsigned_eq_append, List.mem_append, not_or]
  constructor
  · intro hmem
    cases t.isMagnitudeChar_of_mem_numberText '-' hmem
  · intro hmem
    cases t.isPowerChar_of_mem_powerText '-' hmem

/-- Without a sign in front, no term starts with a `-`. -/
theorem unsigned_append_ne (t : Term) (r r' : List Char) : t.unsigned ++ r ≠ '-' :: r' := by
  obtain ⟨c, more, hunsigned⟩ := List.exists_cons_of_ne_nil t.unsigned_ne_nil
  intro h
  rw [hunsigned] at h
  obtain ⟨rfl, -⟩ := List.cons.inj h
  exact t.minus_not_mem_unsigned (hunsigned ▸ List.mem_cons_self ..)

theorem leadingText_append_inj {t u : Term} {r r' : List Char} (hr : ∀ c ∈ r.head?, c = ' ')
    (hr' : ∀ c ∈ r'.head?, c = ' ') (h : t.leadingText ++ r = u.leadingText ++ r') :
    t = u ∧ r = r' := by
  unfold leadingText at h
  by_cases ht : t.coefficient < 0
  · by_cases hu : u.coefficient < 0
    · rw [if_pos ht, if_pos hu] at h
      obtain ⟨habs, hexponent, hrest⟩ :=
        unsigned_append_inj hr hr' (List.cons.inj (List.cons.inj h).2).2
      exact ⟨eq_of_abs_eq (iff_of_true ht hu) habs hexponent, hrest⟩
    · rw [if_pos ht, if_neg hu] at h
      exact absurd h.symm (u.unsigned_append_ne _ _)
  · by_cases hu : u.coefficient < 0
    · rw [if_neg ht, if_pos hu] at h
      exact absurd h (t.unsigned_append_ne _ _)
    · rw [if_neg ht, if_neg hu] at h
      obtain ⟨habs, hexponent, hrest⟩ := unsigned_append_inj hr hr' h
      exact ⟨eq_of_abs_eq (iff_of_false ht hu) habs hexponent, hrest⟩

theorem sign_inj {t u : Term} (h : t.sign.marker.char = u.sign.marker.char) :
    t.coefficient < 0 ↔ u.coefficient < 0 := by
  unfold sign at h
  by_cases ht : t.coefficient < 0
  · by_cases hu : u.coefficient < 0
    · exact iff_of_true ht hu
    · rw [if_pos ht, if_neg hu] at h
      cases h
  · by_cases hu : u.coefficient < 0
    · rw [if_neg ht, if_pos hu] at h
      cases h
    · exact iff_of_false ht hu

theorem following_inj : ∀ {ts us : List Term},
    ts.flatMap followingText = us.flatMap followingText → ts = us
  | [], [], _ => rfl
  | [], u :: us, h | u :: us, [], h => by simp [followingText] at h
  | t :: ts, u :: us, h => by
    rw [List.flatMap_cons, List.flatMap_cons, followingText_append, followingText_append] at h
    obtain ⟨hsign, hterm⟩ := List.cons.inj (List.cons.inj h).2
    obtain ⟨habs, hexponent, hrest⟩ :=
      unsigned_append_inj (head?_following ts) (head?_following us) (List.cons.inj hterm).2
    rw [eq_of_abs_eq (sign_inj hsign) habs hexponent, following_inj hrest]

end Term

namespace DensePoly

theorem text_eq_nil_iff {p : DensePoly} : p.text = [] ↔ p.terms = [] := by
  unfold text
  cases p.terms with
  | nil => simp
  | cons t ts => simp [t.leadingText_ne_nil]

theorem terms_inj {p q : DensePoly} (h : p.text = q.text) : p.terms = q.terms := by
  cases hp : p.terms with
  | nil => exact (text_eq_nil_iff.mp (h ▸ text_eq_nil_iff.mpr hp)).symm
  | cons t ts =>
    cases hq : q.terms with
    | nil =>
      have hnil := text_eq_nil_iff.mp (h.trans (text_eq_nil_iff.mpr hq))
      rw [hp] at hnil
      cases hnil
    | cons u us =>
      rw [text_eq_append hp, text_eq_append hq] at h
      obtain ⟨hfirst, hrest⟩ :=
        Term.leadingText_append_inj (Term.head?_following ts) (Term.head?_following us) h
      rw [hfirst, Term.following_inj hrest]

/-- **A text belongs to one polynomial**, up to trailing zeros. -/
theorem text_inj {p q : DensePoly} (h : p.text = q.text) : ∀ i, p.coeff i = q.coeff i := by
  intro i
  rw [← coeff_toPolynomial, ← sum_terms, terms_inj h, sum_terms, coeff_toPolynomial]

end DensePoly

end PolyExpand
