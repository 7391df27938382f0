import PolyExpand.Proofs.Literals

/-!
# Moves — the byte kept up to date at every move

`Cursor.next` counts bytes when a step is over: those of the gap, and those of the segment that
the lexeme has turned out to have. A lexer that reads as it goes has to count at every move, over
a blank, over the characters of a name, over a `^` or a `/`, and over digits. It knows where a
report belongs only from where it stands: a `^` with nothing behind it is one byte back, digits
that make no exponent are as many bytes back as there are, and a literal is what lies between two
bytes of the text.

`Cursor.walk` reads in that way, one character or one run at a time. What is counted at the moves
adds up to what is counted at the end, on every path through a step:

> `Cursor.walk_eq_next`: both steps find the same, and leave the cursor at the same byte.
-/

namespace PolyExpand

open Text

/-! ## Bytes of a text -/

/-- The characters that the first bytes of a text encode. -/
def Text.takeBytes (n : Nat) : List Char → List Char
  | [] => []
  | c :: cs => if c.utf8Size ≤ n then c :: takeBytes (n - c.utf8Size) cs else []

theorem Text.takeBytes_zero (cs : List Char) : takeBytes 0 cs = [] := by
  cases cs with
  | nil => rfl
  | cons c cs => exact if_neg (Nat.not_le_of_lt c.utf8Size_pos)

theorem Text.takeBytes_append (front rest : List Char) :
    takeBytes (byteSize front) (front ++ rest) = front := by
  induction front with
  | nil => exact takeBytes_zero rest
  | cons c front ih =>
    rw [byteSize_cons, List.cons_append, takeBytes, if_pos (Nat.le_add_right _ _),
      Nat.add_sub_cancel_left, ih]

/-- The bytes from one place to another. -/
def Span.between (start stop : Nat) : Span := ⟨start, stop - start⟩

theorem Span.between_add (start length : Nat) : between start (start + length) = ⟨start, length⟩ := by
  rw [between, Nat.add_sub_cancel_left]

namespace Cursor

/-! ## Moves -/

/-- Moves over characters that stand in front of the cursor. -/
def pass (run : List Char) (k : Cursor) : Cursor := ⟨k.byte + byteSize run, k.rest.drop run.length⟩

/-- Moves over the digits in front of the cursor. -/
def takeDigits (k : Cursor) : List Char × Cursor :=
  let digits := k.rest.takeWhile Char.isDigit
  (digits, k.pass digits)

/-- Reads an exponent, from behind its `^`. -/
def exponent (k : Cursor) : Except Malformed Nat × Cursor :=
  let caret := k.byte - 1
  let (digits, behind) := k.takeDigits
  if digits = [] then
    (.error ⟨.invalidNumber .missingExponent, .between caret behind.byte⟩, behind)
  else
    match Lexeme.exponentFault? (Numeral.value digits) with
    | some cause =>
      let start := behind.byte - byteSize digits
      (.error ⟨.invalidNumber cause, .between start behind.byte⟩, behind)
    | none => (.ok (Numeral.value digits), behind)

/-- Reads an exponent, if there is one behind a name. -/
def nameEnd (k : Cursor) : Except Malformed Token × Cursor :=
  match k.rest with
  | '^' :: _ =>
    let (e, last) := (k.pass ['^']).exponent
    (e.map .power, last)
  | _ => (.ok (.power 1), k)

/-- Reads a power, from behind the first letter of its name. -/
def name (k : Cursor) : Except Malformed Token × Cursor :=
  (k.pass (k.rest.takeWhile isNameChar)).nameEnd

/-- Reads a denominator, if there is one behind digits that start at a byte. -/
def numberEnd (start : Nat) (digits : List Char) (k : Cursor) : Except Malformed Token × Cursor :=
  match k.rest with
  | '/' :: d :: _ =>
    if d.isDigit then
      let (denominator, last) := (k.pass ['/']).takeDigits
      if Numeral.value denominator = 0 then
        (.error ⟨.invalidNumber .zeroDenominator, .between start last.byte⟩, last)
      else
        (.ok (.number (mkRat (Numeral.value digits) (Numeral.value denominator))), last)
    else (.ok (.number (Numeral.value digits)), k)
  | _ => (.ok (.number (Numeral.value digits)), k)

/-- Reads a number that starts at a byte, from behind its first digit. -/
def number (start : Nat) (first : Char) (k : Cursor) : Except Malformed Token × Cursor :=
  let more := k.rest.takeWhile Char.isDigit
  (k.pass more).numberEnd start (first :: more)

/-- Reads a sign that starts at a byte, from behind it. -/
def sign (start : Nat) (c : Char) (k : Cursor) : Except Malformed Token × Cursor :=
  if c = '(' then (.ok .openParen, k)
  else if c = ')' then (.ok .closeParen, k)
  else match Marker.ofChar? c with
    | some m => (.ok (.marker m), k)
    | none => (.error ⟨.unexpectedCharacter c, .between start k.byte⟩, k)

/-- Reads what starts with a character at a byte, from behind the character. -/
def word (start : Nat) (c : Char) (k : Cursor) : Except Malformed Token × Cursor :=
  if isLetter c then k.name
  else if c.isDigit then k.number start c
  else k.sign start c

/-- A token with the characters that write it, and the byte at which it starts. -/
structure Word where
  token : Token
  literal : List Char
  offset : Nat
deriving DecidableEq

/-- One step, one move after the other. -/
def walk (k : Cursor) : Option (Except Malformed Word) × Cursor :=
  match _h : k.rest with
  | [] => (none, k)
  | c :: _ =>
    let behind := k.pass [c]
    if isBlank c then walk behind
    else
      let (found, last) := behind.word k.byte c
      (some (found.map fun t => ⟨t, takeBytes (last.byte - k.byte) k.rest, k.byte⟩), last)
termination_by k.rest.length
decreasing_by simp [pass, _h]

/-! ## What is counted adds up -/

theorem pass_append (byte : Nat) (run left : List Char) :
    pass run ⟨byte, run ++ left⟩ = ⟨byte + byteSize run, left⟩ := by
  rw [pass, List.drop_left]

theorem pass_takeWhile (p : Char → Bool) (byte : Nat) (rest : List Char) :
    pass (rest.takeWhile p) ⟨byte, rest⟩ =
      ⟨byte + byteSize (rest.takeWhile p), rest.dropWhile p⟩ := by
  have hmove := pass_append byte (rest.takeWhile p) (rest.dropWhile p)
  rwa [List.takeWhile_append_dropWhile] at hmove

theorem takeDigits_mk (byte : Nat) (rest : List Char) :
    takeDigits ⟨byte, rest⟩ = (rest.takeWhile Char.isDigit,
      ⟨byte + byteSize (rest.takeWhile Char.isDigit), rest.dropWhile Char.isDigit⟩) := by
  rw [takeDigits, pass_takeWhile]

/-- A lexeme that starts at a byte, as a token or a report, and the cursor behind it. -/
def placed (start : Nat) (x : Lexeme × List Char) : Except Malformed Token × Cursor :=
  ((⟨start, x.1⟩ : Item).token, ⟨start + byteSize x.1.segment, x.2⟩)

/-- Without digits the report goes back over the `^`, and otherwise over the digits. -/
theorem exponent_eq (start : Nat) (name rest : List Char) :
    let read := exponent ⟨start + byteSize (name ++ ['^']), rest⟩
    (read.1.map .power, read.2) = placed start
      (Lexeme.power name (rest.takeWhile Char.isDigit), rest.dropWhile Char.isDigit) := by
  intro read
  simp only [read, exponent, takeDigits_mk, placed, Lexeme.segment_power]
  generalize rest.takeWhile Char.isDigit = digits
  have hstop : start + byteSize (name ++ ['^']) + byteSize digits =
      start + byteSize (name ++ '^' :: digits) := by
    rw [Nat.add_assoc, ← byteSize_append, ← List.append_cons]
  rw [hstop]
  by_cases hdigits : digits = []
  · -- The `^` is the last character that was moved over.
    subst hdigits
    have hcaret : start + byteSize (name ++ ['^']) = start + byteSize name + 1 := by
      rw [byteSize_append]
      rfl
    simp only [hcaret, Nat.add_sub_cancel, Span.between_add, if_true, Lexeme.power]
    rfl
  · cases hfault : Lexeme.exponentFault? (Numeral.value digits) with
    | none =>
      simp only [hdigits, hfault, if_false, Lexeme.power]
      rfl
    | some cause =>
      simp only [hdigits, hfault, if_false, Lexeme.power, ← hstop, Nat.add_sub_cancel,
        Span.between_add]
      rfl

theorem nameEnd_eq (start : Nat) (name after : List Char) :
    nameEnd ⟨start + byteSize name, after⟩ = placed start
      (match after with
      | '^' :: after =>
        (Lexeme.power name (after.takeWhile Char.isDigit), after.dropWhile Char.isDigit)
      | after => (.token (.power 1) name, after)) := by
  unfold nameEnd
  split
  next after hafter =>
    obtain rfl : _ = '^' :: after := hafter
    have hcaret := pass_append (start + byteSize name) ['^'] after
    rw [List.singleton_append, Nat.add_assoc, ← byteSize_append] at hcaret
    rw [hcaret]
    exact exponent_eq start name after
  next => rfl

theorem name_eq (start : Nat) (c : Char) (rest : List Char) :
    name ⟨start + c.utf8Size, rest⟩ = placed start (Lexeme.scanName c rest) := by
  rw [name, pass_takeWhile, Nat.add_assoc]
  exact nameEnd_eq start (c :: rest.takeWhile isNameChar) (rest.dropWhile isNameChar)

theorem numberEnd_eq (start : Nat) (digits after : List Char) :
    numberEnd start digits ⟨start + byteSize digits, after⟩ = placed start
      (match after with
      | '/' :: d :: after =>
        if d.isDigit then
          (Lexeme.fraction digits (d :: after.takeWhile Char.isDigit),
            after.dropWhile Char.isDigit)
        else (Lexeme.whole digits, '/' :: d :: after)
      | after => (Lexeme.whole digits, after)) := by
  unfold numberEnd
  split
  next d after hafter =>
    obtain rfl : _ = '/' :: d :: after := hafter
    by_cases hd : d.isDigit = true
    · have hslash := pass_append (start + byteSize digits) ['/'] (d :: after)
      rw [List.singleton_append] at hslash
      simp only [hd, if_true, hslash, takeDigits_mk, List.takeWhile_cons_of_pos hd,
        List.dropWhile_cons_of_pos hd, placed, Lexeme.segment_fraction]
      generalize d :: after.takeWhile Char.isDigit = denominator
      have hstop : start + byteSize digits + byteSize ['/'] + byteSize denominator =
          start + byteSize (digits ++ '/' :: denominator) := by
        rw [Nat.add_assoc, Nat.add_assoc, ← byteSize_append, ← byteSize_append]
        rfl
      rw [hstop, Span.between_add, Lexeme.fraction]
      split
      next => rfl
      next => rfl
    · simp only [hd]
      rfl
  next => rfl

theorem number_eq (start : Nat) (c : Char) (rest : List Char) :
    number start c ⟨start + c.utf8Size, rest⟩ = placed start (Lexeme.scanNumber c rest) := by
  rw [number, pass_takeWhile, Nat.add_assoc]
  exact numberEnd_eq start (c :: rest.takeWhile Char.isDigit) (rest.dropWhile Char.isDigit)

theorem sign_eq (start : Nat) (c : Char) (rest : List Char) :
    sign start c ⟨start + c.utf8Size, rest⟩ = placed start (Lexeme.sign c, rest) := by
  simp only [sign, placed, Span.between_add, Lexeme.sign]
  by_cases hopen : c = '('
  · simp only [hopen]
    rfl
  by_cases hclose : c = ')'
  · simp only [hclose]
    rfl
  cases hmarker : Marker.ofChar? c with
  | some m =>
    simp only [hopen, hclose, if_false]
    rfl
  | none =>
    simp only [hopen, hclose, if_false]
    rfl

theorem word_eq (start : Nat) (c : Char) (rest : List Char) :
    word start c ⟨start + c.utf8Size, rest⟩ = placed start (Lexeme.scan c rest) := by
  unfold word Lexeme.scan
  split
  next => exact name_eq start c rest
  next =>
    split
    next => exact number_eq start c rest
    next => exact sign_eq start c rest

end Cursor

/-- An item as a word, if it is a token. -/
def Item.word (i : Item) : Except Malformed Cursor.Word :=
  i.token.map fun t => ⟨t, i.lexeme.segment, i.offset⟩

namespace Cursor

/-- **A step that counts at every move** finds what a step finds that counts at the end, and
stands where it stands. -/
theorem walk_eq_next (k : Cursor) : k.walk = (k.next.1.map Item.word, k.next.2) := by
  obtain ⟨start, rest⟩ := k
  induction rest generalizing start with
  | nil =>
    rw [walk]
    rfl
  | cons c rest ih =>
    have hmove : pass [c] ⟨start, c :: rest⟩ = ⟨start + c.utf8Size, rest⟩ :=
      pass_append start [c] rest
    rw [walk]
    by_cases hc : isBlank c = true
    · simp only [hc, if_true, hmove, ih, next_blank hc]
    · have hscan := Lexeme.scan_append c rest
      have hfound := next_found (Lexeme.found_scan (Bool.eq_false_iff.mpr hc) rest) start
      have hliteral := takeBytes_append (Lexeme.scan c rest).1.segment (Lexeme.scan c rest).2
      rw [hscan] at hfound hliteral
      simp only [hc, hmove, hfound, word_eq, placed, Nat.add_sub_cancel_left, hliteral]
      rfl

end Cursor

end PolyExpand
