import PolyExpand.Limits
import PolyExpand.Malformed
import PolyExpand.Text
import PolyExpand.Token

/-!
# Lexemes — what one step of reading finds

Reading goes by maximal munch: from a first character that is no blank,
`scan` takes the longest piece of text that belongs together, and says what
it is. It is either a token with its literal, or a fault. A fault is found
in the middle of a piece as often as at its start (`x^`, `2/0`, `x^99999`),
so a faulty lexeme keeps two parts: the characters that were fine, and the
culprit that the report points at.

Either way the *segment* is all that the step consumes, and the two facts
that everything about positions rests on are `scan_append` (the segment
followed by the text left over is the text that was there: nothing is lost
or read twice) and `scan_segment` (the segment starts with the first
character, so every step makes progress).

Two places look further than one character. A `/` behind digits belongs to
a fraction only if a digit follows it, and is left unread otherwise. A `^`
directly behind a name always starts an exponent, whose digits may then be
found missing.
-/

namespace PolyExpand

open Text

/-- What one step of reading finds. -/
inductive Lexeme where
  /-- A token, with the characters that write it. -/
  | token (t : Token) (literal : List Char)
  /-- A fault: the characters consumed before the culprit, and the culprit. -/
  | fault (f : Fault) (before culprit : List Char)
deriving DecidableEq

namespace Lexeme

/-- All characters that a lexeme consumes. -/
def segment : Lexeme → List Char
  | token _ literal => literal
  | fault _ before culprit => before ++ culprit

/-! ## Numbers and powers -/

/-- A run of digits on its own: a natural number. -/
def whole (digits : List Char) : Lexeme :=
  .token (.number (Numeral.value digits)) digits

/-- Two runs of digits around a `/`: a fraction, unless it is over zero. -/
def fraction (numerator denominator : List Char) : Lexeme :=
  let literal := numerator ++ '/' :: denominator
  if Numeral.value denominator = 0 then
    .fault (.invalidNumber .zeroDenominator) [] literal
  else
    .token (.number (mkRat (Numeral.value numerator) (Numeral.value denominator))) literal

/-- Why a value is refused as an exponent, if it is. -/
def exponentFault? (exponent : Nat) : Option NumberFault :=
  if maxWord < exponent then some .exponentOverflow
  else if maxExponent < exponent then some (.exponentTooLarge exponent)
  else none

/-- A name, a `^` and the digits found after it. Without digits the `^` is
to blame, with a value beyond the limits the digits are. -/
def power (name digits : List Char) : Lexeme :=
  if digits = [] then
    .fault (.invalidNumber .missingExponent) name ['^']
  else match exponentFault? (Numeral.value digits) with
    | some cause => .fault (.invalidNumber cause) (name ++ ['^']) digits
    | none => .token (.power (Numeral.value digits)) (name ++ '^' :: digits)

/-- A single character that is neither letter nor digit: a parenthesis, an
operator, or no part of the language. -/
def sign (c : Char) : Lexeme :=
  if c = '(' then .token .openParen [c]
  else if c = ')' then .token .closeParen [c]
  else match Marker.ofChar? c with
    | some m => .token (.marker m) [c]
    | none => .fault (.unexpectedCharacter c) [] [c]

@[simp] theorem segment_whole (digits : List Char) :
    (whole digits).segment = digits := rfl

@[simp] theorem segment_fraction (numerator denominator : List Char) :
    (fraction numerator denominator).segment = numerator ++ '/' :: denominator := by
  unfold fraction
  split <;> rfl

@[simp] theorem segment_power (name digits : List Char) :
    (power name digits).segment = name ++ '^' :: digits := by
  unfold power
  split
  next h => simp [segment, h]
  next => split <;> simp [segment]

/-- An exponent is accepted exactly up to `maxExponent`. -/
theorem exponentFault?_eq_none_iff {exponent : Nat} :
    exponentFault? exponent = none ↔ exponent ≤ maxExponent := by
  have := maxExponent_le_maxWord
  unfold exponentFault?
  split
  next => simp; omega
  next => split <;> simp <;> omega

@[simp] theorem segment_sign (c : Char) : (sign c).segment = [c] := by
  unfold sign
  split
  next => rfl
  next =>
    split
    next => rfl
    next => split <;> rfl

/-! ## One step -/

/-- Reads on after the first letter of a name: the whole name, and the
exponent if a `^` follows it. -/
def scanName (c : Char) (rest : List Char) : Lexeme × List Char :=
  let name := c :: rest.takeWhile isNameChar
  match rest.dropWhile isNameChar with
  | '^' :: after =>
    (power name (after.takeWhile Char.isDigit), after.dropWhile Char.isDigit)
  | after => (.token (.power 1) name, after)

/-- Reads on after the first digit of a number: the whole run of digits,
and a denominator if a `/` and a digit follow it. -/
def scanNumber (c : Char) (rest : List Char) : Lexeme × List Char :=
  let numerator := c :: rest.takeWhile Char.isDigit
  match rest.dropWhile Char.isDigit with
  | '/' :: d :: after =>
    if d.isDigit then
      (fraction numerator (d :: after.takeWhile Char.isDigit),
        after.dropWhile Char.isDigit)
    else (whole numerator, '/' :: d :: after)
  | after => (whole numerator, after)

/-- One step of reading, from a first character that is no blank: the
lexeme, and the text left over. -/
def scan (c : Char) (rest : List Char) : Lexeme × List Char :=
  if isLetter c then scanName c rest
  else if c.isDigit then scanNumber c rest
  else (sign c, rest)

theorem scanName_append (c : Char) (rest : List Char) :
    (scanName c rest).1.segment ++ (scanName c rest).2 = c :: rest := by
  have split_rest := rest.takeWhile_append_dropWhile (p := isNameChar)
  unfold scanName
  split
  next after h =>
    rw [h] at split_rest
    simp [split_rest]
  next => simp [segment]

theorem scanNumber_append (c : Char) (rest : List Char) :
    (scanNumber c rest).1.segment ++ (scanNumber c rest).2 = c :: rest := by
  have split_rest := rest.takeWhile_append_dropWhile (p := Char.isDigit)
  unfold scanNumber
  split
  next d after h =>
    rw [h] at split_rest
    split
    next => simp [split_rest]
    next => simp [split_rest]
  next => simp

/-- The segment followed by the text left over is the text that was there. -/
theorem scan_append (c : Char) (rest : List Char) :
    (scan c rest).1.segment ++ (scan c rest).2 = c :: rest := by
  unfold scan
  split
  next => exact scanName_append c rest
  next =>
    split
    next => exact scanNumber_append c rest
    next => simp

/-- The segment starts with the first character: every step consumes it. -/
theorem scan_segment (c : Char) (rest : List Char) :
    ∃ more, (scan c rest).1.segment = c :: more := by
  unfold scan
  split
  next =>
    unfold scanName
    split
    next => exact ⟨_, segment_power _ _⟩
    next => exact ⟨_, rfl⟩
  next =>
    split
    next =>
      unfold scanNumber
      split
      next => split <;> simp
      next => simp
    next => simp

end Lexeme

end PolyExpand
