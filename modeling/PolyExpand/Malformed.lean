import PolyExpand.Limits

/-!
# Malformed expressions — what can be wrong with a text, and where

A text is malformed in one of four ways (`Fault`), each of them at a range
of bytes (`Span`). A fault is a cause, not a wording: the sentence that
reports it, the code it is filed under, the advice given and the note put
at the place are each one function of the cause. Advice is missing for a
bad number alone, whose sentence already says what is wrong.
-/

namespace PolyExpand

/-- A range of bytes of the text. -/
structure Span where
  offset : Nat
  length : Nat
deriving DecidableEq, Repr

/-- What is wrong with a number or an exponent. -/
inductive NumberFault where
  /-- Nothing after `^` is a digit. -/
  | missingExponent
  /-- The exponent is not even a machine word. -/
  | exponentOverflow
  /-- The exponent is a word, but above `maxExponent`. -/
  | exponentTooLarge (exponent : Nat)
  /-- A fraction over zero. -/
  | zeroDenominator
deriving DecidableEq, Repr

/-- The reason given for refusing a number. -/
def NumberFault.reason : NumberFault → String
  | missingExponent => "expected exponent digits after `^`"
  | exponentOverflow => "number too large to fit in target type"
  | exponentTooLarge e =>
    "exponent " ++ toString e ++ " exceeds the maximum of " ++ toString maxExponent
  | zeroDenominator => "denominator must not be zero"

/-- What is wrong with a text. -/
inductive Fault where
  /-- A character that starts no token. -/
  | unexpectedCharacter (c : Char)
  /-- A `)` that closes nothing. -/
  | unmatchedClose
  /-- A `(` that nothing closes. -/
  | unclosedOpen
  /-- A number or an exponent that has no value. -/
  | invalidNumber (cause : NumberFault)
deriving DecidableEq, Repr

namespace Fault

/-- The sentence that reports a fault. -/
def message : Fault → String
  | unexpectedCharacter c => "Unexpected character '" ++ c.toString ++ "'"
  | unmatchedClose => "Unmatched closing parenthesis"
  | unclosedOpen => "Unclosed parenthesis"
  | invalidNumber cause => "Invalid numeric literal: " ++ cause.reason

/-- The code that a fault is filed under. -/
def code : Fault → String
  | unexpectedCharacter _ => "polypen::unexpected_character"
  | unmatchedClose => "polypen::unmatched_close"
  | unclosedOpen => "polypen::unclosed_open"
  | invalidNumber _ => "polypen::invalid_number"

/-- Advice on how to mend the text, where there is any. -/
def help? : Fault → Option String
  | unexpectedCharacter c => some ("remove or correct the character: `" ++ c.toString ++ "`")
  | unmatchedClose => some "remove the `)` or open a group before it"
  | unclosedOpen => some "the input ended before this group was closed, add a `)`"
  | invalidNumber _ => none

/-- The note put at the place of the fault. -/
def label : Fault → String
  | unexpectedCharacter _ => "this character"
  | unmatchedClose => "no `(` to close here"
  | unclosedOpen => "this `(` is never closed"
  | invalidNumber _ => "this numeric literal"

end Fault

/-- A malformed text: what is wrong, and at which bytes. -/
structure Malformed where
  fault : Fault
  span : Span
deriving DecidableEq, Repr

end PolyExpand
