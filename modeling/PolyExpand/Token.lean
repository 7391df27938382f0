import PolyExpand.Marker
import PolyExpand.Numeral

/-!
# Tokens — the words of an expression

A token is what a piece of text means on its own: a parenthesis, an operator
marker, a number, or the indeterminate raised to a power. The name that the
indeterminate was written with is not part of the token, because an
expression has only one indeterminate; nor is the spelling of a number,
because `2/4` and `1/2` are the same rational. The spelling, called the
*literal*, travels beside the token, and `Token.line` prints both.
-/

namespace PolyExpand

/-- The meaning of one word of an expression. -/
inductive Token where
  | openParen
  | closeParen
  | marker (m : Marker)
  | number (value : Rat)
  | power (exponent : Nat)
deriving DecidableEq

namespace Token

/-- The class of a token, as listings name it. -/
def kind : Token → String
  | openParen => "LEFT_PAREN"
  | closeParen => "RIGHT_PAREN"
  | marker .plus => "PLUS"
  | marker .minus => "MINUS"
  | marker .times => "STAR"
  | number _ => "NUMBER"
  | power _ => "VARIABLE"

/-- The value of a token, as listings print it: the rational, the exponent,
or `null` for a token that is only a sign. -/
def valueText : Token → List Char
  | number q => Numeral.rational q
  | power e => Numeral.digits e
  | openParen | closeParen | marker _ => "null".toList

/-- One line of a listing: the class, the literal, the value. -/
def line (t : Token) (literal : List Char) : List Char :=
  t.kind.toList ++ ' ' :: literal ++ ' ' :: t.valueText

end Token

end PolyExpand
