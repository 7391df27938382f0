import PolyExpand.DensePoly.Term
import PolyExpand.Numeral

/-!
# Polynomials in print

A polynomial is printed from its highest power down, as in
`- x^3 + 1/2x - 7`. Terms whose coefficient is zero are left out, and so is
a coefficient of one or minus one in front of a power. Signs stand between
the terms with a space on each side; in front of the first term only a minus
is printed. The zero polynomial has no terms, and its text is empty.
-/

namespace PolyExpand

namespace Term

/-- A term without its sign: the coefficient, then the power. A coefficient
of magnitude one shows only where there is no power to show. -/
def unsigned (t : Term) : List Char :=
  if t.exponent = 0 then Numeral.magnitude t.coefficient
  else if t.coefficient = 1 ∨ t.coefficient = -1 then Numeral.power t.exponent
  else Numeral.magnitude t.coefficient ++ Numeral.power t.exponent

/-- A term at the front of a polynomial. -/
def leadingText (t : Term) : List Char :=
  if t.coefficient < 0 then '-' :: ' ' :: t.unsigned else t.unsigned

/-- A term behind another one. -/
def followingText (t : Term) : List Char :=
  ' ' :: (if t.coefficient < 0 then '-' else '+') :: ' ' :: t.unsigned

end Term

namespace DensePoly

/-- The terms whose coefficient is not zero, highest power first. -/
def terms (p : DensePoly) : List Term :=
  ((p.coeffs.zipIdx.filter fun (c, _) => c ≠ 0).map fun (c, i) => ⟨c, i⟩).reverse

/-- The printed form of a polynomial. -/
def text (p : DensePoly) : List Char :=
  match p.terms with
  | [] => []
  | t :: ts => t.leadingText ++ ts.flatMap Term.followingText

instance : ToString DensePoly := ⟨fun p => String.ofList p.text⟩

end DensePoly

end PolyExpand
