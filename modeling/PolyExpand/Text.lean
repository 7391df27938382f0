/-!
# Text — characters, their classes and their size in bytes

Text is worked on as a list of characters. Three classes of characters
matter to the expression language, all of them within ASCII: blanks, digits
and the letters of a name. Positions are counted in bytes of the UTF-8
form, so `byteSize` is the measure that relates characters to positions;
it is additive over `++`, and every character weighs at least one byte.
-/

namespace PolyExpand.Text

/-- Blanks stand between tokens: space, tab, carriage return, line feed. -/
def isBlank (c : Char) : Bool :=
  c == ' ' || c == '\t' || c == '\r' || c == '\n'

/-- A name starts with a letter of the ASCII alphabet, in either case. -/
def isLetter (c : Char) : Bool := c.isAlpha

/-- After its first letter a name goes on with letters, digits and `_`. -/
def isNameChar (c : Char) : Bool := c.isAlpha || c.isDigit || c == '_'

/-- Number of bytes of the UTF-8 form. -/
def byteSize : List Char → Nat
  | [] => 0
  | c :: cs => c.utf8Size + byteSize cs

@[simp] theorem byteSize_nil : byteSize [] = 0 := rfl

@[simp] theorem byteSize_cons (c : Char) (cs : List Char) :
    byteSize (c :: cs) = c.utf8Size + byteSize cs := rfl

@[simp] theorem byteSize_append : ∀ as bs : List Char,
    byteSize (as ++ bs) = byteSize as + byteSize bs
  | [], bs => by simp
  | a :: as, bs => by simp [byteSize_append as bs, Nat.add_assoc]

/-- A text has at least as many bytes as characters. -/
theorem length_le_byteSize : ∀ cs : List Char, cs.length ≤ byteSize cs
  | [] => Nat.le_refl _
  | c :: cs => by
    have := c.utf8Size_pos
    have := length_le_byteSize cs
    simp
    omega

end PolyExpand.Text
