/-!
# Markers — the three operator signs

A marker is an operator before anybody has decided what it operates on: the
lexer finds it, the nesting keeps it in place among its neighbours, and
resolution turns it into the shape of a sum of products. Each marker is one
character, and `ofChar?_eq_some_iff` says that nothing else reads as one.
-/

namespace PolyExpand

/-- An operator sign: `+`, `-` or `*`. -/
inductive Marker where
  | plus
  | minus
  | times
deriving DecidableEq, Repr

namespace Marker

/-- The character that a marker is written with. -/
def char : Marker → Char
  | plus => '+'
  | minus => '-'
  | times => '*'

/-- The marker that a character writes, if it writes one. -/
def ofChar? (c : Char) : Option Marker :=
  if c = '+' then some plus
  else if c = '-' then some minus
  else if c = '*' then some times
  else none

@[simp] theorem ofChar?_char (m : Marker) : ofChar? m.char = some m := by
  cases m <;> rfl

/-- A character reads as a marker exactly when that marker writes it. -/
theorem ofChar?_eq_some_iff {c : Char} {m : Marker} :
    ofChar? c = some m ↔ c = m.char := by
  constructor
  · intro h
    unfold ofChar? at h
    repeat' split at h
    all_goals simp_all [char]
    all_goals subst h; rfl
  · rintro rfl
    exact ofChar?_char m

end Marker

end PolyExpand
