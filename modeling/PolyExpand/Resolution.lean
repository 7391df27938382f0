import PolyExpand.Marker

/-!
# Resolution — precedence without a grammar

A flat sequence of operators and operands, whatever their order, is read as
a sum of products. Nothing is ever refused: an operator that finds no
operand is left out, two operands side by side are multiplied, and signs
may be repeated at will. Four steps lead from the sequence to its terms.

1. `dropUnaryPlus`: a `+` behind a `-` or a `*` says nothing, and is left
   out. (A later one is looked at with the sequence as it then is, so a whole
   run of them disappears.)
2. `regions`: the sequence is cut wherever two neighbours do not `bind`. A
   `*` binds on both sides; a `-` binds to what follows it and starts a new
   region; a `+` binds to neither; bare neighbours bind.
3. `factors`: within a region every `-` becomes a factor of minus one in
   front of what follows it, operands stay, and all other signs go.
4. A region without factors is no term, a single factor is a term of its own,
   and several are multiplied; likewise a single term is the result, and any
   other number of terms is added.

What the operands are does not matter to any of this. An `Assembly` says
what minus one, a product and a sum are, and the same four steps then build
a tree, or compute a value. `resolve_map` is the reason that the two agree:
a function that respects minus one, products and sums may be applied to the
operands before, or to the result after.
-/

namespace PolyExpand

variable {α β : Type}

/-- A member of a flat sequence: an operator, or something to operate on. -/
inductive Piece (α : Type) where
  | marker (m : Marker)
  | operand (a : α)
deriving DecidableEq

namespace Piece

/-- Changes what the operands are. -/
def map (f : α → β) : Piece α → Piece β
  | marker m => .marker m
  | operand a => .operand (f a)

/-- Behind a `-` or a `*` only an operand makes sense. -/
def awaitsOperand : Piece α → Bool
  | marker .minus | marker .times => true
  | marker .plus | operand _ => false

/-- Whether two neighbours belong to one region. -/
def binds : Piece α → Piece α → Bool
  | marker .times, _ | _, marker .times => true
  | marker .minus, _ => true
  | _, marker .minus => false
  | marker .plus, _ | _, marker .plus => false
  | operand _, operand _ => true

@[simp] theorem awaitsOperand_map (f : α → β) (p : Piece α) :
    (p.map f).awaitsOperand = p.awaitsOperand := by
  rcases p with m | a
  · cases m <;> rfl
  · rfl

@[simp] theorem binds_map (f : α → β) (p q : Piece α) :
    binds (p.map f) (q.map f) = binds p q := by
  rcases p with m | a <;> rcases q with n | b
  · cases m <;> cases n <;> rfl
  · cases m <;> rfl
  · cases n <;> rfl
  · rfl

end Piece

/-! ## The steps -/

/-- Leaves out every `+` whose nearest kept predecessor awaits an operand;
`awaiting` says whether the predecessor of the first piece does. -/
def dropUnaryPlusFrom (awaiting : Bool) : List (Piece α) → List (Piece α)
  | [] => []
  | .marker .plus :: ps =>
    if awaiting then dropUnaryPlusFrom true ps
    else .marker .plus :: dropUnaryPlusFrom false ps
  | p :: ps => p :: dropUnaryPlusFrom p.awaitsOperand ps

/-- Leaves out every `+` behind a `-` or a `*`. -/
def dropUnaryPlus (ps : List (Piece α)) : List (Piece α) :=
  dropUnaryPlusFrom false ps

/-- The longest runs in which each piece binds to the next. -/
def regions (ps : List (Piece α)) : List (List (Piece α)) :=
  ps.splitBy Piece.binds

/-- The factors of a region: minus one for every `-` that something follows,
and the operands. -/
def factors (negOne : α) : List (Piece α) → List α
  | [] => []
  | .operand a :: ps => a :: factors negOne ps
  | .marker .minus :: p :: ps => negOne :: factors negOne (p :: ps)
  | .marker _ :: ps => factors negOne ps

/-- What terms are made of, and how. -/
structure Assembly (α : Type) where
  negOne : α
  product : List α → α
  sum : List α → α

namespace Assembly

/-- The term that factors make, if there are any. -/
def term? (A : Assembly α) : List α → Option α
  | [] => none
  | [a] => some a
  | as => some (A.product as)

/-- The terms of a sequence, one for each region that has factors. -/
def terms (A : Assembly α) (ps : List (Piece α)) : List α :=
  (regions (dropUnaryPlus ps)).filterMap fun region => A.term? (factors A.negOne region)

/-- The result that terms make. -/
def total (A : Assembly α) : List α → α
  | [a] => a
  | as => A.sum as

/-- Reads a flat sequence as a sum of products. -/
def resolve (A : Assembly α) (ps : List (Piece α)) : α := A.total (A.terms ps)

end Assembly

/-! ## The steps do not look at operands -/

theorem dropUnaryPlusFrom_map (f : α → β) : ∀ (awaiting : Bool) (ps : List (Piece α)),
    dropUnaryPlusFrom awaiting (ps.map (Piece.map f)) =
      (dropUnaryPlusFrom awaiting ps).map (Piece.map f)
  | _, [] => rfl
  | awaiting, .marker .plus :: ps => by
    cases awaiting
    · exact congrArg _ (dropUnaryPlusFrom_map f false ps)
    · exact dropUnaryPlusFrom_map f true ps
  | _, .marker .minus :: ps => congrArg _ (dropUnaryPlusFrom_map f true ps)
  | _, .marker .times :: ps => congrArg _ (dropUnaryPlusFrom_map f true ps)
  | _, .operand _ :: ps => congrArg _ (dropUnaryPlusFrom_map f false ps)

/-- One turn of the loop that splits a list into runs. -/
theorem splitByLoop_cons {γ : Type} (r : γ → γ → Bool) (b : γ) (l : List γ) (a : γ)
    (g : List γ) (gs : List (List γ)) :
    List.splitBy.loop r (b :: l) a g gs =
      match r a b with
      | true => List.splitBy.loop r l b (a :: g) gs
      | false => List.splitBy.loop r l b [] ((a :: g).reverse :: gs) := rfl

/-- Splitting commutes with a map that the relation does not notice. -/
theorem splitByLoop_map {γ δ : Type} (f : γ → δ) (r : γ → γ → Bool) (s : δ → δ → Bool)
    (h : ∀ a b, s (f a) (f b) = r a b) :
    ∀ (l : List γ) (a : γ) (g : List γ) (gs : List (List γ)),
      List.splitBy.loop s (l.map f) (f a) (g.map f) (gs.map (List.map f)) =
        (List.splitBy.loop r l a g gs).map (List.map f)
  | [], a, g, gs => by
    show ((f a :: g.map f).reverse :: gs.map (List.map f)).reverse =
      (((a :: g).reverse :: gs).reverse).map (List.map f)
    simp
  | b :: l, a, g, gs => by
    rw [List.map_cons, splitByLoop_cons, splitByLoop_cons, h]
    split
    next => exact splitByLoop_map f r s h l b (a :: g) gs
    next =>
      have := splitByLoop_map f r s h l b [] ((a :: g).reverse :: gs)
      simpa using this

theorem regions_map (f : α → β) (ps : List (Piece α)) :
    regions (ps.map (Piece.map f)) = (regions ps).map (List.map (Piece.map f)) := by
  cases ps with
  | nil => rfl
  | cons p ps => exact splitByLoop_map _ _ _ (Piece.binds_map f) ps p [] []

theorem factors_map (f : α → β) (negOne : α) : ∀ ps : List (Piece α),
    factors (f negOne) (ps.map (Piece.map f)) = (factors negOne ps).map f
  | [] => rfl
  | .operand _ :: ps => congrArg _ (factors_map f negOne ps)
  | .marker .minus :: p :: ps => congrArg _ (factors_map f negOne (p :: ps))
  | [.marker .minus] => rfl
  | .marker .plus :: ps => factors_map f negOne ps
  | .marker .times :: ps => factors_map f negOne ps

/-- A map that respects minus one, products and sums may be applied before
resolution or after it. -/
theorem Assembly.resolve_map (f : α → β) (A : Assembly α) (B : Assembly β)
    (negOne : f A.negOne = B.negOne)
    (product : ∀ as, f (A.product as) = B.product (as.map f))
    (sum : ∀ as, f (A.sum as) = B.sum (as.map f)) (ps : List (Piece α)) :
    f (A.resolve ps) = B.resolve (ps.map (Piece.map f)) := by
  have term : ∀ as, (A.term? as).map f = B.term? (as.map f)
    | [] => rfl
    | [_] => rfl
    | a :: b :: as => congrArg some (product (a :: b :: as))
  have total : ∀ as, f (A.total as) = B.total (as.map f)
    | [] => sum []
    | [_] => rfl
    | a :: b :: as => sum (a :: b :: as)
  have terms : (A.terms ps).map f = B.terms (ps.map (Piece.map f)) := by
    rw [Assembly.terms, Assembly.terms, dropUnaryPlus, dropUnaryPlus, dropUnaryPlusFrom_map,
      regions_map, List.filterMap_map, List.map_filterMap]
    congr
    funext region
    show (A.term? (factors A.negOne region)).map f =
      B.term? (factors B.negOne (region.map (Piece.map f)))
    rw [← negOne, factors_map, term]
  rw [Assembly.resolve, total, terms, Assembly.resolve]

end PolyExpand
