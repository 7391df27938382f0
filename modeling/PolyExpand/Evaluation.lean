import PolyExpand.DensePoly.Term
import PolyExpand.Node.Resolve

/-!
# Evaluation — the polynomial that a tree stands for

Numbers are constants, powers are powers, sums and products are added up and
multiplied from left to right, starting from zero and from one. A group is
evaluated through resolution, but no tree is built for that: the flat
sequence of markers and values is put together by the same steps that build
resolved trees (`Resolution`), this time with polynomial arithmetic.

A marker has a meaning only within a group. One that stands alone, or
directly below a sum or a product, makes the evaluation fail, and so does a
product that is too long to store. The leftmost fault ends the evaluation,
and nothing behind it is computed. That matters, because a polynomial may be
far too long to be stored although its tree is small: values are passed on
*deferred*, and are computed when a sum or a product asks for them.

The equations `evaluate_sum` and `evaluate_product` state what sums and
products are worth without any mention of deferral, and `evaluate_resolve`
says that the detour over the resolved tree gives the same value. Together
with the values of leaves they are all there is to know about `evaluate`.
-/

namespace PolyExpand

/-- Why a tree has no value. -/
inductive EvalFault where
  /-- A marker where only operands may stand. -/
  | bareMarker (m : Marker)
  /-- A product with more than `maxWord` coefficients. -/
  | degreeOverflow
deriving DecidableEq, Repr

/-- The sentence that reports a tree without a value. -/
def EvalFault.message : EvalFault → String
  | bareMarker m =>
    "internal error: entered unreachable code: operator `" ++ m.char.toString ++
      "` survived resolution"
  | degreeOverflow => "polynomial degree overflows usize"

/-- The outcome of an evaluation. -/
abbrev Value := Except EvalFault DensePoly

/-- A value that is computed when it is asked for. -/
abbrev DeferredValue := Unit → Value

namespace Value

/-- Adds a value to a polynomial. -/
def plus (p : DensePoly) (v : Value) : Value := do
  return p.add (← v)

/-- Multiplies a polynomial by a value. -/
def times (p : DensePoly) (v : Value) : Value := do
  match p.mul? (← v) with
  | some product => return product
  | none => throw .degreeOverflow

end Value

namespace DeferredValue

/-- Adds values, from zero and from the left, up to the first fault. -/
def sum (vs : List DeferredValue) : Value :=
  vs.foldlM (fun p v => Value.plus p (v ())) .zero

/-- Multiplies values, from one and from the left, up to the first fault. -/
def product (vs : List DeferredValue) : Value :=
  vs.foldlM (fun p v => Value.times p (v ())) .one

/-- Values are put together by polynomial arithmetic. -/
def assembly : Assembly DeferredValue where
  negOne _ := .ok (.constant (-1))
  product vs _ := product vs
  sum vs _ := sum vs

end DeferredValue

namespace Node

mutual

/-- The polynomial that a tree stands for. -/
def evaluate : Node → Value
  | marker m => .error (.bareMarker m)
  | number q => .ok (.constant q)
  | power e => .ok (Term.poly ⟨1, e⟩)
  | group cs => DeferredValue.assembly.resolve (deferredPieces cs) ()
  | sum cs => DeferredValue.sum (deferredAll cs)
  | product cs => DeferredValue.product (deferredAll cs)

/-- Children as a flat sequence of markers and values, none computed yet. -/
def deferredPieces : List Node → List (Piece DeferredValue)
  | [] => []
  | marker m :: cs => .marker m :: deferredPieces cs
  | c :: cs => .operand (fun _ => evaluate c) :: deferredPieces cs

/-- The value of each tree of a list, none computed yet. -/
def deferredAll : List Node → List DeferredValue
  | [] => []
  | c :: cs => (fun _ => evaluate c) :: deferredAll cs

end

/-- The value of a tree, not computed yet. -/
def deferred (n : Node) : DeferredValue := fun _ => n.evaluate

theorem deferredAll_eq_map : ∀ cs : List Node, deferredAll cs = cs.map deferred
  | [] => rfl
  | c :: cs => congrArg (List.cons (deferred c)) (deferredAll_eq_map cs)

/-- A sum is worth the values of its children, added up from the left. -/
theorem evaluate_sum (cs : List Node) :
    evaluate (.sum cs) = cs.foldlM (fun p c => Value.plus p c.evaluate) .zero := by
  rw [evaluate, deferredAll_eq_map, DeferredValue.sum, List.foldlM_map]
  rfl

/-- A product is worth the values of its children, multiplied from the left. -/
theorem evaluate_product (cs : List Node) :
    evaluate (.product cs) = cs.foldlM (fun p c => Value.times p c.evaluate) .one := by
  rw [evaluate, deferredAll_eq_map, DeferredValue.product, List.foldlM_map]
  rfl

/-- If resolving children does not change their values, then evaluating them
is the same as resolving them and evaluating the operands. -/
theorem deferredPieces_eq_map : ∀ cs : List Node,
    (∀ c ∈ cs, evaluate (resolve c) = evaluate c) →
      deferredPieces cs = (resolvedPieces cs).map (Piece.map deferred)
  | [], _ => rfl
  | c :: cs, h => by
    have hc : (fun _ => evaluate c) = deferred (resolve c) :=
      funext fun _ => (h c (by simp)).symm
    have hcs := deferredPieces_eq_map cs fun d hd => h d (by simp [hd])
    cases c with
    | marker m => exact congrArg (List.cons (Piece.marker m)) hcs
    | _ => exact congr (congrArg (fun v => List.cons (Piece.operand v)) hc) hcs

/-- The resolved tree has the same value. -/
theorem evaluate_resolve (n : Node) : evaluate (resolve n) = evaluate n := by
  induction n using Node.induction with
  | marker m => rfl
  | number q => rfl
  | power e => rfl
  | sum cs _ => rfl
  | product cs _ => rfl
  | group cs ih =>
    have product : ∀ as, deferred (.product as) =
        DeferredValue.assembly.product (as.map deferred) := fun as => by
      funext
      rw [deferred, evaluate, deferredAll_eq_map]
      rfl
    have sum : ∀ as, deferred (.sum as) =
        DeferredValue.assembly.sum (as.map deferred) := fun as => by
      funext
      rw [deferred, evaluate, deferredAll_eq_map]
      rfl
    have negOne : deferred Node.assembly.negOne = DeferredValue.assembly.negOne := by
      funext
      rw [deferred, Node.assembly, evaluate]
      rfl
    have resolved := Assembly.resolve_map deferred Node.assembly DeferredValue.assembly
      negOne product sum (resolvedPieces cs)
    rw [resolve, evaluate, deferredPieces_eq_map cs ih, ← resolved, deferred]

end Node

end PolyExpand
