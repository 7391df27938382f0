import PolyExpand.Resolution
import Mathlib.Data.List.SplitBy

/-!
# What resolution does to operands

The four steps of resolution look at markers only, and what they do to the
operands is put together from minus one, products and sums. So a property of
operands can be followed through resolution without looking at the steps again:

> `Assembly.resolve_closed`: what holds of every operand and of minus one, and
> is kept by products and sums, holds of the result.

Products are only ever made of two factors or more, and sums never of exactly
one term, and `resolve_closed` passes this on to whoever has to show that a
product or a sum keeps the property.

Where assembling is concatenation the result can be told outright
(`Assembly.resolve_concat_nil`): nothing is lost, doubled or moved, so the
operands follow each other as they did in the sequence.

An `Assembly` may compute two things at once (`Assembly.pair`), and then a
property of pairs is a relation between two ways of assembling.
-/

namespace PolyExpand

variable {α β : Type}

/-- Leaving out signs adds nothing. -/
theorem mem_of_mem_dropUnaryPlusFrom {p : Piece α} : ∀ {awaiting : Bool} {ps : List (Piece α)},
    p ∈ dropUnaryPlusFrom awaiting ps → p ∈ ps
  | _, [], h => h
  | awaiting, .marker .plus :: ps, h => by
    cases awaiting with
    | true => exact List.mem_cons_of_mem _ (mem_of_mem_dropUnaryPlusFrom h)
    | false =>
      rcases List.mem_cons.mp h with heq | hmem
      · exact heq ▸ List.mem_cons_self ..
      · exact List.mem_cons_of_mem _ (mem_of_mem_dropUnaryPlusFrom hmem)
  | _, .marker .minus :: ps, h | _, .marker .times :: ps, h | _, .operand a :: ps, h => by
    rcases List.mem_cons.mp h with heq | hmem
    · exact heq ▸ List.mem_cons_self ..
    · exact List.mem_cons_of_mem _ (mem_of_mem_dropUnaryPlusFrom hmem)

/-- Cutting a sequence adds nothing. -/
theorem mem_of_mem_regions {p : Piece α} {region ps : List (Piece α)}
    (hregion : region ∈ regions ps) (hp : p ∈ region) : p ∈ ps := by
  rw [← List.flatten_splitBy Piece.binds ps]
  exact List.mem_flatten_of_mem hregion hp

/-- A factor is minus one or an operand. -/
theorem eq_or_mem_of_mem_factors {negOne a : α} : ∀ {ps : List (Piece α)},
    a ∈ factors negOne ps → a = negOne ∨ Piece.operand a ∈ ps
  | [], h => absurd h (by simp [factors])
  | .operand b :: ps, h => by
    rcases List.mem_cons.mp h with heq | hmem
    · exact Or.inr (heq ▸ List.mem_cons_self ..)
    · exact (eq_or_mem_of_mem_factors hmem).imp_right (List.mem_cons_of_mem _)
  | .marker .minus :: p :: ps, h => by
    rcases List.mem_cons.mp h with heq | hmem
    · exact Or.inl heq
    · exact (eq_or_mem_of_mem_factors hmem).imp_right (List.mem_cons_of_mem _)
  | [.marker .minus], h => absurd h (by simp [factors])
  | .marker .plus :: ps, h | .marker .times :: ps, h => by
    have hmem : a ∈ factors negOne ps := h
    exact (eq_or_mem_of_mem_factors hmem).imp_right (List.mem_cons_of_mem _)

theorem factors_minus (negOne : α) {ps : List (Piece α)} (h : ps ≠ []) :
    factors negOne (.marker .minus :: ps) = negOne :: factors negOne ps := by
  cases ps with
  | nil => exact absurd rfl h
  | cons p ps => rfl

/-- The operands of a sequence, in order. -/
def operands : List (Piece α) → List α
  | [] => []
  | .marker _ :: ps => operands ps
  | .operand a :: ps => a :: operands ps

theorem operands_append : ∀ ps qs : List (Piece α),
    operands (ps ++ qs) = operands ps ++ operands qs
  | [], _ => rfl
  | .marker _ :: ps, qs => operands_append ps qs
  | .operand _ :: ps, qs => congrArg _ (operands_append ps qs)

theorem operands_dropUnaryPlusFrom : ∀ (awaiting : Bool) (ps : List (Piece α)),
    operands (dropUnaryPlusFrom awaiting ps) = operands ps
  | _, [] => rfl
  | true, .marker .plus :: ps => operands_dropUnaryPlusFrom true ps
  | false, .marker .plus :: ps => operands_dropUnaryPlusFrom false ps
  | _, .marker .minus :: ps => operands_dropUnaryPlusFrom true ps
  | _, .marker .times :: ps => operands_dropUnaryPlusFrom true ps
  | _, .operand a :: ps => congrArg (a :: ·) (operands_dropUnaryPlusFrom false ps)

theorem flatten_factors_nil {γ : Type} : ∀ ps : List (Piece (List γ)),
    (factors [] ps).flatten = (operands ps).flatten
  | [] => rfl
  | .operand a :: ps => congrArg (a ++ ·) (flatten_factors_nil ps)
  | .marker .minus :: p :: ps => flatten_factors_nil (p :: ps)
  | [.marker .minus] => rfl
  | .marker .plus :: ps => flatten_factors_nil ps
  | .marker .times :: ps => flatten_factors_nil ps

namespace Assembly

/-! ## Properties -/

/-- A property of minus one and of the operands that products keep is a
property of every term. -/
theorem terms_closed {P : α → Prop} (A : Assembly α) (negOne : P A.negOne)
    (product : ∀ as, 2 ≤ as.length → (∀ a ∈ as, P a) → P (A.product as))
    {ps : List (Piece α)} (operand : ∀ a, Piece.operand a ∈ ps → P a) :
    ∀ a ∈ A.terms ps, P a := by
  intro a ha
  obtain ⟨region, hregion, hterm⟩ := List.mem_filterMap.mp ha
  -- A factor has come through three steps, and each of them only takes away.
  have hfactors : ∀ b ∈ factors A.negOne region, P b := by
    intro b hb
    rcases eq_or_mem_of_mem_factors hb with rfl | hmem
    · exact negOne
    · exact operand b (mem_of_mem_dropUnaryPlusFrom (mem_of_mem_regions hregion hmem))
  cases hcase : factors A.negOne region with
  | nil => simp [hcase, term?] at hterm
  | cons b bs =>
    rw [hcase] at hterm hfactors
    cases bs with
    | nil =>
      obtain rfl : b = a := by simpa [term?] using hterm
      exact hfactors b (List.mem_cons_self ..)
    | cons c cs =>
      obtain rfl : A.product (b :: c :: cs) = a := by simpa [term?] using hterm
      exact product _ (by simp) hfactors

/-- **What products and sums keep, resolution keeps.** -/
theorem resolve_closed {P : α → Prop} (A : Assembly α) (negOne : P A.negOne)
    (product : ∀ as, 2 ≤ as.length → (∀ a ∈ as, P a) → P (A.product as))
    (sum : ∀ as, as.length ≠ 1 → (∀ a ∈ as, P a) → P (A.sum as))
    {ps : List (Piece α)} (operand : ∀ a, Piece.operand a ∈ ps → P a) :
    P (A.resolve ps) := by
  have hterms := A.terms_closed negOne product operand
  rw [resolve]
  cases hcase : A.terms ps with
  | nil => exact sum [] (by simp) (by simp)
  | cons a as =>
    rw [hcase] at hterms
    cases as with
    | nil => exact hterms a (List.mem_cons_self ..)
    | cons b bs => exact sum _ (by simp) hterms

/-- Where a sum of one is what it is a sum of, a result is the sum of its terms. -/
theorem resolve_eq_sum {A : Assembly α} (h : ∀ a, A.sum [a] = a) (ps : List (Piece α)) :
    A.resolve ps = A.sum (A.terms ps) := by
  rw [resolve]
  rcases A.terms ps with _ | ⟨a, _ | ⟨b, bs⟩⟩
  · rfl
  · exact (h a).symm
  · rfl

/-! ## Lists

Where everything is a list and assembling is concatenation, resolution puts the
factors one behind the other. -/

/-- Concatenates, with a list of its own for every minus one. -/
def concat {γ : Type} (negOne : List γ) : Assembly (List γ) :=
  ⟨negOne, List.flatten, List.flatten⟩

theorem resolve_concat {γ : Type} (negOne : List γ) (ps : List (Piece (List γ))) :
    (concat negOne).resolve ps =
      ((regions (dropUnaryPlus ps)).flatMap (factors negOne)).flatten := by
  -- A single list is its own concatenation, so it does not matter how many terms there are.
  have total : (concat negOne).resolve ps = ((concat negOne).terms ps).flatten :=
    resolve_eq_sum (fun _ => List.flatten_singleton) ps
  have terms : ∀ rs : List (List (Piece (List γ))),
      (rs.filterMap fun r => (concat negOne).term? (factors negOne r)).flatten =
        (rs.flatMap (factors negOne)).flatten := by
    intro rs
    induction rs with
    | nil => rfl
    | cons r rs ih =>
      rw [List.flatMap_cons, List.flatten_append, ← ih, List.filterMap_cons]
      rcases factors negOne r with _ | ⟨a, _ | ⟨b, bs⟩⟩
      · rfl
      · simp [term?]
      · simp [term?, concat]
  rw [total, Assembly.terms]
  exact terms _

/-- If a minus one adds nothing, the operands are what is left. -/
theorem resolve_concat_nil {γ : Type} (ps : List (Piece (List γ))) :
    (concat []).resolve ps = (operands ps).flatten := by
  have regionwise : ∀ rs : List (List (Piece (List γ))),
      (rs.flatMap (factors [])).flatten = (operands rs.flatten).flatten := by
    intro rs
    induction rs with
    | nil => rfl
    | cons r rs ih =>
      rw [List.flatMap_cons, List.flatten_append, ih, flatten_factors_nil, List.flatten_cons,
        operands_append, List.flatten_append]
  rw [resolve_concat, regionwise, regions, List.flatten_splitBy, dropUnaryPlus,
    operands_dropUnaryPlusFrom]

/-! ## Pairs -/

/-- Assembles two things at once. -/
def pair (A : Assembly α) (B : Assembly β) : Assembly (α × β) where
  negOne := (A.negOne, B.negOne)
  product as := (A.product (as.map Prod.fst), B.product (as.map Prod.snd))
  sum as := (A.sum (as.map Prod.fst), B.sum (as.map Prod.snd))

end Assembly

end PolyExpand
