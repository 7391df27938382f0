import PolyExpand.Proofs.Regions

/-!
# Grammar — sums of products, as they are written

Resolution accepts any sequence of markers and operands. Here are the sequences
that anybody would call an expression: summands with a run of signs in front of
each, where a summand is a chain of factors, and two factors either stand beside
each other or have a `*` and perhaps more signs between them. An `Expression` is
such a sequence in its structure, so that there is none that is badly formed.

For these sequences the steps of resolution can be told in advance. What is left
of a run of signs is the `+`s in front of its first `-`, and every `-`. Each of
these `+`s is cut off as a region of its own, and what remains of the summand is
one region (`Summand.region`), however many signs and `*`s there are in it.

> `resolve_expression`: an expression is resolved to the sum of its summands,
> each the product of its factors, with a minus one for every `-` in place.
-/

namespace PolyExpand

variable {α β : Type}

/-- A `+` or a `-`. -/
inductive Sign where
  | plus
  | minus
deriving DecidableEq

namespace Sign

def marker : Sign → Marker
  | plus => .plus
  | minus => .minus

/-- A run of signs, as part of a sequence. -/
def pieces (ss : List Sign) : List (Piece α) := ss.map fun s => .marker s.marker

/-- How many `+`s stand in front of the first `-` of a run. -/
def leadingPluses (ss : List Sign) : Nat := (ss.takeWhile (· == plus)).length

end Sign

/-- What stands between two factors of a summand. -/
inductive Joint where
  /-- Nothing at all. -/
  | beside
  /-- A `*`, and the signs behind it. -/
  | times (signs : List Sign)

namespace Joint

/-- How many `-`s stand between two factors. -/
def minuses : Joint → Nat
  | beside => 0
  | times signs => signs.count .minus

def pieces : Joint → List (Piece α)
  | beside => []
  | times signs => .marker .times :: Sign.pieces signs

/-- What is left of a joint without its `+`s. -/
def kept : Joint → List (Piece α)
  | beside => []
  | times signs => .marker .times :: List.replicate (signs.count .minus) (.marker .minus)

end Joint

/-- A run of signs and a chain of factors. -/
structure Summand (α : Type) where
  signs : List Sign
  head : α
  /-- The factors behind the first one, each with what stands in front of it. -/
  tail : List (Joint × α)

/-- Summands, where every one but the first has a sign in front of it. -/
structure Expression (α : Type) where
  first : Summand α
  /-- Any further signs of a summand belong to itself. -/
  rest : List (Sign × Summand α)

namespace Summand

def map (f : α → β) (t : Summand α) : Summand β :=
  ⟨t.signs, f t.head, t.tail.map fun (j, a) => (j, f a)⟩

/-- The factors of a summand that are written. -/
def operands (t : Summand α) : List α := t.head :: t.tail.map Prod.snd

def pieces (t : Summand α) : List (Piece α) :=
  Sign.pieces t.signs ++ .operand t.head :: t.tail.flatMap fun (j, a) => j.pieces ++ [.operand a]

/-- The region that a summand becomes. -/
def region (t : Summand α) : List (Piece α) :=
  List.replicate (t.signs.count .minus) (.marker .minus) ++
    .operand t.head :: t.tail.flatMap fun (j, a) => j.kept ++ [.operand a]

/-- All factors of a summand, with a minus one for every `-`. -/
def factors (negOne : α) (t : Summand α) : List α :=
  List.replicate (t.signs.count .minus) negOne ++
    t.head :: t.tail.flatMap fun (j, a) => List.replicate j.minuses negOne ++ [a]

end Summand

namespace Expression

def map (f : α → β) (e : Expression α) : Expression β :=
  ⟨e.first.map f, e.rest.map fun (s, t) => (s, t.map f)⟩

/-- The summands with all signs that stand in front of them. -/
def summands (e : Expression α) : List (Summand α) :=
  e.first :: e.rest.map fun (s, t) => { t with signs := s :: t.signs }

/-- The factors that are written, in order. -/
def operands (e : Expression α) : List α := e.summands.flatMap Summand.operands

def pieces (e : Expression α) : List (Piece α) := e.summands.flatMap Summand.pieces

end Expression

/-! ## Leaving out signs -/

theorem dropUnaryPlusFrom_signs_awaiting (ss : List Sign) (ps : List (Piece α)) :
    dropUnaryPlusFrom true (Sign.pieces ss ++ ps) =
      List.replicate (ss.count .minus) (.marker .minus) ++ dropUnaryPlusFrom true ps := by
  induction ss with
  | nil => rfl
  | cons s ss ih =>
    cases s with
    | plus =>
      rw [List.count_cons_of_ne (by decide)]
      exact ih
    | minus =>
      rw [List.count_cons_self, List.replicate_succ]
      exact congrArg (List.cons _) ih

theorem dropUnaryPlusFrom_signs (ss : List Sign) (a : α) (ps : List (Piece α)) :
    dropUnaryPlusFrom false (Sign.pieces ss ++ .operand a :: ps) =
      List.replicate (Sign.leadingPluses ss) (.marker .plus) ++
        (List.replicate (ss.count .minus) (.marker .minus) ++
          .operand a :: dropUnaryPlusFrom false ps) := by
  induction ss with
  | nil => rfl
  | cons s ss ih =>
    cases s with
    | plus =>
      rw [List.count_cons_of_ne (by decide)]
      exact congrArg (List.cons _) ih
    | minus =>
      -- From the first `-` on, every `+` of the run is left out.
      have hrest := dropUnaryPlusFrom_signs_awaiting ss (.operand a :: ps)
      rw [List.count_cons_self, List.replicate_succ]
      exact congrArg (List.cons _) hrest

theorem dropUnaryPlusFrom_tail (tail : List (Joint × α)) (ps : List (Piece α)) :
    dropUnaryPlusFrom false ((tail.flatMap fun (j, a) => j.pieces ++ [.operand a]) ++ ps) =
      (tail.flatMap fun (j, a) => j.kept ++ [.operand a]) ++ dropUnaryPlusFrom false ps := by
  induction tail with
  | nil => rfl
  | cons x tail ih =>
    obtain ⟨j, a⟩ := x
    simp only [List.flatMap_cons, List.append_assoc, List.singleton_append]
    cases j with
    | beside => exact congrArg (List.cons _) ih
    | times signs =>
      -- Behind a `*` every `+` is left out, also in front of the first `-`.
      have hsigns := dropUnaryPlusFrom_signs_awaiting signs
        (.operand a :: ((tail.flatMap fun (j, a) => j.pieces ++ [.operand a]) ++ ps))
      refine congrArg (List.cons _) (hsigns.trans ?_)
      exact congrArg (List.replicate _ _ ++ ·) (congrArg (List.cons _) ih)

theorem dropUnaryPlusFrom_summand (t : Summand α) (ps : List (Piece α)) :
    dropUnaryPlusFrom false (t.pieces ++ ps) =
      List.replicate (Sign.leadingPluses t.signs) (.marker .plus) ++
        (t.region ++ dropUnaryPlusFrom false ps) := by
  rw [Summand.pieces, Summand.region, List.append_assoc, List.cons_append,
    dropUnaryPlusFrom_signs, dropUnaryPlusFrom_tail, List.append_assoc, List.cons_append]

/-! ## Cutting into regions -/

theorem bound_minuses (m : Nat) {ps : List (Piece α)} (h : Bound ps) :
    Bound (List.replicate m (.marker .minus) ++ ps) := by
  induction m with
  | zero => exact h
  | succ m ih =>
    rw [List.replicate_succ, List.cons_append]
    exact bound_cons rfl ih

theorem bound_tail (tail : List (Joint × α)) : ∀ a : α,
    Bound (.operand a :: tail.flatMap fun (j, a) => j.kept ++ [.operand a]) := by
  induction tail with
  | nil => exact fun a => List.isChain_singleton _
  | cons x tail ih =>
    intro a
    obtain ⟨j, b⟩ := x
    rw [List.flatMap_cons, List.append_assoc, List.singleton_append]
    cases j with
    | beside => exact List.isChain_cons_cons.mpr ⟨rfl, ih b⟩
    | times signs =>
      -- A `*` binds on both sides, and the `-`s behind it to what follows.
      have hsigns := bound_minuses (signs.count .minus) (ih b)
      exact List.isChain_cons_cons.mpr ⟨rfl, bound_cons rfl hsigns⟩

namespace Summand

theorem bound_region (t : Summand α) : Bound t.region :=
  bound_minuses _ (bound_tail t.tail t.head)

theorem region_ne_nil (t : Summand α) : t.region ≠ [] := by
  simp [region]

/-- A summand ends with its last factor. -/
theorem exists_getLast?_region (t : Summand α) : ∃ a, t.region.getLast? = some (.operand a) := by
  rw [region]
  rcases List.eq_nil_or_concat t.tail with h | ⟨tail, ⟨j, a⟩, h⟩
  · exact ⟨t.head, by simp [h]⟩
  · exact ⟨a, by simp [h, List.getLast?_cons]⟩

/-- A summand starts with a sign or with a factor. -/
theorem head?_region (t : Summand α) (ps : List (Piece α)) :
    (t.region ++ ps).head? ≠ some (.marker .times) := by
  rw [region]
  cases t.signs.count .minus <;> simp [List.replicate_succ]

end Summand

theorem regions_region (t : Summand α) {ps : List (Piece α)}
    (h : ∀ q ∈ ps.head?, ∃ s : Sign, q = .marker s.marker) :
    regions (t.region ++ ps) = t.region :: regions ps := by
  obtain ⟨a, ha⟩ := t.exists_getLast?_region
  have hcut : regions (t.region ++ ps) = regions t.region ++ regions ps := by
    refine List.splitBy_append fun x hx y hy => ?_
    obtain rfl : .operand a = x := Option.some.inj (ha.symm.trans hx)
    obtain ⟨s, rfl⟩ := h y hy
    cases s <;> rfl
  have hone : regions t.region = [t.region] :=
    List.splitBy_of_isChain t.region_ne_nil t.bound_region
  rw [hcut, hone, List.singleton_append]

/-- The regions of summands, if each but the first has a sign. -/
theorem regions_summands (t : Summand α) (ts : List (Summand α))
    (h : ∀ u ∈ ts, u.signs ≠ []) :
    regions (dropUnaryPlus ((t :: ts).flatMap Summand.pieces)) =
      (t :: ts).flatMap fun u =>
        List.replicate (Sign.leadingPluses u.signs) [.marker .plus] ++ [u.region] := by
  -- The first summand is cut off in front of the next one, or of the end.
  induction ts generalizing t with
  | nil =>
    have hlast : ∀ q ∈ (dropUnaryPlusFrom false ([] : List (Piece α))).head?,
        ∃ s : Sign, q = .marker s.marker := by
      simp [dropUnaryPlusFrom]
    rw [List.flatMap_singleton, List.flatMap_singleton, ← List.append_nil t.pieces,
      dropUnaryPlus, dropUnaryPlusFrom_summand, regions_pluses _ (t.head?_region _),
      regions_region t hlast]
    rfl
  | cons u ts ih =>
    have hu : u.signs ≠ [] := h u (List.mem_cons_self ..)
    have hrest := ih u fun v hv => h v (List.mem_cons_of_mem _ hv)
    -- The signs of the next summand leave at least one piece, and it is a sign.
    have hsign : ∀ q ∈ (dropUnaryPlusFrom false ((u :: ts).flatMap Summand.pieces)).head?,
        ∃ s : Sign, q = .marker s.marker := by
      rw [List.flatMap_cons, dropUnaryPlusFrom_summand]
      intro q hq
      cases hsigns : u.signs with
      | nil => exact absurd hsigns hu
      | cons s ss =>
        refine ⟨s, ?_⟩
        cases s <;>
          simp [hsigns, Sign.leadingPluses, List.replicate_succ, Summand.region] at hq <;>
          exact hq.symm
    rw [List.flatMap_cons, dropUnaryPlus, dropUnaryPlusFrom_summand,
      regions_pluses _ (t.head?_region _), regions_region t hsign]
    rw [dropUnaryPlus] at hrest
    rw [hrest]
    simp only [List.flatMap_cons, List.append_assoc, List.singleton_append]

/-! ## Factors -/

theorem factors_minuses (negOne a : α) (m : Nat) (ps : List (Piece α)) :
    factors negOne (List.replicate m (.marker .minus) ++ .operand a :: ps) =
      List.replicate m negOne ++ a :: factors negOne ps := by
  induction m with
  | zero => rfl
  | succ m ih =>
    rw [List.replicate_succ, List.cons_append, factors_minus negOne (by simp), ih,
      List.replicate_succ, List.cons_append]

theorem factors_region (negOne : α) (t : Summand α) :
    factors negOne t.region = t.factors negOne := by
  have htail : ∀ tail : List (Joint × α),
      factors negOne (tail.flatMap fun (j, a) => j.kept ++ [.operand a]) =
        tail.flatMap fun (j, a) => List.replicate j.minuses negOne ++ [a] := by
    intro tail
    induction tail with
    | nil => rfl
    | cons x tail ih =>
      obtain ⟨j, a⟩ := x
      simp only [List.flatMap_cons, List.append_assoc, List.singleton_append]
      rw [← ih]
      cases j with
      | beside => rfl
      | times signs => exact factors_minuses negOne a (signs.count .minus) _
  rw [Summand.region, factors_minuses, htail, Summand.factors]

namespace Assembly

/-- **What an expression is resolved to**: the sum of its summands, each the
product of its factors. Where a single factor is its own product, and a single
term its own sum, nothing more is to be said. -/
theorem resolve_expression (A : Assembly α) (product : ∀ a, A.product [a] = a)
    (sum : ∀ a, A.sum [a] = a) (e : Expression α) :
    A.resolve e.pieces = A.sum (e.summands.map fun t => A.product (t.factors A.negOne)) := by
  have hterm : ∀ t : Summand α,
      A.term? (factors A.negOne t.region) = some (A.product (t.factors A.negOne)) := by
    intro t
    rw [factors_region]
    cases hfactors : t.factors A.negOne with
    | nil => simp [Summand.factors] at hfactors
    | cons a as =>
      cases as with
      | nil => exact congrArg some (product a).symm
      | cons b bs => rfl
  have hterms : ∀ ts : List (Summand α),
      (ts.flatMap fun t => List.replicate (Sign.leadingPluses t.signs) [.marker .plus] ++
        [t.region]).filterMap (fun region => A.term? (factors A.negOne region)) =
        ts.map fun t => A.product (t.factors A.negOne) := by
    intro ts
    induction ts with
    | nil => rfl
    | cons t ts ih =>
      have hone : [t.region].filterMap (fun region => A.term? (factors A.negOne region)) =
          [A.product (t.factors A.negOne)] := by
        simp [hterm]
      rw [List.flatMap_cons, List.filterMap_append, List.filterMap_append, A.filterMap_pluses,
        List.nil_append, hone, ih, List.map_cons, List.singleton_append]
  have hsigned : ∀ t ∈ e.rest.map (fun (s, t) => { t with signs := s :: t.signs }),
      t.signs ≠ [] := by
    intro t ht
    obtain ⟨_, _, rfl⟩ := List.mem_map.mp ht
    exact List.cons_ne_nil _ _
  rw [resolve, terms, Expression.pieces, Expression.summands,
    regions_summands e.first _ hsigned, hterms]
  cases hsummands : e.rest.map fun (s, t) => { t with signs := s :: t.signs } with
  | nil => exact (sum _).symm
  | cons t ts => rfl

end Assembly

end PolyExpand
