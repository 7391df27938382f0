import PolyExpand.Proofs.Meaning
import PolyExpand.Proofs.Regions
import Mathlib.Data.List.DropRight

/-!
# Dangling — operators that no operand follows

A sequence may end with operators. They have nothing to operate on, and most of
them are gone without a trace: every `+`, every `*`, and the last `-` if nothing
but `+`s follows it. But a `-` leaves its minus one in front of whatever follows
it, and that may be another operator. So a `-` is `stranded` if a `-` or a `*`
comes behind it, and every stranded `-` leaves a minus one that negates nothing.

Where these minus ones go depends on the first operator of the run alone. A `*`
binds to the last operand, and they become further factors of the last term. Any
other operator starts a term of its own, and it is their product.

> `Node.resolve_append_markers`: a run of operators at the end of a sequence may be
> replaced by its `remnant`, a minus one for each stranded `-`. More operators
> change the result exactly if more `-`s are stranded; and where the run does not
> start with a `*`, the value changes as the product of these minus ones does.
-/

namespace PolyExpand

open Polynomial

variable {α β : Type}

namespace Marker

/-- A run without its `+`s. -/
def kept (run : List Marker) : List Marker := run.filter (· ≠ .plus)

/-- How many `-`s of a run have another `-` or a `*` behind them. -/
def stranded (run : List Marker) : Nat := (kept run).dropLast.count .minus

/-- What a run of markers amounts to, if no operand follows: a minus one for each
stranded `-`, and a `+` in front of them unless the run starts with a `*`. -/
def remnant (plus negOne : β) (run : List Marker) : List β :=
  (if run.head? = some .times then [] else [plus]) ++ List.replicate (stranded run) negOne

/-- What a run of markers adds, if it does not start with a `*`. -/
def worth (run : List Marker) : ℚ := if stranded run = 0 then 0 else (-1) ^ stranded run

theorem stranded_plus (run : List Marker) : stranded (.plus :: run) = stranded run := rfl

theorem map_remnant (f : α → β) (plus negOne : α) (run : List Marker) :
    (remnant plus negOne run).map f = remnant (f plus) (f negOne) run := by
  rw [remnant, List.map_append, List.map_replicate, apply_ite (List.map f)]
  rfl

theorem remnant_times {run : List Marker} (h : run.head? = some .times) (plus negOne : β) :
    remnant plus negOne run = List.replicate (stranded run) negOne := by
  rw [remnant, if_pos h, List.nil_append]

theorem remnant_of_ne_times {run : List Marker} (h : run.head? ≠ some .times)
    (plus negOne : β) :
    remnant plus negOne run = plus :: List.replicate (stranded run) negOne := by
  rw [remnant, if_neg h, List.singleton_append]

end Marker

open Marker

/-! ## Markers side by side -/

/-- Behind an operator that awaits its operand, every `+` is left out. -/
theorem dropUnaryPlusFrom_markers (run : List Marker) :
    dropUnaryPlusFrom true (run.map Piece.marker : List (Piece α)) =
      (kept run).map Piece.marker := by
  induction run with
  | nil => rfl
  | cons m run ih =>
    cases m with
    | plus => exact ih
    | minus => exact congrArg (List.cons _) ih
    | times => exact congrArg (List.cons _) ih

/-- Every `-` but one at the end has something behind it. -/
theorem factors_markers (negOne : α) : ∀ run : List Marker,
    factors negOne (run.map Piece.marker) = List.replicate (run.dropLast.count .minus) negOne
  | [] => rfl
  | [m] => by cases m <;> rfl
  | .minus :: m :: run => by
    have ih := factors_markers negOne (m :: run)
    rw [List.dropLast_cons_cons, List.count_cons_self, List.replicate_succ, ← ih]
    rfl
  | .plus :: m :: run | .times :: m :: run => by
    have ih := factors_markers negOne (m :: run)
    rw [List.dropLast_cons_cons, List.count_cons_of_ne (by decide), ← ih]
    rfl

theorem bound_markers (run : List Marker) :
    Bound ((kept run).map Piece.marker : List (Piece α)) := by
  induction run with
  | nil => exact List.isChain_nil
  | cons m run ih =>
    cases m with
    | plus => exact ih
    | minus => exact bound_cons rfl ih
    | times => exact bound_cons rfl ih

/-- Of a run that does not start with a `*`, some `+`s are cut off, and the rest is
one region. -/
theorem exists_dropUnaryPlus_markers (negOne : α) (run : List Marker)
    (h : run.head? ≠ some .times) :
    ∃ p tail, dropUnaryPlus (run.map Piece.marker) =
        List.replicate p (Piece.marker .plus) ++ tail ∧
      tail.head? ≠ some (.marker .times) ∧ Bound tail ∧
      factors negOne tail = List.replicate (stranded run) negOne := by
  induction run with
  | nil => exact ⟨0, [], rfl, by simp, List.isChain_nil, rfl⟩
  | cons m run ih =>
    cases m with
    | times => exact absurd rfl h
    | minus =>
      -- From the first `-` on, every `+` is left out.
      have hdrop := dropUnaryPlusFrom_markers (α := α) (.minus :: run)
      exact ⟨0, _, hdrop, by simp, bound_markers (.minus :: run),
        factors_markers negOne (kept (.minus :: run))⟩
    | plus =>
      rw [stranded_plus]
      by_cases htimes : run.head? = some .times
      · obtain ⟨run, rfl⟩ := List.head?_eq_some_iff.mp htimes
        -- The `*` binds to the last `+` in front of it.
        have hdrop := congrArg (List.cons (Piece.marker .plus))
          (dropUnaryPlusFrom_markers (α := α) (.times :: run))
        refine ⟨0, _, hdrop, by simp, ?_, factors_markers negOne _⟩
        exact List.isChain_cons_cons.mpr ⟨rfl, bound_markers (.times :: run)⟩
      · obtain ⟨p, tail, hdrop, hhead, hbound, hfactors⟩ := ih htimes
        exact ⟨p + 1, tail, congrArg (List.cons _) hdrop, hhead, hbound, hfactors⟩

/-! ## Terms -/

namespace Assembly

variable (A : Assembly α)

/-- A run of markers alone is the product of its minus ones. -/
theorem terms_markers {run : List Marker} (h : run.head? ≠ some .times) :
    A.terms (run.map Piece.marker) = (A.term? (List.replicate (stranded run) A.negOne)).toList := by
  obtain ⟨p, tail, hdrop, hhead, hbound, hfactors⟩ := exists_dropUnaryPlus_markers A.negOne run h
  rw [terms_eq, hdrop, A.regionTerms_pluses p hhead, A.regionTerms_of_bound hbound, hfactors]

/-- Only a `*` binds to an operand in front of it. -/
theorem binds_head?_markers {run : List Marker} (h : run.head? ≠ some .times) :
    ∀ q ∈ (run.map Piece.marker).head?, ∀ a : α, Piece.binds (.operand a) q = false := by
  intro q hq a
  cases run with
  | nil => cases hq
  | cons m run =>
    obtain rfl : Piece.marker m = q := Option.some.inj hq
    cases m with
    | times => exact absurd rfl h
    | plus | minus => rfl

/-- Behind an operand, the minus ones of a run are a term of their own. -/
theorem terms_append_markers_of_ne_times {ps : List (Piece α)} (h : Settled ps)
    {run : List Marker} (hrun : run.head? ≠ some .times) :
    A.terms (ps ++ run.map Piece.marker) =
      A.terms ps ++ (A.term? (List.replicate (stranded run) A.negOne)).toList := by
  rw [A.terms_append h (binds_head?_markers hrun), A.terms_markers hrun]

/-- Behind a `*`, they are factors of the last term. -/
theorem exists_terms_append_times {ps : List (Piece α)} (h : Settled ps) :
    ∃ closed factorsOpen,
      (∀ as, A.terms (ps ++ as.map Piece.operand) =
        closed ++ (A.term? (factorsOpen ++ as)).toList) ∧
      ∀ run : List Marker, run.head? = some .times →
        A.terms (ps ++ run.map Piece.marker) = closed ++
          (A.term? (factorsOpen ++ List.replicate (stranded run) A.negOne)).toList := by
  obtain ⟨closed, factorsOpen, hopen⟩ := A.exists_openTerm h
  refine ⟨closed, factorsOpen, fun as => ?_, fun run hrun => ?_⟩
  · have hdrop : dropUnaryPlus (as.map Piece.operand) = as.map Piece.operand :=
      dropUnaryPlusFrom_operands as false
    have hbound : Bound (dropUnaryPlus (as.map Piece.operand)) := by
      rw [hdrop]
      exact bound_operands as
    rw [hopen _ hbound (binds_head?_operands as), hdrop, factors_operands]
  · obtain ⟨run, rfl⟩ := List.head?_eq_some_iff.mp hrun
    -- The `*` awaits an operand, so from there on every `+` is left out.
    have hdrop : dropUnaryPlus ((Marker.times :: run).map Piece.marker : List (Piece α)) =
        (kept (.times :: run)).map Piece.marker :=
      dropUnaryPlusFrom_markers (.times :: run)
    have hbinds : ∀ q ∈ ((Marker.times :: run).map Piece.marker).head?,
        ∀ a : α, Piece.binds (.operand a) q = true := by
      intro q hq a
      obtain rfl : Piece.marker .times = q := Option.some.inj hq
      rfl
    have hbound : Bound (dropUnaryPlus
        ((Marker.times :: run).map Piece.marker : List (Piece α))) := by
      rw [hdrop]
      exact bound_markers (.times :: run)
    rw [hopen _ hbound hbinds, hdrop, factors_markers]
    rfl

/-- **A run at the end is as good as its remnant.** -/
theorem terms_append_markers {ps : List (Piece α)} (h : Settled ps) (run : List Marker) :
    A.terms (ps ++ run.map Piece.marker) =
      A.terms (ps ++ remnant (.marker .plus) (.operand A.negOne) run) := by
  by_cases hrun : run.head? = some .times
  · obtain ⟨closed, factorsOpen, hoperands, hmarkers⟩ := A.exists_terms_append_times h
    rw [hmarkers run hrun, remnant_times hrun, ← List.map_replicate (f := Piece.operand), hoperands]
  · have hcut : ∀ q ∈ (Piece.marker .plus ::
        (List.replicate (stranded run) A.negOne).map Piece.operand).head?,
        ∀ a : α, Piece.binds (.operand a) q = false := by
      intro q hq a
      obtain rfl : Piece.marker .plus = q := Option.some.inj hq
      rfl
    rw [A.terms_append_markers_of_ne_times h hrun, remnant_of_ne_times hrun,
      ← List.map_replicate (f := Piece.operand), A.terms_append h hcut, A.terms_operands]

/-- If no `-` is stranded in a run, nothing is left of it. -/
theorem terms_append_markers_of_stranded_eq_zero {ps : List (Piece α)} (h : Settled ps)
    {run : List Marker} (hrun : stranded run = 0) :
    A.terms (ps ++ run.map Piece.marker) = A.terms ps := by
  by_cases htimes : run.head? = some .times
  · rw [A.terms_append_markers h, remnant_times htimes, hrun, List.replicate_zero,
      List.append_nil]
  · rw [A.terms_append_markers_of_ne_times h htimes, hrun]
    exact List.append_nil _

/-- What is added to a run that is already there changes nothing, unless it strands
another `-`. -/
theorem terms_append_markers_congr {ps : List (Piece α)} (h : Settled ps)
    {run ops : List Marker} (hstranded : stranded (run ++ ops) = stranded run) :
    A.terms (ps ++ (run ++ ops).map Piece.marker) = A.terms (ps ++ run.map Piece.marker) := by
  by_cases hnil : run = []
  · rw [hnil] at hstranded ⊢
    rw [A.terms_append_markers_of_stranded_eq_zero h hstranded]
    exact congrArg A.terms (List.append_nil ps).symm
  · -- The run goes on as it has started, so its minus ones go where they went.
    rw [A.terms_append_markers h, A.terms_append_markers h, remnant, remnant,
      List.head?_append_of_ne_nil run hnil, hstranded]

end Assembly

/-! ## Counting minus ones -/

/-- How many leaves the resolved tree has. -/
def Interpretation.leaves : Interpretation Nat where
  negOne := 1
  product := List.sum
  sum := List.sum
  marker _ := 0
  number _ := 1
  power _ := 1

theorem leaves_resolve (ps : List (Piece Nat)) :
    Interpretation.leaves.resolve ps = (Interpretation.leaves.terms ps).sum :=
  Assembly.resolve_eq_sum (fun _ => List.sum_singleton) ps

theorem sum_leaves_term? (as : List Nat) :
    (Interpretation.leaves.term? as).toList.sum = as.sum := by
  rcases as with _ | ⟨a, _ | ⟨b, bs⟩⟩
  · rfl
  · rfl
  · exact List.sum_singleton

/-- Every stranded `-` is a leaf, wherever it goes. -/
theorem leaves_append_markers {ps : List (Piece Nat)} (h : Settled ps) (run : List Marker) :
    Interpretation.leaves.resolve (ps ++ run.map Piece.marker) =
      Interpretation.leaves.resolve ps + stranded run := by
  have hones : (List.replicate (stranded run) Interpretation.leaves.negOne).sum =
      stranded run := by
    simp [Interpretation.leaves]
  rw [leaves_resolve, leaves_resolve]
  by_cases hrun : run.head? = some .times
  · obtain ⟨closed, factorsOpen, hoperands, hmarkers⟩ :=
      Interpretation.leaves.exists_terms_append_times h
    have hbase := hoperands []
    rw [List.map_nil, List.append_nil, List.append_nil] at hbase
    rw [hmarkers run hrun, hbase, List.sum_append, List.sum_append, sum_leaves_term?,
      sum_leaves_term?, List.sum_append, hones]
    omega
  · rw [Interpretation.leaves.terms_append_markers_of_ne_times h hrun, List.sum_append,
      sum_leaves_term?, hones]

/-! ## Values -/

namespace Value

/-- The polynomial of a value, if there is one. -/
noncomputable def toPolynomial : Value → ℚ[X]
  | .ok p => p.toPolynomial
  | .error _ => 0

end Value

namespace DeferredValue

/-- Values that can be computed. -/
def Defined (vs : List DeferredValue) : Prop := ∀ v ∈ vs, ∃ p, v () = .ok p

theorem defined_of_foldlM_plus : ∀ {vs : List DeferredValue} {p q : DensePoly},
    vs.foldlM (fun p v => Value.plus p (v ())) p = .ok q → Defined vs
  | [], _, _, _ => fun v hv => by cases hv
  | v :: vs, p, q, h => by
    rw [List.foldlM_cons, Value.plus] at h
    refine List.forall_mem_cons.mpr ?_
    cases hv : v () with
    | error f =>
      rw [hv] at h
      cases h
    | ok r =>
      rw [hv] at h
      exact ⟨⟨r, rfl⟩, defined_of_foldlM_plus h⟩

theorem foldlM_plus_of_defined : ∀ {vs : List DeferredValue} (p : DensePoly), Defined vs →
    ∃ q, vs.foldlM (fun p v => Value.plus p (v ())) p = .ok q ∧
      q.toPolynomial = p.toPolynomial + (vs.map fun v => (v ()).toPolynomial).sum
  | [], p, _ => ⟨p, rfl, by simp⟩
  | v :: vs, p, h => by
    obtain ⟨⟨r, hr⟩, hvs⟩ := List.forall_mem_cons.mp h
    obtain ⟨q, hq, hpoly⟩ := foldlM_plus_of_defined (p.add r) hvs
    refine ⟨q, ?_, ?_⟩
    · rw [List.foldlM_cons, Value.plus, hr]
      exact hq
    · rw [hpoly, List.map_cons, List.sum_cons, hr, DensePoly.toPolynomial_add, add_assoc]
      rfl

/-- Terms have a total exactly if each of them has a value. -/
theorem defined_of_total {vs : List DeferredValue} {q : DensePoly}
    (h : assembly.total vs () = .ok q) : Defined vs := by
  rcases vs with _ | ⟨v, _ | ⟨w, ws⟩⟩
  · exact defined_of_foldlM_plus h
  · exact List.forall_mem_singleton.mpr ⟨q, h⟩
  · exact defined_of_foldlM_plus h

theorem total_of_defined {vs : List DeferredValue} (h : Defined vs) :
    ∃ q, assembly.total vs () = .ok q ∧
      q.toPolynomial = (vs.map fun v => (v ()).toPolynomial).sum := by
  obtain ⟨q, hq, hpoly⟩ := foldlM_plus_of_defined .zero h
  rw [DensePoly.toPolynomial_zero, zero_add] at hpoly
  rcases vs with _ | ⟨v, _ | ⟨w, ws⟩⟩
  · exact ⟨q, hq, hpoly⟩
  · -- A single term is its own total, without a zero in front of it.
    obtain ⟨r, hr⟩ := List.forall_mem_singleton.mp h
    refine ⟨r, hr, ?_⟩
    rw [List.map_singleton, List.sum_singleton, hr]
    rfl
  · exact ⟨q, hq, hpoly⟩

/-- The product of minus ones always has a value. -/
theorem product_negOnes (s : Nat) : ∃ p,
    product (List.replicate s assembly.negOne) = .ok p ∧ p.toPolynomial = (-1) ^ s := by
  let negOne : Foreseen := (assembly.negOne, [], 0, -1)
  have hmeets : Value.Meets (negOne.1 ()) negOne.2 := by
    refine ⟨_, rfl, DensePoly.degree_constant (-1), ?_⟩
    rw [DensePoly.toPolynomial_constant, C_neg, C_1]
  have hdegree : DensePoly.one.degree + ((List.replicate s negOne).map fun f => f.2.2.1).sum <
      maxWord := by
    simp [negOne, maxWord]
  have hfold := foldlM_times_meets (List.replicate s negOne) .one hdegree fun f hf =>
    List.eq_of_mem_replicate hf ▸ hmeets
  have hproduct : ∃ p, product (List.replicate s assembly.negOne) = .ok p ∧ p.degree = 0 ∧
      p.toPolynomial = (-1) ^ s := by
    simpa [negOne, Value.Meets, product] using hfold
  obtain ⟨p, hp, -, hpoly⟩ := hproduct
  exact ⟨p, hp, hpoly⟩

/-- What a run of markers adds to a sum. -/
theorem term?_negOnes (run : List Marker) :
    Defined (assembly.term? (List.replicate (stranded run) assembly.negOne)).toList ∧
    ((assembly.term? (List.replicate (stranded run) assembly.negOne)).toList.map
      fun v => (v ()).toPolynomial).sum = C (worth run) := by
  rw [worth]
  rcases stranded run with _ | _ | s
  · exact ⟨List.forall_mem_nil _, by simp [Assembly.term?]⟩
  · refine ⟨List.forall_mem_singleton.mpr ⟨_, rfl⟩, ?_⟩
    show (DensePoly.constant (-1)).toPolynomial + 0 = _
    rw [DensePoly.toPolynomial_constant, add_zero]
    simp
  · obtain ⟨p, hp, hpoly⟩ := product_negOnes (s + 2)
    refine ⟨List.forall_mem_singleton.mpr ⟨p, hp⟩, ?_⟩
    show Value.toPolynomial (product (List.replicate (s + 2) assembly.negOne)) + 0 = _
    rw [hp, add_zero, if_neg (by omega), C_pow, C_neg, C_1]
    exact hpoly

end DeferredValue

/-! ## Trees -/

namespace Node

/-- The marker that a node is, if it is one. -/
def marker? : Node → Option Marker
  | marker m => some m
  | _ => none

/-- The markers that no operand follows. -/
def trailing (ts : List Node) : List Marker := (ts.rtakeWhile isMarker).filterMap marker?

/-- A sequence ends with a run of markers, perhaps an empty one. -/
theorem append_trailing (ts : List Node) :
    ts.rdropWhile isMarker ++ (trailing ts).map marker = ts := by
  have hmarkers : ∀ ms : List Node, (∀ n ∈ ms, n.isMarker = true) →
      (ms.filterMap marker?).map marker = ms := by
    intro ms hms
    induction ms with
    | nil => rfl
    | cons n ms ih =>
      obtain ⟨hn, hrest⟩ := List.forall_mem_cons.mp hms
      cases n with
      | marker m => exact congrArg (List.cons _) (ih hrest)
      | _ => cases hn
  rw [trailing, hmarkers _ fun n hn => List.mem_rtakeWhile_imp hn,
    List.rdropWhile_append_rtakeWhile]

theorem piecesWith_markers (f : Node → α) (run : List Marker) :
    piecesWith f (run.map marker) = run.map Piece.marker := by
  rw [piecesWith, List.map_map]
  rfl

theorem isMarker_getLast?_rdropWhile (ts : List Node) :
    ∀ c ∈ (ts.rdropWhile isMarker).getLast?, c.isMarker = false := by
  intro c hc
  have hne : ts.rdropWhile isMarker ≠ [] := by
    rintro hnil
    rw [hnil] at hc
    cases hc
  have hlast := List.rdropWhile_last_not isMarker ts hne
  rw [List.getLast?_eq_some_getLast hne] at hc
  rw [Option.some.inj hc] at hlast
  exact Bool.eq_false_iff.mpr hlast

theorem settled_piecesWith {cs : List Node} (h : ∀ c ∈ cs.getLast?, c.isMarker = false)
    (f : Node → α) : Settled (piecesWith f cs) := by
  rcases List.eq_nil_or_concat' cs with rfl | ⟨cs, c, rfl⟩
  · exact settled_nil
  · rw [piecesWith_append, piecesWith, piecesWith, List.map_singleton,
      piece_of_not_isMarker (h c List.getLast?_concat)]
    exact settled_concat _ (f c)

/-- What an interpretation makes of a group that ends with a run of markers. -/
theorem of_group_append_markers (I : Interpretation α) (cs : List Node) (run : List Marker) :
    I.of (group (cs ++ run.map marker)) =
      I.resolve (piecesWith I.of cs ++ run.map Piece.marker) := by
  rw [Interpretation.of_group, piecesWith_append, piecesWith_markers]

theorem resolve_group_append_markers (cs : List Node) (run : List Marker) :
    resolve (group (cs ++ run.map marker)) =
      assembly.resolve (piecesWith resolve cs ++ run.map Piece.marker) := by
  rw [resolve_group, piecesWith_append, piecesWith_markers]

section Run

variable {before : List Node} (hbefore : ∀ c ∈ before.getLast?, c.isMarker = false)
include hbefore

/-- Resolution takes a run at the end for its remnant. -/
theorem resolve_remnant (run : List Marker) :
    resolve (group (before ++ run.map marker)) =
      resolve (group (before ++ remnant (marker .plus) (number (-1)) run)) := by
  have hremnant : piecesWith resolve (remnant (marker .plus) (number (-1)) run) =
      remnant (.marker .plus) (.operand assembly.negOne) run := map_remnant _ _ _ _
  have hsettled := settled_piecesWith hbefore resolve
  rw [resolve_group_append_markers, resolve_group, piecesWith_append, hremnant,
    Assembly.resolve, Assembly.resolve, assembly.terms_append_markers hsettled]

/-- A run that goes on changes the result exactly if it strands another `-`. -/
theorem resolve_markers_eq_iff (run ops : List Marker) :
    resolve (group (before ++ (run ++ ops).map marker)) =
        resolve (group (before ++ run.map marker)) ↔
      stranded (run ++ ops) = stranded run := by
  constructor
  · intro h
    -- Trees with different numbers of leaves are different.
    have hsettled := settled_piecesWith hbefore Interpretation.leaves.of
    have hleaves := congrArg Interpretation.leaves.of h
    rw [Interpretation.leaves.of_resolve rfl, Interpretation.leaves.of_resolve rfl,
      of_group_append_markers, of_group_append_markers, leaves_append_markers hsettled,
      leaves_append_markers hsettled] at hleaves
    omega
  · intro h
    have hsettled := settled_piecesWith hbefore resolve
    rw [resolve_group_append_markers, resolve_group_append_markers, Assembly.resolve,
      Assembly.resolve, assembly.terms_append_markers_congr hsettled h]

/-- Where the run does not start with a `*`, its minus ones are added to the terms
that stand before it. -/
theorem evaluate_append_markers {run : List Marker} (hrun : run.head? ≠ some .times) :
    (group (before ++ run.map marker)).evaluate = DeferredValue.assembly.total
      (DeferredValue.assembly.terms (piecesWith Interpretation.deferred.of before) ++
        (DeferredValue.assembly.term?
          (List.replicate (stranded run) DeferredValue.assembly.negOne)).toList) () := by
  have hsettled := settled_piecesWith hbefore Interpretation.deferred.of
  have hof := of_group_append_markers Interpretation.deferred before run
  rw [Interpretation.deferred_of] at hof
  rw [← DeferredValue.assembly.terms_append_markers_of_ne_times hsettled hrun]
  exact congrFun hof ()

/-- So the value changes by what the run is worth. -/
theorem exists_evaluate_append {run ops : List Marker}
    (hhead : (run ++ ops).head? ≠ some .times) {p : DensePoly}
    (hp : (group (before ++ run.map marker)).evaluate = .ok p) :
    ∃ q, (group (before ++ (run ++ ops).map marker)).evaluate = .ok q ∧
      (q == p.add (.constant (worth (run ++ ops) - worth run))) = true := by
  have hrun : run.head? ≠ some .times := by
    cases run with
    | nil => simp
    | cons m run => exact hhead
  rw [evaluate_append_markers hbefore hrun] at hp
  obtain ⟨hdefinedRun, hworthRun⟩ := DeferredValue.term?_negOnes run
  obtain ⟨hdefined, hworth⟩ := DeferredValue.term?_negOnes (run ++ ops)
  -- The terms before the run have values, because the total has one.
  have hbase := (List.forall_mem_append.mp (DeferredValue.defined_of_total hp)).1
  obtain ⟨p', hp', hpoly⟩ :=
    DeferredValue.total_of_defined (List.forall_mem_append.mpr ⟨hbase, hdefinedRun⟩)
  obtain rfl : p = p' := Except.ok.inj (hp.symm.trans hp')
  obtain ⟨q, hq, hqpoly⟩ :=
    DeferredValue.total_of_defined (List.forall_mem_append.mpr ⟨hbase, hdefined⟩)
  refine ⟨q, (evaluate_append_markers hbefore hhead).trans hq, ?_⟩
  rw [List.map_append, List.sum_append, hworthRun] at hpoly
  rw [List.map_append, List.sum_append, hworth] at hqpoly
  rw [DensePoly.beq_iff_toPolynomial_eq, hqpoly, DensePoly.toPolynomial_add, hpoly,
    DensePoly.toPolynomial_constant, C_sub]
  ring

end Run

/-- **What dangling operators do.** Operators at the end of a sequence, together with
those that stand there already, may be replaced by their remnant. The result is the
one without them exactly if they strand no other `-`; and if the first operator of
the run is not a `*`, the value changes by what the run is worth. -/
theorem resolve_append_markers (ts : List Node) (ops : List Marker) :
    resolve (group (ts ++ ops.map marker)) =
      resolve (group (ts.rdropWhile isMarker ++
        remnant (marker .plus) (number (-1)) (trailing ts ++ ops))) ∧
    (resolve (group (ts ++ ops.map marker)) = resolve (group ts) ↔
      stranded (trailing ts ++ ops) = stranded (trailing ts)) ∧
    ((trailing ts ++ ops).head? ≠ some .times →
      ∀ p, (resolve (group ts)).evaluate = .ok p →
        ∃ q, (resolve (group (ts ++ ops.map marker))).evaluate = .ok q ∧
          (q == p.add (.constant (worth (trailing ts ++ ops) - worth (trailing ts)))) = true) := by
  have hbefore := isMarker_getLast?_rdropWhile ts
  have hts := append_trailing ts
  have htsops : ts.rdropWhile isMarker ++ (trailing ts ++ ops).map marker =
      ts ++ ops.map marker := by
    rw [List.map_append, ← List.append_assoc, hts]
  refine ⟨?_, ?_, fun hhead p hp => ?_⟩
  · rw [← htsops]
    exact resolve_remnant hbefore (trailing ts ++ ops)
  · have hiff := resolve_markers_eq_iff hbefore (trailing ts) ops
    rwa [htsops, hts] at hiff
  · rw [evaluate_resolve] at hp ⊢
    rw [← htsops]
    rw [← hts] at hp
    exact exists_evaluate_append hbefore hhead hp

/-- Behind `x`, the first of two `-`s is stranded, and takes one from the value. -/
theorem resolve_append_markers_minuses :
    resolve (group ([power 1] ++ [.minus, .minus].map marker)) = sum [power 1, number (-1)] ∧
    resolve (group ([power 1] ++ [.minus, .minus].map marker)) ≠ resolve (group [power 1]) ∧
    ∃ q, (resolve (group ([power 1] ++ [.minus, .minus].map marker))).evaluate = .ok q ∧
      (q == .ofInts [-1, 1]) = true := by
  obtain ⟨hremnant, hiff, hvalue⟩ := resolve_append_markers [power 1] [.minus, .minus]
  refine ⟨hremnant.trans (by decide +kernel), fun h => ?_, ?_⟩
  · have hstranded := hiff.mp h
    exact absurd hstranded (by decide)
  · obtain ⟨q, hq, hbeq⟩ := hvalue (by decide) (.ofInts [0, 1]) (by decide +kernel)
    refine ⟨q, hq, ?_⟩
    have hsum : (DensePoly.ofInts [0, 1]).add (.constant (worth [.minus, .minus] - worth [])) =
        .ofInts [-1, 1] := by
      decide +kernel
    exact hsum ▸ hbeq

/-- So dangling operators are not always dropped, neither behind an operand nor where
nothing else is written. -/
theorem exists_markers_not_dropped :
    (¬ ∀ (ts : List Node) (ops : List Marker) (p : DensePoly),
      (resolve (group ts)).evaluate = .ok p →
        ∃ q, (resolve (group (ts ++ ops.map marker))).evaluate = .ok q ∧ (q == p) = true) ∧
    ¬ ∀ ops : List Marker, resolve (group (ops.map marker)) = sum [] := by
  constructor
  · intro h
    obtain ⟨q, hq, hbeq⟩ := h [power 1] [.minus, .minus] (.ofInts [0, 1]) (by decide +kernel)
    have hvalue : (resolve (group ([power 1] ++ [.minus, .minus].map marker))).evaluate =
        .ok (.ofInts [-1, 1]) := by
      decide +kernel
    obtain rfl : DensePoly.ofInts [-1, 1] = q := Except.ok.inj (hvalue.symm.trans hq)
    exact absurd hbeq (by decide +kernel)
  · intro h
    have hminuses : resolve (group ([.minus, .minus].map marker)) = number (-1) := by
      decide +kernel
    exact absurd ((h [.minus, .minus]).symm.trans hminuses) (by decide)

end Node

end PolyExpand
