import PolyExpand.Proofs.Assembly

/-!
# Regions — a sequence read in two parts

Resolution looks at one neighbour at a time, so what it makes of a sequence can be
told from two parts of it. All that a first part passes on to the second is whether
it awaits an operand (`awaitsBehind`), and where its last region begins.

* `dropUnaryPlusFrom_append`: signs are left out of the parts one by one.
* `Assembly.terms_append`: where a sign follows an operand, the terms of the first
  part are followed by those of the second.
* `Assembly.exists_openTerm`: where anything else follows, the last region stays
  open. What the second part continues is the list of its factors, and no other term
  changes.

A part that ends with an operand is `Settled`: it awaits nothing, and whether it
binds to what follows depends on what follows alone.
-/

namespace PolyExpand

variable {α : Type}

/-! ## Leaving out signs -/

/-- Whether an operand is awaited behind a sequence. -/
def awaitsBehind (awaiting : Bool) : List (Piece α) → Bool
  | [] => awaiting
  | .marker .plus :: ps => awaitsBehind awaiting ps
  | p :: ps => awaitsBehind p.awaitsOperand ps

theorem dropUnaryPlusFrom_append : ∀ (awaiting : Bool) (ps qs : List (Piece α)),
    dropUnaryPlusFrom awaiting (ps ++ qs) =
      dropUnaryPlusFrom awaiting ps ++ dropUnaryPlusFrom (awaitsBehind awaiting ps) qs
  | _, [], _ => rfl
  | true, .marker .plus :: ps, qs => dropUnaryPlusFrom_append true ps qs
  | false, .marker .plus :: ps, qs => congrArg _ (dropUnaryPlusFrom_append false ps qs)
  | _, .marker .minus :: ps, qs => congrArg _ (dropUnaryPlusFrom_append true ps qs)
  | _, .marker .times :: ps, qs => congrArg _ (dropUnaryPlusFrom_append true ps qs)
  | _, .operand _ :: ps, qs => congrArg _ (dropUnaryPlusFrom_append false ps qs)

theorem awaitsBehind_append : ∀ (awaiting : Bool) (ps qs : List (Piece α)),
    awaitsBehind awaiting (ps ++ qs) = awaitsBehind (awaitsBehind awaiting ps) qs
  | _, [], _ => rfl
  | awaiting, .marker .plus :: ps, qs => awaitsBehind_append awaiting ps qs
  | _, .marker .minus :: ps, qs | _, .marker .times :: ps, qs => awaitsBehind_append true ps qs
  | _, .operand _ :: ps, qs => awaitsBehind_append false ps qs

/-- What comes first is never left out. -/
theorem head?_dropUnaryPlus (ps : List (Piece α)) : (dropUnaryPlus ps).head? = ps.head? := by
  rcases ps with _ | ⟨m | a, ps⟩
  · rfl
  · cases m <;> rfl
  · rfl

/-- No operator stands last. -/
def Settled (ps : List (Piece α)) : Prop := ∀ p ∈ ps.getLast?, ∃ a, p = .operand a

theorem settled_nil : Settled ([] : List (Piece α)) := by
  intro p hp
  cases hp

theorem settled_concat (ps : List (Piece α)) (a : α) : Settled (ps ++ [.operand a]) := by
  intro p hp
  rw [List.getLast?_concat] at hp
  exact ⟨a, (Option.some.inj hp).symm⟩

theorem Settled.eq_nil_or_concat {ps : List (Piece α)} (h : Settled ps) :
    ps = [] ∨ ∃ qs a, ps = qs ++ [.operand a] := by
  rcases List.eq_nil_or_concat' ps with rfl | ⟨qs, p, rfl⟩
  · exact Or.inl rfl
  · obtain ⟨a, rfl⟩ := h p List.getLast?_concat
    exact Or.inr ⟨qs, a, rfl⟩

theorem Settled.dropUnaryPlus_append {ps : List (Piece α)} (h : Settled ps)
    (qs : List (Piece α)) : dropUnaryPlus (ps ++ qs) = dropUnaryPlus ps ++ dropUnaryPlus qs := by
  rcases h.eq_nil_or_concat with rfl | ⟨ps, a, rfl⟩
  · rfl
  · have hbehind : awaitsBehind false (ps ++ [.operand a]) = false := awaitsBehind_append ..
    rw [dropUnaryPlus, dropUnaryPlusFrom_append, hbehind]
    rfl

/-- An operand that stands last is kept, and still stands last. -/
theorem Settled.dropUnaryPlus {ps : List (Piece α)} (h : Settled ps) :
    Settled (dropUnaryPlus ps) := by
  rcases h.eq_nil_or_concat with rfl | ⟨ps, a, rfl⟩
  · exact settled_nil
  · rw [PolyExpand.dropUnaryPlus, dropUnaryPlusFrom_append]
    exact settled_concat _ a

/-! ## Factors -/

theorem Settled.factors_append (negOne : α) {ps : List (Piece α)} (h : Settled ps)
    (qs : List (Piece α)) : factors negOne (ps ++ qs) = factors negOne ps ++ factors negOne qs := by
  rcases h.eq_nil_or_concat with rfl | ⟨ps, a, rfl⟩
  · rfl
  · induction ps with
    | nil => rfl
    | cons p ps ih =>
      have ih := ih (settled_concat ps a)
      rcases p with m | b
      · cases m with
        | minus =>
          -- Something follows the `-` in either sequence, so it is a factor in both.
          rw [List.cons_append, List.cons_append, factors_minus negOne (by simp),
            factors_minus negOne (by simp), ih, List.cons_append]
        | plus => exact ih
        | times => exact ih
      · exact congrArg (List.cons b) ih

/-! ## Regions -/

/-- Every piece binds to the next. -/
abbrev Bound (ps : List (Piece α)) : Prop := ps.IsChain fun p q => Piece.binds p q = true

/-- What awaits an operand binds to whatever follows. -/
theorem binds_of_awaitsOperand {p : Piece α} (hp : p.awaitsOperand = true) (q : Piece α) :
    Piece.binds p q = true := by
  rcases p with m | a
  · cases m with
    | plus => cases hp
    | minus =>
      rcases q with n | b
      · cases n <;> rfl
      · rfl
    | times => cases q <;> rfl
  · cases hp

theorem bound_cons {p : Piece α} {ps : List (Piece α)} (hp : p.awaitsOperand = true)
    (h : Bound ps) : Bound (p :: ps) :=
  List.isChain_cons.mpr ⟨fun q _ => binds_of_awaitsOperand hp q, h⟩

/-- No piece at the end of the first sequence binds to the start of the second. -/
def Apart (ps qs : List (Piece α)) : Prop :=
  ∀ p ∈ ps.getLast?, ∀ q ∈ qs.head?, Piece.binds p q = false

/-- Every sequence ends with a region, in front of which it can be cut. -/
theorem exists_lastRegion (ps : List (Piece α)) : ∃ front region,
    ps = front ++ region ∧ (region = [] → ps = []) ∧ Bound region ∧ Apart front region := by
  induction ps using List.reverseRecOn with
  | nil => exact ⟨[], [], rfl, fun _ => rfl, List.isChain_nil, fun p hp => by cases hp⟩
  | append_singleton ps p ih =>
    obtain ⟨front, region, rfl, hnil, hbound, hapart⟩ := ih
    rcases List.eq_nil_or_concat' region with rfl | ⟨before, q, rfl⟩
    · -- Nothing was there, so the piece is a region of its own.
      rw [hnil rfl]
      exact ⟨[], [p], rfl, fun h => absurd h (by simp), List.isChain_singleton p,
        fun x hx => by cases hx⟩
    · by_cases hbinds : Piece.binds q p = true
      · refine ⟨front, before ++ [q] ++ [p], by simp, fun h => absurd h (by simp), ?_, ?_⟩
        · refine List.isChain_append.mpr ⟨hbound, List.isChain_singleton p, ?_⟩
          intro x hx y hy
          rw [List.getLast?_concat] at hx
          obtain rfl := Option.some.inj hx
          obtain rfl := Option.some.inj hy
          exact hbinds
        · intro x hx y hy
          refine hapart x hx y ?_
          rwa [List.head?_append_of_ne_nil _ (by simp)] at hy
      · refine ⟨front ++ (before ++ [q]), [p], rfl, fun h => absurd h (by simp),
          List.isChain_singleton p, ?_⟩
        intro x hx y hy
        rw [← List.append_assoc, List.getLast?_concat] at hx
        obtain rfl := Option.some.inj hx
        obtain rfl := Option.some.inj hy
        exact Bool.eq_false_iff.mpr hbinds

/-- Pluses are regions of their own, up to what is no `*`. -/
theorem regions_pluses (p : Nat) {ps : List (Piece α)}
    (h : ps.head? ≠ some (.marker .times)) :
    regions (List.replicate p (.marker .plus) ++ ps) =
      List.replicate p [.marker .plus] ++ regions ps := by
  induction p with
  | zero => rfl
  | succ p ih =>
    have hnext : ∀ q ∈ (List.replicate p (Piece.marker .plus) ++ ps).head?,
        Piece.binds (.marker .plus) q = false := by
      intro q hq
      have hne : q ≠ .marker .times := by
        rintro rfl
        cases p with
        | zero => exact h hq
        | succ p => simp [List.replicate_succ] at hq
      rcases q with n | a
      · cases n with
        | times => exact absurd rfl hne
        | plus | minus => rfl
      · rfl
    rw [List.replicate_succ, List.cons_append, List.replicate_succ, List.cons_append, ← ih]
    exact List.splitBy_append (l := [Piece.marker .plus]) fun x hx y hy => by
      obtain rfl : _ = x := Option.some.inj hx
      exact hnext y hy

/-! ## Operands side by side -/

theorem dropUnaryPlusFrom_operands (as : List α) : ∀ awaiting : Bool,
    dropUnaryPlusFrom awaiting (as.map Piece.operand) = as.map Piece.operand := by
  induction as with
  | nil => exact fun _ => rfl
  | cons a as ih => exact fun _ => congrArg (List.cons _) (ih false)

theorem factors_operands (negOne : α) (as : List α) :
    factors negOne (as.map Piece.operand) = as := by
  induction as with
  | nil => rfl
  | cons a as ih => exact congrArg (List.cons a) ih

theorem binds_head?_operands (as : List α) :
    ∀ q ∈ (as.map Piece.operand).head?, ∀ a, Piece.binds (.operand a) q = true := by
  intro q hq a
  cases as with
  | nil => cases hq
  | cons b bs =>
    obtain rfl : Piece.operand b = q := Option.some.inj hq
    rfl

theorem bound_operands (as : List α) : Bound (as.map Piece.operand) := by
  induction as with
  | nil => exact List.isChain_nil
  | cons a as ih => exact List.isChain_cons.mpr ⟨fun q hq => binds_head?_operands as q hq a, ih⟩

namespace Assembly

variable (A : Assembly α)

/-- The terms of a sequence from which no sign is left out any more. -/
def regionTerms (ps : List (Piece α)) : List α :=
  (regions ps).filterMap fun region => A.term? (factors A.negOne region)

theorem terms_eq (ps : List (Piece α)) :
    A.terms ps = A.regionTerms (dropUnaryPlus ps) := rfl

theorem regionTerms_append {ps qs : List (Piece α)} (h : Apart ps qs) :
    A.regionTerms (ps ++ qs) = A.regionTerms ps ++ A.regionTerms qs := by
  rw [regionTerms, regions, List.splitBy_append h, List.filterMap_append]
  rfl

/-- A region that is nothing but a `+` has no factors, and makes no term. -/
theorem filterMap_pluses (p : Nat) :
    (List.replicate p [Piece.marker .plus]).filterMap
      (fun region => A.term? (factors A.negOne region)) = [] := by
  induction p with
  | zero => rfl
  | succ p ih => exact ih

theorem regionTerms_pluses (p : Nat) {ps : List (Piece α)}
    (h : ps.head? ≠ some (.marker .times)) :
    A.regionTerms (List.replicate p (.marker .plus) ++ ps) = A.regionTerms ps := by
  rw [regionTerms, regions_pluses p h, List.filterMap_append, filterMap_pluses, List.nil_append]
  rfl

/-- A sequence in which every piece binds to the next has at most one term. -/
theorem regionTerms_of_bound {ps : List (Piece α)} (h : Bound ps) :
    A.regionTerms ps = (A.term? (factors A.negOne ps)).toList := by
  by_cases hnil : ps = []
  · rw [hnil]
    rfl
  · rw [regionTerms, regions, List.splitBy_of_isChain hnil h]
    cases hterm : A.term? (factors A.negOne ps) <;> simp [hterm]

/-- Behind an operand, or at the start, a bound sequence continues the open region:
its factors join the factors that are there, and the terms before stay as they are. -/
theorem exists_openRegion {ps : List (Piece α)} (h : Settled ps) :
    ∃ closed factorsOpen, ∀ more : List (Piece α), Bound more →
      (∀ q ∈ more.head?, ∀ a, Piece.binds (.operand a) q = true) →
      A.regionTerms (ps ++ more) =
        closed ++ (A.term? (factorsOpen ++ factors A.negOne more)).toList := by
  obtain ⟨front, region, rfl, hnil, hbound, hapart⟩ := exists_lastRegion ps
  have hsettled : Settled region := by
    intro p hp
    refine h p ?_
    rw [List.getLast?_append, hp]
    rfl
  refine ⟨A.regionTerms front, factors A.negOne region, fun more hmore hbinds => ?_⟩
  -- What follows does not change where the open region begins.
  have hcut : Apart front (region ++ more) := by
    intro x hx y hy
    cases region with
    | nil =>
      have hfront : front = [] := (List.append_nil front).symm.trans (hnil rfl)
      rw [hfront] at hx
      cases hx
    | cons p region => exact hapart x hx y hy
  have hjoined : Bound (region ++ more) := by
    refine List.isChain_append.mpr ⟨hbound, hmore, fun x hx y hy => ?_⟩
    obtain ⟨a, rfl⟩ := hsettled x hx
    exact hbinds y hy a
  rw [List.append_assoc, A.regionTerms_append hcut, A.regionTerms_of_bound hjoined,
    hsettled.factors_append]

/-! ## Terms -/

/-- Where an operand is followed by a sign, the terms can be told separately. -/
theorem terms_append {ps qs : List (Piece α)} (h : Settled ps)
    (hcut : ∀ q ∈ qs.head?, ∀ a, Piece.binds (.operand a) q = false) :
    A.terms (ps ++ qs) = A.terms ps ++ A.terms qs := by
  have hapart : Apart (dropUnaryPlus ps) (dropUnaryPlus qs) := by
    intro p hp q hq
    obtain ⟨a, rfl⟩ := h.dropUnaryPlus p hp
    rw [head?_dropUnaryPlus] at hq
    exact hcut q hq a
  rw [terms_eq, h.dropUnaryPlus_append, A.regionTerms_append hapart, terms_eq, terms_eq]

/-- And where what follows binds to the operand, it continues the last term. -/
theorem exists_openTerm {ps : List (Piece α)} (h : Settled ps) :
    ∃ closed factorsOpen, ∀ qs : List (Piece α), Bound (dropUnaryPlus qs) →
      (∀ q ∈ qs.head?, ∀ a, Piece.binds (.operand a) q = true) →
      A.terms (ps ++ qs) =
        closed ++ (A.term? (factorsOpen ++ factors A.negOne (dropUnaryPlus qs))).toList := by
  obtain ⟨closed, factorsOpen, hopen⟩ := A.exists_openRegion h.dropUnaryPlus
  refine ⟨closed, factorsOpen, fun qs hbound hbinds => ?_⟩
  rw [terms_eq, h.dropUnaryPlus_append]
  refine hopen _ hbound fun q hq => ?_
  rw [head?_dropUnaryPlus] at hq
  exact hbinds q hq

theorem terms_operands (as : List α) :
    A.terms (.marker .plus :: as.map Piece.operand) = (A.term? as).toList := by
  have hdrop : dropUnaryPlus (.marker .plus :: as.map Piece.operand) =
      List.replicate 1 (Piece.marker .plus) ++ as.map Piece.operand :=
    congrArg (List.cons _) (dropUnaryPlusFrom_operands as false)
  have hhead : (as.map Piece.operand).head? ≠ some (.marker .times) := by
    cases as <;> simp
  rw [terms_eq, hdrop, A.regionTerms_pluses 1 hhead, A.regionTerms_of_bound (bound_operands as),
    factors_operands]

end Assembly

end PolyExpand
