import PolyExpand.Proofs.Regions

/-!
# Region by region — factors told from the front

A sequence is cut into regions, and each region is made into a list of factors.
Both are done in one pass from the front: a piece adds what it has to add
(`ownFactors`) to the list of its region, and where it does not bind to the next
piece, a new list begins. That pass is `regionFactors`, and its two rules
(`regionFactors_of_binds`, `regionFactors_of_not_binds`) are all that is needed to
follow it.

* `flatten_regionFactors`: one behind the other, the lists are the factors of the
  whole sequence. A `-` adds a factor only if something follows it, but it binds to
  whatever follows, so no cut is ever made behind it.
* `regionFactors_append_forall₂`: what stands in front sees of the rest only its first
  piece and its lists, so lists that are alike stay alike.
* `regionFactors_times`: a `*` between two pieces that bind is not seen at all.
-/

namespace PolyExpand

variable {α : Type}

/-! ## Two neighbours -/

/-- A region never ends between two pieces that bind. -/
theorem regions_of_binds {p q : Piece α} (h : Piece.binds p q = true) (ps : List (Piece α)) :
    regions (p :: q :: ps) = (regions (q :: ps)).modifyHead (List.cons p) := by
  have hsplit := List.splitBy_eq_iff.mp (rfl : (q :: ps).splitBy Piece.binds = _)
  cases hregions : regions (q :: ps) with
  | nil => exact absurd (List.splitBy_eq_nil.mp hregions) (List.cons_ne_nil _ _)
  | cons region rest =>
    obtain ⟨hflatten, hnil, hbound, hcut⟩ := hsplit
    rw [show (q :: ps).splitBy Piece.binds = region :: rest from hregions] at hflatten hnil hbound hcut
    have hregion : region ≠ [] := fun h => hnil (h ▸ List.mem_cons_self ..)
    obtain ⟨q', region, rfl⟩ := List.exists_cons_of_ne_nil hregion
    -- The first region starts with the first piece, so `p` may be put in front of it.
    obtain ⟨rfl, hps⟩ : q = q' ∧ ps = region ++ rest.flatten := by simpa using hflatten
    refine List.splitBy_eq_iff.mpr ⟨by simp [hps], ?_, ?_, ?_⟩
    · simpa using fun h => hnil (List.mem_cons_of_mem _ h)
    · obtain ⟨hfirst, hothers⟩ := List.forall_mem_cons.mp hbound
      exact List.forall_mem_cons.mpr ⟨List.isChain_cons_cons.mpr ⟨h, hfirst⟩, hothers⟩
    · obtain ⟨hfirst, hothers⟩ := List.isChain_cons.mp hcut
      refine List.isChain_cons.mpr ⟨fun next hnext => ?_, hothers⟩
      obtain ⟨_, hne, hlast⟩ := hfirst next hnext
      exact ⟨List.cons_ne_nil _ _, hne, by rwa [List.getLast_cons (List.cons_ne_nil _ _)]⟩

theorem regions_of_not_binds {p q : Piece α} (h : Piece.binds p q = false) (ps : List (Piece α)) :
    regions (p :: q :: ps) = [p] :: regions (q :: ps) :=
  List.splitBy_append_cons (l := [p]) ps fun x hx => by
    obtain rfl : p = x := Option.some.inj hx
    exact h

/-! ## Factors -/

/-- What a piece adds to the factors of its region, if a piece follows it. -/
def ownFactors (negOne : α) : Piece α → List α
  | .operand a => [a]
  | .marker .minus => [negOne]
  | .marker .plus | .marker .times => []

theorem factors_cons (negOne : α) (p : Piece α) {ps : List (Piece α)} (h : ps ≠ []) :
    factors negOne (p :: ps) = ownFactors negOne p ++ factors negOne ps := by
  rcases p with m | a
  · cases m with
    | minus => exact factors_minus negOne h
    | plus | times => rfl
  · rfl

/-- The factors of every region, also of those that have none. -/
def regionFactors (negOne : α) (ps : List (Piece α)) : List (List α) :=
  (regions ps).map (factors negOne)

theorem regionFactors_ne_nil (negOne : α) (p : Piece α) (ps : List (Piece α)) :
    regionFactors negOne (p :: ps) ≠ [] := by
  intro h
  exact List.cons_ne_nil p ps (List.splitBy_eq_nil.mp (List.map_eq_nil_iff.mp h))

theorem regionFactors_of_binds (negOne : α) {p q : Piece α} (h : Piece.binds p q = true)
    (ps : List (Piece α)) :
    regionFactors negOne (p :: q :: ps) =
      (regionFactors negOne (q :: ps)).modifyHead (ownFactors negOne p ++ ·) := by
  have hnil : [] ∉ regions (q :: ps) := List.nil_notMem_splitBy _ _
  unfold regionFactors
  rw [regions_of_binds h]
  cases hregions : regions (q :: ps) with
  | nil => rfl
  | cons region rest =>
    have hregion : region ≠ [] := fun h => hnil (hregions ▸ h ▸ List.mem_cons_self ..)
    exact congrArg (List.cons · _) (factors_cons negOne p hregion)

theorem regionFactors_of_not_binds (negOne : α) {p q : Piece α} (h : Piece.binds p q = false)
    (ps : List (Piece α)) :
    regionFactors negOne (p :: q :: ps) = ownFactors negOne p :: regionFactors negOne (q :: ps) := by
  have hown : factors negOne [p] = ownFactors negOne p := by
    rcases p with m | a
    · cases m with
      | minus =>
        -- A `-` binds to whatever follows it.
        rcases q with n | b
        · cases n <;> cases h
        · cases h
      | plus | times => rfl
    · rfl
  unfold regionFactors
  rw [regions_of_not_binds h, List.map_cons, hown]

/-- **The cuts do not matter to the factors**, only to what is made of them. -/
theorem flatten_regionFactors (negOne : α) : ∀ ps : List (Piece α),
    (regionFactors negOne ps).flatten = factors negOne ps
  | [] => rfl
  | [p] => by
    show [factors negOne [p]].flatten = _
    simp
  | p :: q :: ps => by
    have ih := flatten_regionFactors negOne (q :: ps)
    have hne := regionFactors_ne_nil negOne q ps
    rw [factors_cons negOne p (List.cons_ne_nil q ps), ← ih]
    by_cases hbinds : Piece.binds p q = true
    · rw [regionFactors_of_binds negOne hbinds]
      obtain ⟨fs, rest, hrest⟩ := List.exists_cons_of_ne_nil hne
      rw [hrest, List.modifyHead_cons, List.flatten_cons, List.flatten_cons, List.append_assoc]
    · rw [regionFactors_of_not_binds negOne (Bool.eq_false_iff.mpr hbinds), List.flatten_cons]

/-- **What stands in front** sees of a rest its first piece and its lists of factors, and
can only put more factors in front of the first list. A relation that does not mind that
is kept. -/
theorem regionFactors_append_forall₂ (negOne : α) {R : List α → List α → Prop}
    (hrefl : ∀ fs, R fs fs) (hfront : ∀ front {fs gs}, R fs gs → R (front ++ fs) (front ++ gs))
    {qs qs' : List (Piece α)} (hhead : qs.head? = qs'.head?)
    (h : List.Forall₂ R (regionFactors negOne qs) (regionFactors negOne qs'))
    (ps : List (Piece α)) :
    List.Forall₂ R (regionFactors negOne (ps ++ qs)) (regionFactors negOne (ps ++ qs')) := by
  -- A piece looks at the one behind it, so the first piece is carried along.
  have hstep : ∀ (p : Piece α) {ps ps' : List (Piece α)}, ps.head? = ps'.head? →
      List.Forall₂ R (regionFactors negOne ps) (regionFactors negOne ps') →
      List.Forall₂ R (regionFactors negOne (p :: ps)) (regionFactors negOne (p :: ps')) := by
    intro p ps ps' hhead h
    cases ps with
    | nil =>
      rw [List.head?_eq_none_iff.mp hhead.symm]
      exact List.forall₂_same.mpr fun fs _ => hrefl fs
    | cons q ps =>
      obtain ⟨ps', rfl⟩ := List.head?_eq_some_iff.mp hhead.symm
      by_cases hbinds : Piece.binds p q = true
      · rw [regionFactors_of_binds negOne hbinds, regionFactors_of_binds negOne hbinds]
        generalize regionFactors negOne (q :: ps) = lists at h ⊢
        generalize regionFactors negOne (q :: ps') = lists' at h ⊢
        cases h with
        | nil => exact .nil
        | cons hfirst hothers => exact .cons (hfront _ hfirst) hothers
      · have hfalse := Bool.eq_false_iff.mpr hbinds
        rw [regionFactors_of_not_binds negOne hfalse, regionFactors_of_not_binds negOne hfalse]
        exact .cons (hrefl _) h
  induction ps with
  | nil => exact h
  | cons p ps ih =>
    refine hstep p ?_ ih
    cases ps with
    | nil => exact hhead
    | cons q ps => rfl

theorem regionFactors_append_congr (negOne : α) {qs qs' : List (Piece α)}
    (hhead : qs.head? = qs'.head?) (h : regionFactors negOne qs = regionFactors negOne qs')
    (ps : List (Piece α)) : regionFactors negOne (ps ++ qs) = regionFactors negOne (ps ++ qs') := by
  rw [← List.forall₂_eq_eq_eq] at h ⊢
  refine regionFactors_append_forall₂ negOne (fun _ => rfl) (fun front _ _ heq => ?_) hhead h ps
  rw [heq]

/-! ## Signs that are not seen -/

/-- A sign that adds nothing is not seen in front of what it binds to. -/
theorem regionFactors_of_ownFactors_eq_nil (negOne : α) {p q : Piece α}
    (hown : ownFactors negOne p = []) (h : Piece.binds p q = true) (qs : List (Piece α)) :
    regionFactors negOne (p :: q :: qs) = regionFactors negOne (q :: qs) := by
  rw [regionFactors_of_binds negOne h, hown]
  exact congrFun List.modifyHead_id _

/-- Between two pieces that bind, it is not seen. -/
theorem regionFactors_times (negOne : α) {p q : Piece α} (h : Piece.binds p q = true)
    (qs : List (Piece α)) :
    regionFactors negOne (p :: .marker .times :: q :: qs) = regionFactors negOne (p :: q :: qs) := by
  have htimes : Piece.binds p (.marker .times) = true := by
    rcases p with m | a
    · cases m <;> rfl
    · rfl
  rw [regionFactors_of_binds negOne htimes, regionFactors_of_ownFactors_eq_nil negOne rfl rfl,
    regionFactors_of_binds negOne h]

namespace Assembly

variable (A : Assembly α)

theorem regionTerms_eq (ps : List (Piece α)) :
    A.regionTerms ps = (regionFactors A.negOne ps).filterMap A.term? := by
  rw [regionFactors, List.filterMap_map]
  rfl

/-- Sequences that go on in ways which are not told apart have the same terms. -/
theorem terms_append_congr {qs qs' : List (Piece α)}
    (hhead : ∀ awaiting : Bool,
      (dropUnaryPlusFrom awaiting qs).head? = (dropUnaryPlusFrom awaiting qs').head?)
    (h : ∀ awaiting : Bool, regionFactors A.negOne (dropUnaryPlusFrom awaiting qs) =
      regionFactors A.negOne (dropUnaryPlusFrom awaiting qs')) (ps : List (Piece α)) :
    A.terms (ps ++ qs) = A.terms (ps ++ qs') := by
  rw [terms_eq, terms_eq, dropUnaryPlus, dropUnaryPlus, dropUnaryPlusFrom_append,
    dropUnaryPlusFrom_append, regionTerms_eq, regionTerms_eq,
    regionFactors_append_congr A.negOne (hhead _) (h _)]

/-- A `+` in front of a sequence adds no term and keeps none apart. -/
theorem terms_plus_cons (ps : List (Piece α)) : A.terms (.marker .plus :: ps) = A.terms ps := by
  have hdrop : dropUnaryPlus (Piece.marker .plus :: ps) = .marker .plus :: dropUnaryPlus ps := rfl
  rw [terms_eq, terms_eq, hdrop, regionTerms_eq, regionTerms_eq]
  cases dropUnaryPlus ps with
  | nil => rfl
  | cons q qs =>
    by_cases hbinds : Piece.binds (.marker .plus) q = true
    · rw [regionFactors_of_ownFactors_eq_nil A.negOne rfl hbinds]
    · rw [regionFactors_of_not_binds A.negOne (Bool.eq_false_iff.mpr hbinds)]
      rfl

/-- Concatenation puts down the factors of the whole sequence. -/
theorem resolve_concat_eq {γ : Type} (negOne : List γ) (ps : List (Piece (List γ))) :
    (concat negOne).resolve ps = (factors negOne (dropUnaryPlus ps)).flatten := by
  rw [resolve_concat, ← flatten_regionFactors, regionFactors, List.flatMap_def]

end Assembly

end PolyExpand
