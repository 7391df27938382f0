import PolyExpand.Proofs.Safety

/-!
# Stray markers — exactly when an evaluation fails

A marker is a stray if no group is there to consume it: if it is the tree itself, or if it
stands directly below a sum or a product. Groups, sums and products may alternate at will
above it and beside it, and the groups are resolved while the tree is evaluated. None of
that matters, because what a tree has for strays can be looked up in the tree as it is.
To be able to tell, every node is listed with its parent, depth first and from left to
right (`places`), and `strays_eq_filterMap` says that the strays an evaluation meets are
those of the list, in its order.

> `Node.evaluate_fails_iff`: as long as every product can be stored, an evaluation fails
> exactly if there is a stray, and then it reports the first one of the list.
-/

namespace PolyExpand.Node

/-! ## Places -/

mutual

/-- A tree and everything below it, depth first and from left to right, each node together
with its parent. The tree itself has the given one. -/
def places (parent? : Option Node) : Node → List (Option Node × Node)
  | marker m => [(parent?, marker m)]
  | number q => [(parent?, number q)]
  | power e => [(parent?, power e)]
  | group cs => (parent?, group cs) :: placesAll (group cs) cs
  | sum cs => (parent?, sum cs) :: placesAll (sum cs) cs
  | product cs => (parent?, product cs) :: placesAll (product cs) cs

/-- The places in each tree of a list, which have one parent. -/
def placesAll (parent : Node) : List Node → List (Option Node × Node)
  | [] => []
  | c :: cs => places (some parent) c ++ placesAll parent cs

end

theorem placesAll_eq_flatMap (parent : Node) : ∀ cs : List Node,
    placesAll parent cs = cs.flatMap (places (some parent))
  | [] => rfl
  | c :: cs => by rw [placesAll, placesAll_eq_flatMap parent cs, List.flatMap_cons]

theorem places_eq (parent? : Option Node) (n : Node) :
    n.places parent? = (parent?, n) :: n.children.flatMap (places (some n)) := by
  cases n <;> simp [places, children, placesAll_eq_flatMap]

/-- To prove a property of every tree, prove it of a node whose children all have it. -/
theorem children_induction {P : Node → Prop} (h : ∀ n, (∀ c ∈ n.children, P c) → P n) (n : Node) :
    P n := by
  induction n using Node.induction with
  | marker m | number q | power e => exact h _ (by simp [children])
  | group cs ih | sum cs ih | product cs ih => exact h _ ih

/-- The places of a tree are its root, and each child of each of its subtrees. -/
theorem mem_places_iff {n s : Node} {parent? p? : Option Node} :
    (p?, s) ∈ n.places parent? ↔
      (p? = parent? ∧ s = n) ∨ ∃ p ∈ n.subtrees, p? = some p ∧ s ∈ p.children := by
  induction n using children_induction generalizing parent? with
  | h n ih =>
    rw [places_eq, subtrees_eq, List.mem_cons, List.mem_flatMap, Prod.mk.injEq,
      List.exists_mem_cons_iff]
    refine or_congr_right ⟨?_, ?_⟩
    · rintro ⟨c, hc, hplace⟩
      rcases (ih c hc).mp hplace with ⟨rfl, rfl⟩ | ⟨p, hp, hchild⟩
      · exact Or.inl ⟨rfl, hc⟩
      · exact Or.inr ⟨p, List.mem_flatMap.mpr ⟨c, hc, hp⟩, hchild⟩
    · rintro (⟨rfl, hs⟩ | ⟨p, hp, hchild⟩)
      · exact ⟨s, hs, (ih s hs).mpr (Or.inl ⟨rfl, rfl⟩)⟩
      · obtain ⟨c, hc, hpc⟩ := List.mem_flatMap.mp hp
        exact ⟨c, hc, (ih c hc).mpr (Or.inr ⟨p, hpc, hchild⟩)⟩

/-! ## Strays -/

/-- The marker at a place, if there is one and its parent is no group. -/
def stray? : Option Node × Node → Option Marker
  | (none, marker m) => some m
  | (some p, marker m) => if p.isCompound then some m else none
  | _ => none

theorem stray?_of_not_isMarker {n : Node} (h : n.isMarker = false) (parent? : Option Node) :
    stray? (parent?, n) = none := by
  cases n with
  | marker m => cases h
  | _ => cases parent? <;> rfl

theorem isSome_stray?_none (n : Node) : (stray? (none, n)).isSome = n.isMarker := by
  cases n <;> rfl

theorem isSome_stray?_some (p n : Node) :
    (stray? (some p, n)).isSome = (p.isCompound && n.isMarker) := by
  cases n with
  | marker m => cases h : p.isCompound <;> simp [stray?, h, isMarker]
  | _ => simp [stray?, isMarker]

/-- The strays below a node that is no marker are those of its children. -/
theorem filterMap_places {n : Node} {parent? : Option Node} (h : n.isMarker = false) :
    (n.places parent?).filterMap stray? =
      n.children.flatMap fun c => (c.places (some n)).filterMap stray? := by
  rw [places_eq, List.filterMap_cons, stray?_of_not_isMarker h, List.filterMap_flatMap]

/-- There is a stray if the tree is a marker or a sum or a product has one for a child. -/
theorem exists_stray_iff {n : Node} :
    (∃ x ∈ n.places none, (stray? x).isSome = true) ↔ n.isMarker = true ∨
      ∃ s ∈ n.subtrees, s.isCompound = true ∧ ∃ c ∈ s.children, c.isMarker = true := by
  constructor
  · rintro ⟨⟨p?, s⟩, hplace, hstray⟩
    rcases mem_places_iff.mp hplace with ⟨rfl, rfl⟩ | ⟨p, hp, rfl, hs⟩
    · exact Or.inl (by rwa [isSome_stray?_none] at hstray)
    · rw [isSome_stray?_some, Bool.and_eq_true] at hstray
      exact Or.inr ⟨p, hp, hstray.1, s, hs, hstray.2⟩
  · rintro (hmarker | ⟨s, hs, hcompound, c, hc, hmarker⟩)
    · exact ⟨(none, n), mem_places_iff.mpr (Or.inl ⟨rfl, rfl⟩), by rwa [isSome_stray?_none]⟩
    · refine ⟨(some s, c), mem_places_iff.mpr (Or.inr ⟨s, hs, rfl, hc⟩), ?_⟩
      rw [isSome_stray?_some, hcompound, hmarker, Bool.and_self]

/-! ## Strays of an evaluation -/

/-- A group has the strays of its operands, and its markers are none. -/
theorem strays_group (cs : List Node) :
    (group cs).strays = cs.flatMap fun c => if c.isMarker then [] else c.strays := by
  have hoperands : ∀ ds : List Node, (operands (piecesWith Interpretation.strays.of ds)).flatten =
      ds.flatMap fun d => if d.isMarker then [] else d.strays := by
    intro ds
    induction ds with
    | nil => rfl
    | cons d ds ih =>
      rw [List.flatMap_cons, ← ih]
      cases d <;> rfl
  rw [strays, Interpretation.of_group, ← hoperands]
  exact Assembly.resolve_concat_nil _

/-- **The strays of a tree** are found at its places. A marker that stands in a group is
none, and that is the one thing that depends on the parent of the tree. -/
theorem strays_eq_filterMap {n : Node} {parent? : Option Node}
    (h : n.isMarker = true → ∀ p ∈ parent?, p.isCompound = true) :
    n.strays = (n.places parent?).filterMap stray? := by
  induction n using Node.induction generalizing parent? with
  | marker m =>
    cases parent? with
    | none => rfl
    | some p =>
      have hstray : stray? (some p, marker m) = some m := if_pos (h rfl p rfl)
      rw [places, List.filterMap_cons, hstray]
      rfl
  | number q => rw [filterMap_places rfl]; rfl
  | power e => rw [filterMap_places rfl]; rfl
  | sum cs ih =>
    rw [filterMap_places rfl, strays_sum, ← List.flatMap_def]
    exact List.flatMap_congr fun c hc => ih c hc fun _ p hp => by cases hp; rfl
  | product cs ih =>
    rw [filterMap_places rfl, strays_product, ← List.flatMap_def]
    exact List.flatMap_congr fun c hc => ih c hc fun _ p hp => by cases hp; rfl
  | group cs ih =>
    rw [filterMap_places rfl, strays_group]
    refine List.flatMap_congr fun c hc => ?_
    cases hmarker : c.isMarker with
    | true =>
      -- This is the marker that depends on its parent.
      cases c with
      | marker m => rfl
      | _ => cases hmarker
    | false =>
      rw [if_neg Bool.false_ne_true]
      exact ih c hc fun hc' => by rw [hmarker] at hc'; cases hc'

/-- The fault of an evaluation is the first stray. -/
theorem evaluate_eq_error_iff {n : Node} (hsum : n.exponents.sum ≤ 2 ^ 64 - 2) {f : EvalFault} :
    n.evaluate = .error f ↔ ∃ m, (n.places none).findSome? stray? = some m ∧ f = .bareMarker m := by
  have hdegree := formalDegree_lt_of_sum_le hsum
  have hstrays : n.strays = (n.places none).filterMap stray? :=
    strays_eq_filterMap fun _ p hp => by cases hp
  rw [← List.head?_filterMap, ← hstrays]
  cases hcase : n.strays with
  | nil =>
    obtain ⟨p, hp, -⟩ := evaluate_of_strays_eq_nil hcase hdegree
    simp [hp]
  | cons m ms =>
    simp [evaluate_of_strays_eq_cons hcase hdegree, eq_comm]

/-- **Exactly when an evaluation fails.** Take any tree, in which groups, sums and products
alternate as they like, with exponents small enough for every product to be stored. Its
evaluation fails exactly if it is a marker itself, or if a sum or a product anywhere in it,
also below groups, has a marker for a child. The report names the first of these markers,
depth first and from left to right. So a tree with markers in groups only has a value. -/
theorem evaluate_fails_iff {n : Node} (hsum : n.exponents.sum ≤ 2 ^ 64 - 2) :
    ((∃ f, n.evaluate = .error f) ↔ n.isMarker = true ∨
      ∃ s ∈ n.subtrees, s.isCompound = true ∧ ∃ c ∈ s.children, c.isMarker = true) ∧
    (∀ f, n.evaluate = .error f → ∃ m, (n.places none).findSome? stray? = some m ∧
      f.message = "internal error: entered unreachable code: operator `" ++ m.char.toString ++
        "` survived resolution") ∧
    ((∀ x ∈ n.places none, x.2.isMarker = true → ∃ cs, x.1 = some (group cs)) →
      ∃ p, n.evaluate = .ok p) := by
  have hfails : (∃ f, n.evaluate = .error f) ↔
      ∃ x ∈ n.places none, (stray? x).isSome = true := by
    rw [← List.findSome?_isSome_iff, Option.isSome_iff_exists]
    constructor
    · rintro ⟨f, hf⟩
      obtain ⟨m, hm, -⟩ := (evaluate_eq_error_iff hsum).mp hf
      exact ⟨m, hm⟩
    · rintro ⟨m, hm⟩
      exact ⟨_, (evaluate_eq_error_iff hsum).mpr ⟨m, hm, rfl⟩⟩
  refine ⟨hfails.trans exists_stray_iff, fun f hf => ?_, fun hgroups => ?_⟩
  · obtain ⟨m, hm, rfl⟩ := (evaluate_eq_error_iff hsum).mp hf
    exact ⟨m, hm, rfl⟩
  · cases hvalue : n.evaluate with
    | ok p => exact ⟨p, rfl⟩
    | error f =>
      obtain ⟨⟨p?, s⟩, hplace, hstray⟩ := hfails.mp ⟨f, hvalue⟩
      have hmarker : s.isMarker = true := by
        by_contra hnot
        rw [stray?_of_not_isMarker (Bool.eq_false_iff.mpr hnot)] at hstray
        cases hstray
      obtain ⟨cs, rfl⟩ := hgroups _ hplace hmarker
      rw [isSome_stray?_some] at hstray
      cases hstray

/-- Of two strays the deeper one comes first, and the markers in groups are none. -/
theorem evaluate_fails_iff_run :
    let n := sum [power 1, group [marker .minus, number 3,
      product [group [marker .plus], marker .times]], marker .minus]
    n.exponents.sum ≤ 2 ^ 64 - 2 ∧ ∃ f, n.evaluate = .error f ∧
      f.message = "internal error: entered unreachable code: operator `*` survived resolution" := by
  intro n
  have hsum : n.exponents.sum ≤ 2 ^ 64 - 2 := by decide +kernel
  obtain ⟨hfails, hfirst, -⟩ := evaluate_fails_iff hsum
  obtain ⟨f, hf⟩ := hfails.mpr
    (Or.inr ⟨n, List.mem_cons_self .., rfl, marker .minus, by simp [n, children], rfl⟩)
  obtain ⟨m, hm, hmessage⟩ := hfirst f hf
  have htimes : (n.places none).findSome? stray? = some .times := by decide +kernel
  obtain rfl : m = .times := Option.some.inj (hm.symm.trans htimes)
  refine ⟨hsum, f, hf, ?_⟩
  rw [hmessage]
  decide

end PolyExpand.Node
