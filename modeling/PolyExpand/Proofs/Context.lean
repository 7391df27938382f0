import PolyExpand.Proofs.Meaning
import PolyExpand.Proofs.NormalForm
import Mathlib.Logic.Relation

/-!
# Contexts — a tree counts for its value

A group is evaluated without a look into the groups below it, and a sum or a
product without a look into its children. So whatever stands somewhere in a tree
may be replaced by another tree of the same value. A `Context` is a tree with one
place left open, at any depth, and `fill` puts a tree there.

This holds of every interpretation and of every relation that assembling respects
(`Interpretation.of_fill`), provided that no marker is put in: a marker in a group
is no operand. Two relations are of interest.

* Equality. A group and its resolved form are interpreted as the same, and so the
  one may stand for the other wherever it occurs.
* `Value.Alike`, equality up to trailing zeros. Polynomials may be equal with
  stored coefficients of different lengths, so that a product is too long to be
  stored in one tree and not in the other. Up to that, values stay alike.

> `Node.evaluate_fill`: trees of equal value, put into the same place, give equal
> values, or the same marker is met in both trees; and resolving groups, any
> number of them in any order, changes no value at all.
-/

namespace PolyExpand

variable {α : Type}

/-! ## Relations that assembling respects -/

/-- Related things are assembled to related things. -/
structure Assembly.Respects (A : Assembly α) (R : α → α → Prop) : Prop where
  negOne : R A.negOne A.negOne
  product : ∀ xs : List (α × α), (∀ x ∈ xs, R x.1 x.2) →
    R (A.product (xs.map Prod.fst)) (A.product (xs.map Prod.snd))
  sum : ∀ xs : List (α × α), (∀ x ∈ xs, R x.1 x.2) →
    R (A.sum (xs.map Prod.fst)) (A.sum (xs.map Prod.snd))

/-- Two sequences with the same markers and related operands are resolved to
related things. -/
theorem Assembly.Respects.resolve {A : Assembly α} {R : α → α → Prop} (h : A.Respects R)
    {ps : List (Piece (α × α))} (hps : ∀ x, Piece.operand x ∈ ps → R x.1 x.2) :
    R (A.resolve (ps.map (Piece.map Prod.fst))) (A.resolve (ps.map (Piece.map Prod.snd))) := by
  have hfst := Assembly.resolve_map Prod.fst (A.pair A) A rfl (fun _ => rfl) (fun _ => rfl) ps
  have hsnd := Assembly.resolve_map Prod.snd (A.pair A) A rfl (fun _ => rfl) (fun _ => rfl) ps
  rw [← hfst, ← hsnd]
  exact Assembly.resolve_closed (P := fun x => R x.1 x.2) (A.pair A) h.negOne
    (fun xs _ hxs => h.product xs hxs) (fun xs _ hxs => h.sum xs hxs) hps

/-- Every assembly respects equality. -/
theorem Assembly.respects_eq (A : Assembly α) : A.Respects Eq := by
  have hmap : ∀ xs : List (α × α), (∀ x ∈ xs, x.1 = x.2) → xs.map Prod.fst = xs.map Prod.snd :=
    fun _ hxs => List.map_congr_left hxs
  exact ⟨rfl, fun xs hxs => congrArg A.product (hmap xs hxs),
    fun xs hxs => congrArg A.sum (hmap xs hxs)⟩

namespace Node

/-- A tree with one place left open. -/
inductive Context where
  /-- The open place. -/
  | hole
  | group (before : List Node) (inner : Context) (behind : List Node)
  | sum (before : List Node) (inner : Context) (behind : List Node)
  | product (before : List Node) (inner : Context) (behind : List Node)

/-- Puts a tree into the open place. -/
def Context.fill : Context → Node → Node
  | hole, n => n
  | group before inner behind, n => .group (before ++ inner.fill n :: behind)
  | sum before inner behind, n => .sum (before ++ inner.fill n :: behind)
  | product before inner behind, n => .product (before ++ inner.fill n :: behind)

theorem Context.isMarker_fill (C : Context) {n : Node} (h : n.isMarker = false) :
    (C.fill n).isMarker = false := by
  cases C with
  | hole => exact h
  | group before inner behind => rfl
  | sum before inner behind => rfl
  | product before inner behind => rfl

end Node

namespace Interpretation

variable {I : Interpretation α} {R : α → α → Prop}

/-- Two children of which one may stand for the other: neither is a marker, unless
they are the same, and they are interpreted as related things. -/
def Matched (I : Interpretation α) (R : α → α → Prop) (z : Node × Node) : Prop :=
  (z.1 = z.2 ∨ z.1.isMarker = false ∧ z.2.isMarker = false) ∧ R (I.of z.1) (I.of z.2)

/-- Where a node is what is assembled from its children, related children give
related nodes. -/
theorem of_children_matched {node : List Node → Node} {assemble : List α → α}
    (hof : ∀ cs, I.of (node cs) = assemble (cs.map I.of))
    (hassemble : ∀ xs : List (α × α), (∀ x ∈ xs, R x.1 x.2) →
      R (assemble (xs.map Prod.fst)) (assemble (xs.map Prod.snd)))
    {zs : List (Node × Node)} (hzs : ∀ z ∈ zs, I.Matched R z) :
    R (I.of (node (zs.map Prod.fst))) (I.of (node (zs.map Prod.snd))) := by
  have hpairs := hassemble (zs.map fun z => (I.of z.1, I.of z.2))
    (List.forall_mem_map.mpr fun z hz => (hzs z hz).2)
  rw [List.map_map, List.map_map] at hpairs
  rw [hof, hof, List.map_map, List.map_map]
  exact hpairs

theorem of_group_matched (hI : I.toAssembly.Respects R) {zs : List (Node × Node)}
    (hzs : ∀ z ∈ zs, I.Matched R z) :
    R (I.of (.group (zs.map Prod.fst))) (I.of (.group (zs.map Prod.snd))) := by
  -- Both sequences are seen in one, whose operands are pairs.
  let both : Node × Node → Piece (α × α) := fun z => z.1.piece.map fun c => (I.of c, I.of z.2)
  have hoperand : ∀ x, Piece.operand x ∈ zs.map both → R x.1 x.2 := by
    intro x hx
    obtain ⟨⟨c, d⟩, hz, heq⟩ := List.mem_map.mp hx
    have hrel := (hzs _ hz).2
    cases c with
    | marker m => simp [both, Node.piece, Piece.map] at heq
    | _ =>
      obtain rfl := Piece.operand.inj heq
      exact hrel
  have hfst : (zs.map both).map (Piece.map Prod.fst) = Node.piecesWith I.of (zs.map Prod.fst) := by
    rw [Node.piecesWith, List.map_map, List.map_map]
    refine List.map_congr_left fun z _ => ?_
    simp only [both, Function.comp_apply]
    cases z.1.piece <;> rfl
  have hsnd : (zs.map both).map (Piece.map Prod.snd) = Node.piecesWith I.of (zs.map Prod.snd) := by
    rw [Node.piecesWith, List.map_map, List.map_map]
    refine List.map_congr_left fun z hz => ?_
    simp only [both, Function.comp_apply]
    rcases (hzs z hz).1 with heq | ⟨hz1, hz2⟩
    · rw [heq]
      cases z.2 <;> rfl
    · rw [Node.piece_of_not_isMarker hz1, Node.piece_of_not_isMarker hz2]
      rfl
  rw [of_group, of_group, ← hfst, ← hsnd]
  exact hI.resolve hoperand

/-- Children that differ in one place. -/
theorem exists_matched (hrefl : ∀ n, R (I.of n) (I.of n)) {m n : Node} (hm : m.isMarker = false)
    (hn : n.isMarker = false) (hmn : R (I.of m) (I.of n)) (before behind : List Node) :
    ∃ zs : List (Node × Node), (∀ z ∈ zs, I.Matched R z) ∧
      zs.map Prod.fst = before ++ m :: behind ∧ zs.map Prod.snd = before ++ n :: behind := by
  have hsame : ∀ cs : List Node, ∀ z ∈ cs.map fun c => (c, c), I.Matched R z := fun cs =>
    List.forall_mem_map.mpr fun c _ => ⟨Or.inl rfl, hrefl c⟩
  refine ⟨before.map (fun c => (c, c)) ++ (m, n) :: behind.map fun c => (c, c), ?_, ?_, ?_⟩
  · exact List.forall_mem_append.mpr
      ⟨hsame before, List.forall_mem_cons.mpr ⟨⟨Or.inr ⟨hm, hn⟩, hmn⟩, hsame behind⟩⟩
  · simp [Function.comp_def]
  · simp [Function.comp_def]

/-- **What is related stays related in every context**, if assembling respects the
relation and no marker is put in. -/
theorem of_fill (hI : I.toAssembly.Respects R) (hrefl : ∀ n, R (I.of n) (I.of n)) {g h : Node}
    (hg : g.isMarker = false) (hh : h.isMarker = false) (hgh : R (I.of g) (I.of h))
    (C : Node.Context) : R (I.of (C.fill g)) (I.of (C.fill h)) := by
  induction C with
  | hole => exact hgh
  | group before inner behind ih =>
    obtain ⟨zs, hzs, hfst, hsnd⟩ :=
      exists_matched hrefl (inner.isMarker_fill hg) (inner.isMarker_fill hh) ih before behind
    rw [Node.Context.fill, Node.Context.fill, ← hfst, ← hsnd]
    exact of_group_matched hI hzs
  | sum before inner behind ih =>
    obtain ⟨zs, hzs, hfst, hsnd⟩ :=
      exists_matched hrefl (inner.isMarker_fill hg) (inner.isMarker_fill hh) ih before behind
    rw [Node.Context.fill, Node.Context.fill, ← hfst, ← hsnd]
    exact of_children_matched I.of_sum hI.sum hzs
  | product before inner behind ih =>
    obtain ⟨zs, hzs, hfst, hsnd⟩ :=
      exists_matched hrefl (inner.isMarker_fill hg) (inner.isMarker_fill hh) ih before behind
    rw [Node.Context.fill, Node.Context.fill, ← hfst, ← hsnd]
    exact of_children_matched I.of_product hI.product hzs

end Interpretation

/-! ## Values that are alike -/

namespace Value

/-- The same marker is met, or both values are polynomials and equal. Nothing is
said of a value that was too long to be stored. -/
def Alike : Value → Value → Prop
  | .error .degreeOverflow, _ => True
  | _, .error .degreeOverflow => True
  | .error (.bareMarker m), .error (.bareMarker n) => m = n
  | .ok p, .ok q => (p == q) = true
  | .error (.bareMarker _), .ok _ => False
  | .ok _, .error (.bareMarker _) => False

theorem Alike.refl (v : Value) : Alike v v := by
  rcases v with (m | _) | p
  · exact rfl
  · exact trivial
  · exact DensePoly.beq_iff.mpr fun _ => rfl

theorem alike_overflow (v : Value) : Alike v (.error .degreeOverflow) := by
  rcases v with (m | _) | p <;> exact trivial

/-- What goes on alike from equal polynomials ends alike. -/
theorem Alike.bind {v w : Value} (h : Alike v w) {k l : DensePoly → Value}
    (hkl : ∀ p q, (p == q) = true → Alike (k p) (l q)) : Alike (v >>= k) (w >>= l) := by
  rcases v with (m | _) | p
  · rcases w with (n | _) | q
    · exact h
    · exact alike_overflow _
    · exact h.elim
  · exact trivial
  · rcases w with (n | _) | q
    · exact h.elim
    · exact alike_overflow _
    · exact hkl p q h

theorem Alike.plus {p q : DensePoly} (hpq : (p == q) = true) {v w : Value} (h : Alike v w) :
    Alike (plus p v) (plus q w) := by
  refine h.bind fun r s hrs => ?_
  rw [DensePoly.beq_iff_toPolynomial_eq] at hpq hrs
  refine DensePoly.beq_iff_toPolynomial_eq.mpr ?_
  rw [DensePoly.toPolynomial_add, DensePoly.toPolynomial_add, hpq, hrs]

/-- A product that is refused for its length is alike to everything. -/
theorem Alike.times {p q : DensePoly} (hpq : (p == q) = true) {v w : Value} (h : Alike v w) :
    Alike (times p v) (times q w) := by
  refine h.bind fun r s hrs => ?_
  rw [DensePoly.beq_iff_toPolynomial_eq] at hpq hrs
  simp only [DensePoly.mul?]
  by_cases hp : p.degree + r.size ≤ maxWord
  · by_cases hq : q.degree + s.size ≤ maxWord
    · rw [if_pos hp, if_pos hq]
      refine DensePoly.beq_iff_toPolynomial_eq.mpr ?_
      rw [DensePoly.toPolynomial_mul, DensePoly.toPolynomial_mul, hpq, hrs]
    · rw [if_neg hq]
      exact alike_overflow _
  · rw [if_neg hp]
    exact trivial

/-- Folds whose steps are alike are alike, from equal polynomials on. -/
theorem alike_foldlM {f : DensePoly → Value → Value}
    (step : ∀ {p q v w}, (p == q) = true → Alike v w → Alike (f p v) (f q w)) :
    ∀ (xs : List (DeferredValue × DeferredValue)) {p q : DensePoly}, (p == q) = true →
      (∀ x ∈ xs, Alike (x.1 ()) (x.2 ())) →
      Alike ((xs.map Prod.fst).foldlM (fun p v => f p (v ())) p)
        ((xs.map Prod.snd).foldlM (fun p v => f p (v ())) q)
  | [], _, _, hpq, _ => hpq
  | x :: xs, p, q, hpq, h => by
    obtain ⟨hx, hxs⟩ := List.forall_mem_cons.mp h
    rw [List.map_cons, List.map_cons, List.foldlM_cons, List.foldlM_cons]
    exact (step hpq hx).bind fun p' q' hpq' => alike_foldlM step xs hpq' hxs

end Value

/-- Polynomial arithmetic does not look at trailing zeros. -/
theorem DeferredValue.respects_alike :
    assembly.Respects fun v w => Value.Alike (v ()) (w ()) where
  negOne := Value.Alike.refl _
  product xs hxs := Value.alike_foldlM (fun hpq h => h.times hpq) xs
    (DensePoly.beq_iff.mpr fun _ => rfl) hxs
  sum xs hxs := Value.alike_foldlM (fun hpq h => h.plus hpq) xs
    (DensePoly.beq_iff.mpr fun _ => rfl) hxs

namespace Node

/-- A tree that can be evaluated is no marker. -/
theorem isMarker_of_evaluate {n : Node} {p : DensePoly} (h : n.evaluate = .ok p) :
    n.isMarker = false := by
  cases n with
  | marker m => cases h
  | _ => rfl

theorem alike_fill {g h : Node} (hg : g.isMarker = false) (hh : h.isMarker = false)
    (hgh : Value.Alike g.evaluate h.evaluate) (C : Context) :
    Value.Alike (C.fill g).evaluate (C.fill h).evaluate := by
  have hof := Interpretation.of_fill (I := Interpretation.deferred) DeferredValue.respects_alike
    (fun n => Value.Alike.refl _) hg hh
  simp only [Interpretation.deferred_of] at hof
  exact hof hgh C

/-- One group of a tree is resolved, at any depth. -/
def ResolvesOne (n n' : Node) : Prop :=
  ∃ (C : Context) (cs : List Node), n = C.fill (.group cs) ∧ n' = C.fill (resolve (.group cs))

theorem ResolvesOne.evaluate_eq {n n' : Node} (h : ResolvesOne n n') :
    n'.evaluate = n.evaluate := by
  obtain ⟨C, cs, rfl, rfl⟩ := h
  have hresolve : Interpretation.deferred.of (resolve (.group cs)) =
      Interpretation.deferred.of (.group cs) := Interpretation.deferred.of_resolve rfl _
  have hof := Interpretation.of_fill (Assembly.respects_eq _) (fun _ => rfl)
    (resolve_isOperand rfl).isMarker_eq rfl hresolve C
  rw [Interpretation.deferred_of, Interpretation.deferred_of] at hof
  exact congrFun hof ()

theorem evaluate_ne_overflow {n : Node} (h : n.formalDegree < maxWord) :
    n.evaluate ≠ .error .degreeOverflow := by
  cases hstrays : n.strays with
  | nil =>
    obtain ⟨p, hp, -⟩ := evaluate_of_strays_eq_nil hstrays h
    rw [hp]
    simp
  | cons m ms =>
    rw [evaluate_of_strays_eq_cons hstrays h]
    simp

/-- **Groups are opaque.** Where two trees of equal value stand in the same place, the
same marker is met in both, or both have equal values, as long as no product is too
long to be stored; and none is where the formal degree is below `maxWord`. Groups may
be replaced by their resolved form, any number of them and in any order: that does
not even change the length of what is stored. -/
theorem evaluate_fill {g h : Node} {p q : DensePoly} (hg : g.evaluate = .ok p)
    (hh : h.evaluate = .ok q) (hpq : (p == q) = true) (C : Context) :
    ((C.fill g).evaluate ≠ .error .degreeOverflow →
      (C.fill h).evaluate ≠ .error .degreeOverflow →
      (∃ m, (C.fill g).evaluate = .error (.bareMarker m) ∧
        (C.fill h).evaluate = .error (.bareMarker m)) ∨
      ∃ p' q', (C.fill g).evaluate = .ok p' ∧ (C.fill h).evaluate = .ok q' ∧
        (p' == q') = true) ∧
    (∀ n : Node, n.formalDegree < maxWord → n.evaluate ≠ .error .degreeOverflow) ∧
    ∀ n n' : Node, Relation.ReflTransGen ResolvesOne n n' → n'.evaluate = n.evaluate := by
  refine ⟨fun hgfit hhfit => ?_, fun n => evaluate_ne_overflow, fun n n' hresolves => ?_⟩
  · have halike : Value.Alike g.evaluate h.evaluate := by
      rw [hg, hh]
      exact hpq
    have hfill := alike_fill (isMarker_of_evaluate hg) (isMarker_of_evaluate hh) halike C
    rcases hgvalue : (C.fill g).evaluate with (m | _) | p'
    · rcases hhvalue : (C.fill h).evaluate with (m' | _) | q'
      · rw [hgvalue, hhvalue] at hfill
        obtain rfl : m = m' := hfill
        exact Or.inl ⟨m, rfl, rfl⟩
      · exact absurd hhvalue hhfit
      · rw [hgvalue, hhvalue] at hfill
        exact hfill.elim
    · exact absurd hgvalue hgfit
    · rcases hhvalue : (C.fill h).evaluate with (m' | _) | q'
      · rw [hgvalue, hhvalue] at hfill
        exact hfill.elim
      · exact absurd hhvalue hhfit
      · rw [hgvalue, hhvalue] at hfill
        exact Or.inr ⟨p', q', rfl, rfl, hfill⟩
  · induction hresolves with
    | refl => rfl
    | tail _ hlast ih => exact hlast.evaluate_eq.trans ih

/-- Behind a number and between signs, `x - x` may stand for zero, although it is
stored with one more coefficient: the values are stored as `-2 + 0x` and as `-2`. -/
theorem evaluate_fill_cancelled :
    let C : Context := .product [number 2]
      (.group [marker .times, marker .minus] .hole [marker .plus, marker .minus, marker .minus]) []
    let p := DensePoly.ofInts [-2, 0]
    let q := DensePoly.ofInts [-2]
    (C.fill (group [power 1, marker .minus, power 1])).evaluate = .ok p ∧
      (C.fill (number 0)).evaluate = .ok q ∧ (p == q) = true := by
  intro C p q
  obtain ⟨hsame, -, -⟩ := evaluate_fill (g := group [power 1, marker .minus, power 1])
    (h := number 0) (p := .ofInts [0, 0]) (q := .ofInts [0]) (by decide +kernel) (by decide +kernel)
    (by decide +kernel) C
  have hp : (C.fill (group [power 1, marker .minus, power 1])).evaluate = .ok p := by
    decide +kernel
  have hq : (C.fill (number 0)).evaluate = .ok q := by decide +kernel
  rcases hsame (by decide +kernel) (by decide +kernel) with ⟨m, hm, -⟩ | ⟨p', q', hp', hq', hequal⟩
  · cases hp.symm.trans hm
  · obtain rfl := Except.ok.inj (hp.symm.trans hp')
    obtain rfl := Except.ok.inj (hq.symm.trans hq')
    exact ⟨hp, hq, hequal⟩

end Node

end PolyExpand
