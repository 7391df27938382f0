import PolyExpand.Proofs.Totality
import Mathlib.Data.List.Fold

/-!
# Stored degrees — a length that the shape alone decides

The degree of a polynomial is a length: the number of stored coefficients less one. No
operation looks at a coefficient to decide how many to store, so the degree of whatever is
made can be told from the way it is made. A `Construction` is such a way, from
coefficients, terms and trees through sums, products and multiples, and
`Construction.degree` reads the degree off it.

The same holds of trees, and there without a condition: `degree_of_evaluate` says that a
tree that has a value at all has one of its formal degree. An addition that cancels leaves
zeros behind, and a product with zero is as long as any other.

> `Construction.stored_degree`: what is made stores one coefficient more than its degree
> says, so it stores one at least; degrees of sums and products are maxima and sums; and a
> tree of numbers, powers, sums and products evaluates to its formal degree.
-/

namespace PolyExpand

namespace DensePoly

theorem size_ofList (cs : List ℚ) : (ofList cs).size = max 1 cs.length := by
  cases cs with
  | nil => rfl
  | cons c cs =>
    rw [size, coeffs_ofList_cons, List.length_cons]
    omega

theorem degree_ofList (cs : List ℚ) : (ofList cs).degree = cs.length - 1 := by
  rw [degree, size_ofList]
  omega

theorem degree_ofInts (cs : List Int) : (ofInts cs).degree = cs.length - 1 := by
  rw [ofInts, degree_ofList, List.length_map]

@[simp] theorem degree_scale (c : ℚ) (p : DensePoly) : (p.scale c).degree = p.degree := by
  rw [degree, size_scale, degree]

@[simp] theorem degree_negate (p : DensePoly) : p.negate.degree = p.degree := by
  rw [degree, size_negate, degree]

/-- A product that can be stored has the sum of the degrees. -/
theorem degree_mul? {p q r : DensePoly} (h : p.mul? q = some r) :
    r.degree = p.degree + q.degree := by
  unfold mul? at h
  split at h
  next =>
    obtain rfl := Option.some.inj h
    exact degree_mul p q
  next => cases h

end DensePoly

@[simp] theorem Term.degree_mul (t : Term) (p : DensePoly) :
    (t.mul p).degree = t.exponent + p.degree := by
  have hp := p.size_pos
  simp only [DensePoly.degree, Term.size_mul]
  omega

theorem Term.degree_mul? {t : Term} {p r : DensePoly} (h : t.mul? p = some r) :
    r.degree = t.exponent + p.degree := by
  unfold Term.mul? at h
  split at h
  next =>
    obtain rfl := Option.some.inj h
    exact t.degree_mul p
  next => cases h

/-! ## Values -/

namespace Value

/-- If there is a value, it has a given degree. -/
def HasDegree (v : Value) (d : ℕ) : Prop := ∀ p, v = .ok p → p.degree = d

theorem hasDegree_ok {p : DensePoly} {d : ℕ} (h : p.degree = d) : HasDegree (.ok p) d := by
  rintro _ ⟨⟩
  exact h

theorem HasDegree.plus {v : Value} {d : ℕ} (h : v.HasDegree d) (p : DensePoly) :
    (Value.plus p v).HasDegree (max p.degree d) := by
  cases v with
  | error f => rintro q ⟨⟩
  | ok r => exact hasDegree_ok (by rw [DensePoly.degree_add, h r rfl])

theorem HasDegree.times {v : Value} {d : ℕ} (h : v.HasDegree d) (p : DensePoly) :
    (Value.times p v).HasDegree (p.degree + d) := by
  cases v with
  | error f => rintro q ⟨⟩
  | ok r =>
    intro q hq
    simp only [Value.times, bind, Except.bind] at hq
    split at hq
    next product hproduct =>
      obtain rfl := Except.ok.inj hq
      rw [DensePoly.degree_mul? hproduct, h r rfl]
    next => cases hq

/-- **Degrees are carried along** from value to value, if one step does so. -/
theorem hasDegree_foldlM {f : DensePoly → Value → Value} {op : ℕ → ℕ → ℕ}
    (step : ∀ {v d}, HasDegree v d → ∀ p, (f p v).HasDegree (op p.degree d)) :
    ∀ (xs : List (DeferredValue × ℕ)) (p : DensePoly), (∀ x ∈ xs, HasDegree (x.1 ()) x.2) →
      HasDegree ((xs.map Prod.fst).foldlM (fun p v => f p (v ())) p)
        ((xs.map Prod.snd).foldl op p.degree)
  | [], p, _ => hasDegree_ok rfl
  | x :: xs, p, h => by
    obtain ⟨hx, hxs⟩ := List.forall_mem_cons.mp h
    have hstep := step hx p
    rw [List.map_cons, List.map_cons, List.foldlM_cons, List.foldl_cons]
    cases hcase : f p (x.1 ()) with
    | error e => rintro q ⟨⟩
    | ok r =>
      rw [← hstep r hcase]
      exact hasDegree_foldlM step xs r hxs

end Value

/-- **A value has the formal degree of its tree**, whatever the tree and however large. -/
theorem Node.degree_of_evaluate {n : Node} {p : DensePoly} (h : n.evaluate = .ok p) :
    p.degree = n.formalDegree := by
  let P : DeferredValue × ℕ → Prop := fun x => Value.HasDegree (x.1 ()) x.2
  have hall : P ((Interpretation.deferred.pair Interpretation.degree).of n) := by
    refine Interpretation.of_closed _ ?_ ?_ ?_ ?_ ?_ ?_ n
    · rintro m q ⟨⟩
    · exact fun q => Value.hasDegree_ok (DensePoly.degree_constant q)
    · exact fun e => Value.hasDegree_ok (Term.degree_poly _)
    · exact Value.hasDegree_ok (DensePoly.degree_constant _)
    · intro xs hxs
      have hfold := Value.hasDegree_foldlM (fun h => h.times) xs .one hxs
      rw [DensePoly.degree_one, ← List.sum_eq_foldl] at hfold
      exact hfold
    · intro xs hxs
      have hfold := Value.hasDegree_foldlM (fun h => h.plus) xs .zero hxs
      rw [DensePoly.degree_zero, List.foldl_eq_foldr] at hfold
      exact hfold
  rw [Interpretation.pair_of, Interpretation.deferred_of] at hall
  exact hall p h

/-! ## Constructions -/

/-- A way to make a polynomial: from coefficients, from a term or from a tree, and from
polynomials that have been made. -/
inductive Construction where
  | ofList (cs : List ℚ)
  | ofInts (cs : List Int)
  | zero
  | one
  | poly (t : Term)
  | value (n : Node)
  | shifted (t : Term) (c : Construction)
  | add (c d : Construction)
  | mul (c d : Construction)
  | scale (q : ℚ) (c : Construction)
  | negate (c : Construction)

namespace Construction

/-- What is made, unless a product is refused or a tree has no value. -/
def build : Construction → Option DensePoly
  | ofList cs => some (.ofList cs)
  | ofInts cs => some (.ofInts cs)
  | zero => some .zero
  | one => some .one
  | poly t => some t.poly
  | value n => n.evaluate.toOption
  | shifted t c => do t.mul? (← c.build)
  | add c d => do return (← c.build).add (← d.build)
  | mul c d => do (← c.build).mul? (← d.build)
  | scale q c => do return (← c.build).scale q
  | negate c => do return (← c.build).negate

/-- The degree of what is made. -/
def degree : Construction → ℕ
  | ofList cs => cs.length - 1
  | ofInts cs => cs.length - 1
  | zero | one => 0
  | poly t => t.exponent
  | value n => n.formalDegree
  | shifted t c => t.exponent + c.degree
  | add c d => max c.degree d.degree
  | mul c d => c.degree + d.degree
  | scale _ c | negate c => c.degree

theorem degree_build : ∀ {c : Construction} {p : DensePoly}, c.build = some p →
    p.degree = c.degree
  | ofList cs, _, rfl => DensePoly.degree_ofList cs
  | ofInts cs, _, rfl => DensePoly.degree_ofInts cs
  | zero, _, rfl => rfl
  | one, _, rfl => rfl
  | poly t, _, rfl => t.degree_poly
  | value n, p, h => by
    rw [build] at h
    cases hvalue : n.evaluate with
    | error f => rw [hvalue] at h; cases h
    | ok q =>
      rw [hvalue] at h
      obtain rfl := Option.some.inj h
      exact Node.degree_of_evaluate hvalue
  | shifted t c, p, h => by
    obtain ⟨q, hq, hp⟩ := Option.bind_eq_some_iff.mp h
    rw [Term.degree_mul? hp, degree_build hq, degree]
  | add c d, p, h => by
    obtain ⟨q, hq, hrest⟩ := Option.bind_eq_some_iff.mp h
    obtain ⟨r, hr, hp⟩ := Option.bind_eq_some_iff.mp hrest
    obtain rfl := Option.some.inj hp
    rw [DensePoly.degree_add, degree_build hq, degree_build hr, degree]
  | mul c d, p, h => by
    obtain ⟨q, hq, hrest⟩ := Option.bind_eq_some_iff.mp h
    obtain ⟨r, hr, hp⟩ := Option.bind_eq_some_iff.mp hrest
    rw [DensePoly.degree_mul? hp, degree_build hq, degree_build hr, degree]
  | scale a c, p, h => by
    obtain ⟨q, hq, hp⟩ := Option.bind_eq_some_iff.mp h
    obtain rfl := Option.some.inj hp
    rw [DensePoly.degree_scale, degree_build hq, degree]
  | negate c, p, h => by
    obtain ⟨q, hq, hp⟩ := Option.bind_eq_some_iff.mp h
    obtain rfl := Option.some.inj hp
    rw [DensePoly.degree_negate, degree_build hq, degree]

open Node in
/-- **Stored degrees are formal degrees.** Whatever has been made by constructors and
operations stores exactly one coefficient more than its degree, which is the degree that
the way it was made gives. Sums have the larger of two degrees, and products, wherever
they can be stored, the sum of both, whatever the coefficients are. So the formal degree
of a tree, which is zero for a number, the exponent for a power, the largest degree of a
term for a sum and the sum over all factors for a product, is the degree of its value;
and a tree without markers and groups has a value, if its degree can be stored. -/
theorem stored_degree :
    (∀ (c : Construction) (p : DensePoly), c.build = some p →
      p.degree = c.degree ∧ p.coeffs.length = c.degree + 1) ∧
    (∀ a b : DensePoly, (a.add b).degree = max a.degree b.degree ∧
      (a.degree + b.size ≤ maxWord →
        ∃ p, a.mul? b = some p ∧ p.degree = a.degree + b.degree)) ∧
    ((∀ q, (number q).formalDegree = 0) ∧ (∀ e, (power e).formalDegree = e) ∧
      (∀ cs, (sum cs).formalDegree = (cs.map formalDegree).foldr max 0) ∧
      ∀ cs, (product cs).formalDegree = (cs.map formalDegree).sum) ∧
    (∀ (n : Node) (p : DensePoly), n.evaluate = .ok p → p.degree = n.formalDegree) ∧
    ∀ n : Node, (∀ s ∈ n.subtrees, s.IsOperand) → n.formalDegree < maxWord →
      ∃ p, n.evaluate = .ok p ∧ p.degree = n.formalDegree := by
  refine ⟨fun c p h => ⟨degree_build h, ?_⟩, fun a b => ⟨DensePoly.degree_add a b, fun h => ?_⟩,
    ⟨fun _ => rfl, fun _ => rfl, formalDegree_sum, formalDegree_product⟩,
    fun n p h => degree_of_evaluate h, fun n hoperands hdegree => ?_⟩
  · rw [← degree_build h]
    exact p.size_eq_degree_add_one
  · have hstored : a.mul? b = some (a.mul b) := if_pos h
    exact ⟨a.mul b, hstored, DensePoly.degree_mul a b⟩
  · have hmarkers : n.MarkersInGroups := fun s hs _ c hc =>
      (hoperands c (mem_subtrees_of_mem_children hs hc)).isMarker_eq
    have hstrays := hmarkers.strays_eq (forall_subtrees.mp hoperands).1.isMarker_eq
    obtain ⟨p, hp, hpdegree, -⟩ := evaluate_of_strays_eq_nil hstrays hdegree
    exact ⟨p, hp, hpdegree⟩

open Node in
/-- Nothing of `-0 * 0x^2 (x - x + 0x^2)` is there but its length, and
`(x^2 - x^2) (+ ) 0 x` is a tree of degree three. -/
theorem stored_degree_cancelled :
    let c : Construction := .mul (.negate (.ofList []))
      (.shifted ⟨0, 2⟩ (.add (.value (Node.power 1)) (.ofInts [0, -1, 0])))
    let n : Node := product
      [sum [power 2, product [number (-1), power 2]], sum [], number 0, power 1]
    (∃ p, c.build = some p ∧ p.coeffs.length = 5) ∧
    (∃ p, DensePoly.zero.mul? (.ofInts [1, 0, 0]) = some p ∧ p.degree = 2) ∧
    ∃ p, n.evaluate = .ok p ∧ p.degree = 3 := by
  intro c n
  obtain ⟨hmade, hproducts, -, -, hvalue⟩ := stored_degree
  have hbuild : c.build.isSome = true := by decide +kernel
  obtain ⟨p, hp⟩ := Option.isSome_iff_exists.mp hbuild
  have hoperands : ∀ s ∈ n.subtrees, s.IsOperand := by
    simp [n, subtrees, subtreesAll, IsOperand]
  exact ⟨⟨p, hp, (hmade c p hp).2⟩, (hproducts _ _).2 (by decide), hvalue n hoperands (by decide)⟩

end Construction

end PolyExpand
