import PolyExpand.Proofs.Safety

/-!
# Totality — every text has an answer

A text is refused with a report, or else it has a polynomial. Evaluation is
partial, so the second half says something about every step of it. A step that
could fail is of one of two kinds: a marker is met, or two polynomials are
multiplied whose product is too long. Neither is found anywhere in a resolved
tree.

* Markers: resolution leaves a tree in normal form, and all of its subtrees are in
  normal form too (`Normal.of_mem_subtrees`).
* Lengths: a formal degree is never larger than that of the tree around it
  (`Normal.formalDegree_le`), so the bound on the whole tree is one on every product
  in it, and on what has been multiplied so far at every factor of one
  (`Normal.evaluate_factor`).

> `Source.expanded_total`: a short text is refused or expanded, its evaluation
> multiplies nothing that cannot be stored, and the degree of the result is at most
> the sum of the exponents that were written.
-/

namespace PolyExpand

namespace Node

theorem formalDegree_product (cs : List Node) :
    (product cs).formalDegree = (cs.map formalDegree).sum :=
  Interpretation.of_product _ cs

theorem formalDegree_sum (cs : List Node) :
    (sum cs).formalDegree = (cs.map formalDegree).foldr max 0 :=
  Interpretation.of_sum _ cs

namespace Normal

theorem child {n c : Node} (h : n.Normal) (hc : c ∈ n.children) : c.Normal :=
  (forall_subtrees.mp h).2 c hc

theorem isMarker_eq {n : Node} (h : n.Normal) : n.isMarker = false := by
  cases n with
  | marker m => exact (forall_subtrees.mp h).1.elim
  | _ => rfl

theorem formalDegree_child_le {n c : Node} (h : n.Normal) (hc : c ∈ n.children) :
    c.formalDegree ≤ n.formalDegree := by
  have hmem : ∀ cs : List Node, c ∈ cs → c.formalDegree ∈ cs.map formalDegree :=
    fun cs hcs => List.mem_map_of_mem hcs
  cases n with
  | marker m => cases hc
  | number q => cases hc
  | power e => cases hc
  | group cs => exact (forall_subtrees.mp h).1.elim
  | sum cs =>
    rw [formalDegree_sum]
    exact List.le_max_of_le' 0 (hmem cs hc) le_rfl
  | product cs =>
    rw [formalDegree_product]
    exact List.le_sum_of_mem (hmem cs hc)

/-- What lies in a tree in normal form is in normal form, and of no larger degree. -/
theorem of_mem_subtrees {n t : Node} (h : n.Normal) (ht : t ∈ n.subtrees) :
    t.Normal ∧ t.formalDegree ≤ n.formalDegree := by
  induction n using Node.induction generalizing t with
  | marker m => exact (forall_subtrees.mp h).1.elim
  | group cs _ => exact (forall_subtrees.mp h).1.elim
  | number q =>
    obtain rfl := List.mem_singleton.mp ht
    exact ⟨h, le_rfl⟩
  | power e =>
    obtain rfl := List.mem_singleton.mp ht
    exact ⟨h, le_rfl⟩
  | sum cs ih | product cs ih =>
    rw [subtrees_eq, List.mem_cons, List.mem_flatMap] at ht
    obtain rfl | ⟨c, hc, htc⟩ := ht
    · exact ⟨h, le_rfl⟩
    · obtain ⟨hnormal, hle⟩ := ih c hc (h.child hc) htc
      exact ⟨hnormal, le_trans hle (h.formalDegree_child_le hc)⟩

/-- Nothing in a tree in normal form stands in the way of evaluating it. -/
theorem strays_eq {n : Node} (h : n.Normal) : n.strays = [] := by
  refine MarkersInGroups.strays_eq (fun s hs _ c hc => ?_) h.isMarker_eq
  obtain ⟨hs, -⟩ := h.of_mem_subtrees hs
  exact (hs.child hc).isMarker_eq

theorem evaluate_eq_ok {n : Node} (h : n.Normal) (hdegree : n.formalDegree < maxWord) :
    ∃ p, n.evaluate = .ok p ∧ p.degree = n.formalDegree := by
  obtain ⟨p, hp, hpdegree, -⟩ := evaluate_of_strays_eq_nil h.strays_eq hdegree
  exact ⟨p, hp, hpdegree⟩

/-- At every factor of a product, what stands in front of it has been multiplied,
and may be multiplied by it. -/
theorem evaluate_factor {as bs : List Node} {c : Node} (h : (product (as ++ c :: bs)).Normal)
    (hdegree : (product (as ++ c :: bs)).formalDegree < maxWord) :
    ∃ a q, (product as).evaluate = .ok a ∧ c.evaluate = .ok q ∧ a.degree + q.size ≤ maxWord := by
  have hchild : ∀ d ∈ as ++ c :: bs, d.Normal := fun d hd => h.child hd
  have hsum : (product as).formalDegree + c.formalDegree ≤
      (product (as ++ c :: bs)).formalDegree := by
    rw [formalDegree_product, formalDegree_product, List.map_append, List.sum_append,
      List.map_cons, List.sum_cons]
    omega
  obtain ⟨q, hq, hqdegree⟩ := (hchild c (by simp)).evaluate_eq_ok (by omega)
  -- The product of the factors in front may have fewer than two of them, so it need
  -- not be in normal form; it has no strays all the same.
  have hstrays : (product as).strays = [] := by
    rw [strays_product, List.flatten_eq_nil_iff]
    intro l hl
    obtain ⟨d, hd, rfl⟩ := List.mem_map.mp hl
    exact (hchild d (List.mem_append_left _ hd)).strays_eq
  obtain ⟨a, ha, hadegree, -⟩ := evaluate_of_strays_eq_nil hstrays (by omega)
  refine ⟨a, q, ha, hq, ?_⟩
  rw [q.size_eq_degree_add_one, hadegree, hqdegree]
  omega

end Normal

end Node

namespace Source

/-- The exponents that are written in a text, in order. -/
def exponents (s : Source) : List Nat :=
  s.items.filterMap fun i => i.token.toOption.bind Token.exponent?

theorem exponents_of_tree {s : Source} {n : Node} (h : s.tree = .ok n) :
    n.exponents = s.exponents := by
  obtain ⟨cs, rfl, hunresolved, htokens⟩ := tokens_of_tree h
  have hitems : s.exponents = (s.items.map Item.token).filterMap
      fun t => t.toOption.bind Token.exponent? := by
    rw [exponents, List.filterMap_map]
    rfl
  rw [Node.exponents_group_eq_tokens hunresolved, hitems, htokens, List.filterMap_map]
  rfl

/-- **Every text has an answer.** It is refused with a report, or it is resolved and
expanded. In the second case every subtree of the resolved tree has a value, and none
is a marker; wherever a product has been multiplied up to a factor, the next
multiplication shifts the value of that factor by no more than can be stored; and the
degree of the result is at most the sum of the exponents in the text, each of which
is at most `maxExponent`. -/
theorem expanded_total {s : Source} (hsize : s.text.utf8ByteSize < 2 ^ 48) :
    (∃ m, s.resolved = .error m ∧ s.expanded = .error m) ∨
    ∃ r p, s.resolved = .ok r ∧ s.expanded = .ok (.ok p) ∧
      (∀ t ∈ r.subtrees, t.isMarker = false ∧ ∃ q, t.evaluate = .ok q) ∧
      (∀ as c bs, .product (as ++ c :: bs) ∈ r.subtrees →
        ∃ a q, (Node.product as).evaluate = .ok a ∧ c.evaluate = .ok q ∧
          ∀ i ≤ a.degree, i + q.size ≤ maxWord) ∧
      p.degree ≤ s.exponents.sum ∧
      s.exponents.sum ≤ maxExponent * s.exponents.length := by
  cases htree : s.tree with
  | error m => exact Or.inl ⟨m, views_of_error htree⟩
  | ok n =>
    right
    have hdegree := formalDegree_lt hsize htree
    obtain ⟨p, hp, hpdegree, -⟩ := expanded_of_degree_lt htree hdegree
    obtain ⟨cs, rfl, hunresolved, -⟩ := tokens_of_tree htree
    have hnormal : (Node.group cs).resolve.Normal := Node.normal_resolve rfl hunresolved
    -- The bound on the tree that was read is one on every subtree of the resolved one.
    have hsubtree : ∀ t ∈ (Node.group cs).resolve.subtrees,
        t.Normal ∧ t.formalDegree < maxWord := by
      intro t ht
      obtain ⟨htnormal, hle⟩ := hnormal.of_mem_subtrees ht
      rw [Node.formalDegree_resolve] at hle
      exact ⟨htnormal, lt_of_le_of_lt hle hdegree⟩
    refine ⟨(Node.group cs).resolve, p, by rw [resolved, htree]; rfl, hp, ?_, ?_, ?_, ?_⟩
    · intro t ht
      obtain ⟨htnormal, htdegree⟩ := hsubtree t ht
      obtain ⟨q, hq, -⟩ := htnormal.evaluate_eq_ok htdegree
      exact ⟨htnormal.isMarker_eq, q, hq⟩
    · intro as c bs hproduct
      obtain ⟨hpnormal, hpbound⟩ := hsubtree _ hproduct
      obtain ⟨a, q, ha, hq, hstored⟩ := hpnormal.evaluate_factor hpbound
      exact ⟨a, q, ha, hq, fun i hi => by omega⟩
    · rw [hpdegree, ← exponents_of_tree htree]
      exact Node.formalDegree_le_sum _
    · rw [← exponents_of_tree htree, mul_comm]
      exact List.sum_le_card_nsmul _ _ (exponent_le_of_tree htree)

/-- The largest exponent twice, signs that lead nowhere, and an empty group. -/
theorem expanded_total_largest :
    let s : Source := ⟨"-x^65535 (y^65535 * - () -) +", none⟩
    s.resolved = .ok (.product [.number (-1), .power 65535,
      .product [.power 65535, .number (-1), .sum []]]) ∧
    ∃ p, s.expanded = .ok (.ok p) ∧ p.degree ≤ 131070 := by
  intro s
  have hresolved : s.resolved = .ok (.product [.number (-1), .power 65535,
      .product [.power 65535, .number (-1), .sum []]]) := by
    decide +kernel
  have hexponents : s.exponents = [65535, 65535] := by decide +kernel
  obtain ⟨m, hrefused, -⟩ | ⟨_, p, -, hp, -, -, hdegree, -⟩ :=
    expanded_total (s := s) (by decide)
  · rw [hresolved] at hrefused
    cases hrefused
  · rw [hexponents] at hdegree
    exact ⟨hresolved, p, hp, hdegree⟩

end Source

end PolyExpand
