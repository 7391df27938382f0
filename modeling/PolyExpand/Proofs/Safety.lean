import PolyExpand.Proofs.Descent
import PolyExpand.Proofs.Meaning
import PolyExpand.Proofs.Reading

/-!
# Safety — a tree that was read has a value

Evaluation can fail in two ways, and for the tree of a text it fails in neither.
A marker is never found where only operands may stand, because such a tree has
no sums and no products before it is resolved. And no product is too long to be
stored, because the degree of a tree is at most the sum of its exponents
(`Node.formalDegree_le_sum`), there are no more exponents than bytes in the
text, and each of them has passed the check of its size.

> `Source.views_agree`: the tree, the resolved tree and the polynomial of a text
> all exist or all fail with the one report that the scan for parentheses and
> faults asks for.
-/

namespace PolyExpand

/-- The exponents of a tree, from left to right. -/
def Interpretation.exponents : Interpretation (List Nat) where
  toAssembly := Assembly.concat []
  marker _ := []
  number _ := []
  power e := [e]

/-- The exponent that a token writes, if it writes one. -/
def Token.exponent? : Token → Option Nat
  | power e => some e
  | openParen | closeParen | marker _ | number _ => none

namespace Node

/-- The exponents of a tree, from left to right. -/
def exponents (n : Node) : List Nat := Interpretation.exponents.of n

/-! ## Degrees and exponents -/

theorem formalDegree_le_sum (n : Node) : n.formalDegree ≤ n.exponents.sum := by
  -- Degrees and exponents side by side, so that one induction relates them.
  let P : Nat × List Nat → Prop := fun x => x.1 ≤ x.2.sum
  have hsums : ∀ xs : List (Nat × List Nat), (∀ x ∈ xs, P x) →
      (xs.map Prod.fst).sum ≤ (xs.map Prod.snd).flatten.sum := by
    intro xs hxs
    induction xs with
    | nil => exact le_rfl
    | cons x xs ih =>
      have hx : x.1 ≤ x.2.sum := hxs x (List.mem_cons_self ..)
      have hrest := ih fun y hy => hxs y (List.mem_cons_of_mem _ hy)
      simp only [List.map_cons, List.sum_cons, List.flatten_cons, List.sum_append]
      omega
  have hmax : ∀ ds : List Nat, ds.foldr max 0 ≤ ds.sum := by
    intro ds
    induction ds with
    | nil => exact le_rfl
    | cons d ds ih =>
      rw [List.foldr_cons, List.sum_cons]
      omega
  have hall : P ((Interpretation.degree.pair Interpretation.exponents).of n) := by
    refine Interpretation.of_closed (P := P) _ ?_ ?_ ?_ ?_ ?_ ?_ n
    · exact fun _ => Nat.zero_le _
    · exact fun _ => Nat.zero_le _
    · exact fun e => le_of_eq (List.sum_singleton (x := e)).symm
    · exact Nat.zero_le _
    · exact fun xs hxs => hsums xs hxs
    · exact fun xs hxs => le_trans (hmax _) (hsums xs hxs)
  rw [Interpretation.pair_of] at hall
  exact hall

/-- Then every product is small enough to be stored. -/
theorem formalDegree_lt_of_sum_le {n : Node} (h : n.exponents.sum ≤ 2 ^ 64 - 2) :
    n.formalDegree < maxWord := by
  have hle := n.formalDegree_le_sum
  have hword : maxWord = 2 ^ 64 - 1 := rfl
  omega

/-- The exponents of a group are those of its children. -/
theorem exponents_group (cs : List Node) : (group cs).exponents = cs.flatMap exponents := by
  have hoperands : ∀ ds : List Node,
      (operands (piecesWith Interpretation.exponents.of ds)).flatten = ds.flatMap exponents := by
    intro ds
    induction ds with
    | nil => rfl
    | cons d ds ih =>
      rw [List.flatMap_cons, ← ih]
      cases d with
      | marker m =>
        simp [piecesWith, piece, Piece.map, operands, exponents, Interpretation.exponents]
      | _ => rfl
  rw [exponents, Interpretation.of_group, ← hoperands]
  exact Assembly.resolve_concat_nil _

theorem exponents_eq_tokens {n : Node} (h : n.Unresolved) :
    n.exponents = n.tokens.filterMap Token.exponent? := by
  refine Unresolved.induction (fun _ => rfl) (fun _ => rfl) (fun _ => rfl) (fun cs _ ih => ?_) h
  have hchildren : ∀ ds : List Node, (∀ d ∈ ds, d ∈ cs) →
      ds.flatMap exponents = (tokensAll ds).filterMap Token.exponent? := by
    intro ds hds
    induction ds with
    | nil => rfl
    | cons d ds ihds =>
      obtain ⟨hd, hrest⟩ := List.forall_mem_cons.mp hds
      rw [List.flatMap_cons, tokensAll, List.filterMap_append, ih d hd, ihds hrest]
  rw [exponents_group, hchildren cs fun _ hd => hd, tokens, List.filterMap_append]
  exact (List.append_nil _).symm

theorem exponents_group_eq_tokens {cs : List Node} (h : (group cs).Unresolved) :
    (group cs).exponents = (tokensAll cs).filterMap Token.exponent? := by
  rw [exponents_eq_tokens h, tokens, List.filterMap_append]
  exact List.append_nil _

/-! ## Strays -/

theorem strays_product (cs : List Node) : (product cs).strays = (cs.map strays).flatten :=
  Interpretation.of_product _ cs

theorem strays_sum (cs : List Node) : (sum cs).strays = (cs.map strays).flatten :=
  Interpretation.of_sum _ cs

/-- No sum and no product in a tree has a marker for a child. -/
def MarkersInGroups (n : Node) : Prop :=
  ∀ s ∈ n.subtrees, s.isCompound = true → ∀ c ∈ s.children, c.isMarker = false

theorem MarkersInGroups.child {n c : Node} (h : n.MarkersInGroups) (hc : c ∈ n.children) :
    c.MarkersInGroups :=
  (forall_subtrees.mp h).2 c hc

/-- Then no marker is met in an evaluation, unless it is the tree itself. -/
theorem MarkersInGroups.strays_eq {n : Node} (h : n.MarkersInGroups)
    (hmarker : n.isMarker = false) : n.strays = [] := by
  have hparts : ∀ cs : List Node, (∀ c ∈ cs, c.strays = []) → (cs.map strays).flatten = [] := by
    intro cs hcs
    rw [List.flatten_eq_nil_iff]
    exact List.forall_mem_map.mpr hcs
  induction n using Node.induction with
  | marker m => exact absurd hmarker (by simp [isMarker])
  | number q => rfl
  | power e => rfl
  | sum cs ih =>
    rw [strays_sum]
    have hroot := (forall_subtrees.mp h).1 rfl
    exact hparts cs fun c hc => ih c hc (h.child hc) (hroot c hc)
  | product cs ih =>
    rw [strays_product]
    have hroot := (forall_subtrees.mp h).1 rfl
    exact hparts cs fun c hc => ih c hc (h.child hc) (hroot c hc)
  | group cs ih =>
    -- The markers of a group are consumed, whatever they are.
    rw [strays, Interpretation.of_group]
    refine Assembly.resolve_closed (P := (· = [])) _ rfl ?_ ?_ ?_
    · exact fun as _ has => List.flatten_eq_nil_iff.mpr has
    · exact fun as _ has => List.flatten_eq_nil_iff.mpr has
    · intro a ha
      obtain ⟨c, hc, hcmarker, rfl⟩ := operand_mem_piecesWith.mp ha
      exact ih c hc (h.child hc) hcmarker

theorem strays_eq_nil {n : Node} (hmarker : n.isMarker = false) (h : n.Unresolved) :
    n.strays = [] := by
  refine MarkersInGroups.strays_eq (fun s hs hcompound => ?_) hmarker
  rw [h s hs] at hcompound
  cases hcompound

end Node

namespace Source

theorem tokens_of_tree {s : Source} {n : Node} (h : s.tree = .ok n) :
    ∃ cs, n = .group cs ∧ n.Unresolved ∧
      s.items.map Item.token = (Node.tokensAll cs).map .ok := by
  have hofItems := Node.ofItems_eq s.items
  have htree : Node.ofItems s.items = .ok n := h
  rw [htree] at hofItems
  cases hreport : (verdict [] s.items).report? with
  | some m => simp [hreport] at hofItems
  | none =>
    rw [hreport] at hofItems
    obtain ⟨cs, hcs, hunresolved, htokens⟩ := hofItems
    obtain rfl : n = .group cs := Except.ok.inj hcs
    exact ⟨cs, rfl, hunresolved, htokens⟩

/-- A token of a tree is the token of an item. -/
theorem exists_item_of_tree {s : Source} {cs : List Node} (h : s.tree = .ok (.group cs)) {t : Token}
    (ht : t ∈ Node.tokensAll cs) : ∃ i ∈ s.items, i.token = .ok t := by
  obtain ⟨ds, hds, -, htokens⟩ := tokens_of_tree h
  obtain rfl : cs = ds := Node.group.inj hds
  have hread : (.ok t : Except Malformed Token) ∈ s.items.map Item.token := by
    rw [htokens]
    exact List.mem_map_of_mem ht
  exact List.mem_map.mp hread

theorem exponent_le_of_tree {s : Source} {n : Node} (h : s.tree = .ok n) :
    ∀ e ∈ n.exponents, e ≤ maxExponent := by
  obtain ⟨cs, rfl, hunresolved, -⟩ := tokens_of_tree h
  intro e he
  rw [Node.exponents_group_eq_tokens hunresolved, List.mem_filterMap] at he
  obtain ⟨t, ht, hexponent⟩ := he
  have hpower : t = .power e := by
    cases t <;> simp [Token.exponent?] at hexponent
    rw [hexponent]
  obtain ⟨i, hi, htoken⟩ := exists_item_of_tree h (hpower ▸ ht)
  exact s.exponent_le i hi e htoken

/-- There is a byte for every exponent of a tree. -/
theorem length_exponents_le {s : Source} {n : Node} (h : s.tree = .ok n) :
    n.exponents.length ≤ s.text.utf8ByteSize := by
  obtain ⟨cs, rfl, hunresolved, htokens⟩ := tokens_of_tree h
  have hlength := congrArg List.length htokens
  rw [List.length_map, List.length_map] at hlength
  have hitems := s.length_items_le
  have hfilter := List.length_filterMap_le Token.exponent? (Node.tokensAll cs)
  rw [Node.exponents_group_eq_tokens hunresolved]
  omega

theorem sum_exponents_le {s : Source} {n : Node} (h : s.tree = .ok n) :
    n.exponents.sum ≤ s.text.utf8ByteSize * maxExponent := by
  have hsum := List.sum_le_card_nsmul _ _ (exponent_le_of_tree h)
  rw [smul_eq_mul] at hsum
  exact le_trans hsum (Nat.mul_le_mul_right _ (length_exponents_le h))

theorem formalDegree_lt {s : Source} {n : Node} (hsize : s.text.utf8ByteSize < 2 ^ 48)
    (h : s.tree = .ok n) : n.formalDegree < maxWord := by
  have hdegree := n.formalDegree_le_sum
  have hsum := sum_exponents_le h
  have hbytes : s.text.utf8ByteSize * maxExponent ≤ 2 ^ 48 * maxExponent :=
    Nat.mul_le_mul_right _ (le_of_lt hsize)
  have hlimits : 2 ^ 48 * maxExponent < maxWord := by decide
  omega

/-- **A tree that was read has a value**, of the degree that its shape gives,
and it is the polynomial that the tree stands for. -/
theorem expanded_of_degree_lt {s : Source} {n : Node} (h : s.tree = .ok n)
    (hdegree : n.formalDegree < maxWord) :
    ∃ p, s.expanded = .ok (.ok p) ∧ p.degree = n.formalDegree ∧ p.toPolynomial = n.denote := by
  obtain ⟨cs, rfl, hunresolved, -⟩ := tokens_of_tree h
  obtain ⟨p, hp, hpdegree, hpoly⟩ :=
    evaluate_of_strays_eq_nil (Node.strays_eq_nil rfl hunresolved) hdegree
  refine ⟨p, ?_, hpdegree, hpoly⟩
  rw [expanded, resolved, h]
  exact congrArg Except.ok ((Node.evaluate_resolve _).trans hp)

theorem expanded_of_tree {s : Source} {n : Node} (hsize : s.text.utf8ByteSize < 2 ^ 48)
    (h : s.tree = .ok n) :
    ∃ p, s.expanded = .ok (.ok p) ∧ p.toPolynomial = n.denote := by
  obtain ⟨p, hp, -, hpoly⟩ := expanded_of_degree_lt h (formalDegree_lt hsize h)
  exact ⟨p, hp, hpoly⟩

theorem views_of_error {s : Source} {m : Malformed} (h : s.tree = .error m) :
    s.resolved = .error m ∧ s.expanded = .error m := by
  have hresolved : s.resolved = .error m := by rw [resolved, h]; rfl
  exact ⟨hresolved, by rw [expanded, hresolved]; rfl⟩

/-- **All views of a text agree on whether it is well formed.** The tree is what
one call for the whole text reads. The scan for parentheses and faults decides
whether there is a tree, and the tree writes the tokens of the text. The resolved
tree and the polynomial exist exactly when the tree does, and are refused with its
report when it is. -/
theorem views_agree (s : Source) :
    s.tree = (within none (Cursor.start s.text.toList)).map (fun w => .group w.nodes) ∧
    (match verdict [] s.items with
      | .fault m => s.tree = .error m
      | .unmatched byte => s.tree = .error ⟨.unmatchedClose, ⟨byte, 1⟩⟩
      | .unclosed byte => s.tree = .error ⟨.unclosedOpen, ⟨byte, 1⟩⟩
      | .balanced => ∃ cs, s.tree = .ok (.group cs) ∧ (Node.group cs).Unresolved ∧
          s.items.map Item.token = (Node.tokensAll cs).map .ok) ∧
    (s.text.utf8ByteSize < 2 ^ 48 →
      (∀ m, s.tree = .error m → s.resolved = .error m ∧ s.expanded = .error m) ∧
      ∀ n, s.tree = .ok n → ∃ r p, s.resolved = .ok r ∧ s.expanded = .ok (.ok p)) := by
  refine ⟨s.tree_eq_within, ?_, fun hsize => ⟨fun m h => views_of_error h, fun n h => ?_⟩⟩
  · have hofItems := Node.ofItems_eq s.items
    cases hverdict : verdict [] s.items <;> rw [hverdict] at hofItems <;> exact hofItems
  · obtain ⟨p, hp, -⟩ := expanded_of_tree hsize h
    exact ⟨n.resolve, p, by rw [resolved, h]; rfl, hp⟩

/-- The last `(` is to blame, and every view says so. -/
theorem views_agree_unclosed :
    let s : Source := ⟨"2*(x + (1", none⟩
    s.tree = .error ⟨.unclosedOpen, ⟨7, 1⟩⟩ ∧ s.resolved = .error ⟨.unclosedOpen, ⟨7, 1⟩⟩ ∧
      s.expanded = .error ⟨.unclosedOpen, ⟨7, 1⟩⟩ := by
  intro s
  obtain ⟨-, htree, hviews⟩ := views_agree s
  have hverdict : verdict [] s.items = .unclosed 7 := by decide +kernel
  rw [hverdict] at htree
  exact ⟨htree, (hviews (by decide)).1 _ htree⟩

end Source

end PolyExpand
