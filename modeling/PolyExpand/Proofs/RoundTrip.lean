import PolyExpand.Proofs.Literals
import PolyExpand.Proofs.Precedence
import PolyExpand.Proofs.PrintedTerms

/-!
# Round trip — a printed polynomial is read back

A printed polynomial is an expression: each term is a summand with the number
and the power beside each other, and its sign in front of it (`printed`). Reading
the text from its front to its end finds exactly the children of that expression
(`read_text`). What it denotes is the sum of the terms, and its degree is the
first exponent, so that also the length of what is stored is known.

> `Source.expanded_text`: the text of a polynomial is expanded to the polynomial
> without its trailing zeros, unless its highest power is beyond the limit. Then
> the exponent of the first term is refused.

The printer knows no limit, so the second case does occur.
-/

namespace PolyExpand

open Polynomial Text

namespace Term

/-- The sign of a term behind another one. -/
def sign (t : Term) : Sign := if t.coefficient < 0 then .minus else .plus

/-- The signs of a term at the front. -/
def leadingSigns (t : Term) : List Sign := if t.coefficient < 0 then [.minus] else []

/-- The summand that a term is printed as, with given signs. -/
def summand (t : Term) (signs : List Sign) : Summand Node :=
  if t.exponent = 0 then ⟨signs, .number |t.coefficient|, []⟩
  else if t.coefficient = 1 ∨ t.coefficient = -1 then ⟨signs, .power t.exponent, []⟩
  else ⟨signs, .number |t.coefficient|, [(.beside, .power t.exponent)]⟩

/-- The nodes that a term is read as, with given signs. -/
def nodes (t : Term) (signs : List Sign) : List Node := (t.summand signs).pieces.map Piece.node

theorem nodes_eq_append (t : Term) (signs : List Sign) :
    t.nodes signs = signs.map (fun s => Node.marker s.marker) ++ t.nodes [] := by
  have hpieces : (t.summand signs).pieces = Sign.pieces signs ++ (t.summand []).pieces := by
    unfold summand
    split
    next => rfl
    next => split <;> rfl
  rw [nodes, hpieces, List.map_append, nodes, Sign.pieces, List.map_map]
  rfl

/-- The factors of a printed term are numbers and powers. -/
theorem not_isMarker_of_mem_operands {t : Term} {signs : List Sign} {n : Node}
    (h : n ∈ (t.summand signs).operands) : n.isMarker = false := by
  unfold summand at h
  split at h
  next =>
    obtain rfl : n = _ := List.mem_singleton.mp h
    rfl
  next =>
    split at h
    next =>
      obtain rfl : n = _ := List.mem_singleton.mp h
      rfl
    next =>
      rcases List.mem_cons.mp h with rfl | hmem
      · rfl
      · obtain rfl : n = _ := List.mem_singleton.mp hmem
        rfl

/-! ## What a printed term stands for -/

theorem value_summand (t : Term) (signs : List Sign) :
    ((t.summand signs).map Node.denote).value =
      (-1) ^ signs.count .minus * (C |t.coefficient| * X ^ t.exponent) := by
  have hnumber : ∀ q : ℚ, (Node.number q).denote = C q := fun q => rfl
  have hpower : ∀ e : ℕ, (Node.power e).denote = X ^ e := fun e => rfl
  unfold summand
  by_cases hexponent : t.exponent = 0
  · rw [if_pos hexponent, hexponent, pow_zero, mul_one]
    simp [Summand.value, Summand.map, hnumber]
  · rw [if_neg hexponent]
    by_cases hunit : t.coefficient = 1 ∨ t.coefficient = -1
    · have habs : |t.coefficient| = 1 := by rcases hunit with h | h <;> simp [h]
      rw [if_pos hunit, habs, C_1, one_mul]
      simp [Summand.value, Summand.map, hpower]
    · rw [if_neg hunit]
      simp [Summand.value, Summand.map, hnumber, hpower, Joint.minuses]

theorem degree_summand (t : Term) (signs : List Sign) :
    (((t.summand signs).map Node.formalDegree).factors 0).sum = t.exponent := by
  have hnumber : ∀ q : ℚ, (Node.number q).formalDegree = 0 := fun q => rfl
  have hpower : ∀ e : ℕ, (Node.power e).formalDegree = e := fun e => rfl
  unfold summand
  by_cases hexponent : t.exponent = 0
  · rw [if_pos hexponent, hexponent]
    simp [Summand.factors, Summand.map, hnumber]
  · rw [if_neg hexponent]
    by_cases hunit : t.coefficient = 1 ∨ t.coefficient = -1
    · rw [if_pos hunit]
      simp [Summand.factors, Summand.map, hpower]
    · rw [if_neg hunit]
      simp [Summand.factors, Summand.map, hnumber, hpower, Joint.minuses]

/-- Whatever the signs are, one `-` makes up for a negative coefficient. -/
theorem value_of_count {t : Term} {signs : List Sign}
    (h : signs.count .minus = if t.coefficient < 0 then 1 else 0) :
    ((t.summand signs).map Node.denote).value = t.poly.toPolynomial := by
  rw [value_summand, h, toPolynomial_poly]
  by_cases hneg : t.coefficient < 0
  · rw [if_pos hneg, abs_of_neg hneg, map_neg]
    ring
  · rw [if_neg hneg, abs_of_nonneg (not_lt.mp hneg), pow_zero, one_mul]

theorem count_sign (t : Term) :
    [t.sign].count .minus = if t.coefficient < 0 then 1 else 0 := by
  unfold sign
  split <;> rfl

theorem count_leadingSigns (t : Term) :
    t.leadingSigns.count .minus = if t.coefficient < 0 then 1 else 0 := by
  unfold leadingSigns
  split <;> rfl

/-! ## Reading a printed term -/

theorem exists_power_eq (e : Nat) : ∃ more, Numeral.power e = 'x' :: more := by
  unfold Numeral.power
  split
  next => exact ⟨[], rfl⟩
  next => exact ⟨_, rfl⟩

/-- The number in front of a power ends where the power starts. -/
theorem stop_of_power (e : Nat) (rest : List Char) :
    ∀ c ∈ (Numeral.power e ++ rest).head?, c.isDigit = false ∧ c ≠ '/' := by
  obtain ⟨more, hmore⟩ := exists_power_eq e
  intro c hc
  rw [hmore] at hc
  obtain rfl : 'x' = c := Option.some.inj hc
  decide

theorem nameEnd_of_blank {rest : List Char} (hrest : ∀ c ∈ rest.head?, c = ' ') :
    ∀ c ∈ rest.head?, isNameChar c = false ∧ c ≠ '^' := by
  intro c hc
  rw [hrest c hc]
  decide

theorem stop_of_blank {rest : List Char} (hrest : ∀ c ∈ rest.head?, c = ' ') :
    ∀ c ∈ rest.head?, c.isDigit = false ∧ c ≠ '/' := by
  intro c hc
  rw [hrest c hc]
  decide

theorem read_unsigned {t : Term} (he : t.exponent ≤ maxExponent) {rest : List Char}
    (hrest : ∀ c ∈ rest.head?, c = ' ') (s : Nesting) (b : Nat) :
    s.read ⟨b, t.unsigned ++ rest⟩ =
      ((t.nodes []).foldl Nesting.push s).read ⟨b + byteSize t.unsigned, rest⟩ := by
  unfold unsigned nodes summand
  by_cases hexponent : t.exponent = 0
  · rw [if_pos hexponent, if_pos hexponent]
    exact Nesting.read_leaf (Lexeme.found_magnitude _ (stop_of_blank hrest)) rfl s b
  · rw [if_neg hexponent, if_neg hexponent]
    by_cases hunit : t.coefficient = 1 ∨ t.coefficient = -1
    · rw [if_pos hunit, if_pos hunit]
      exact Nesting.read_leaf (Lexeme.found_power he (nameEnd_of_blank hrest)) rfl s b
    · rw [if_neg hunit, if_neg hunit, List.append_assoc, byteSize_append, ← Nat.add_assoc]
      rw [Nesting.read_leaf (Lexeme.found_magnitude _ (stop_of_power t.exponent rest)) rfl,
        Nesting.read_leaf (Lexeme.found_power he (nameEnd_of_blank hrest)) rfl]
      rfl

theorem byteSize_sign (sign : Sign) (cs : List Char) :
    byteSize (sign.marker.char :: ' ' :: cs) = 2 + byteSize cs := by
  have hsign : sign.marker.char.utf8Size = 1 := by cases sign <;> rfl
  have hblank : (' ' : Char).utf8Size = 1 := rfl
  rw [byteSize_cons, byteSize_cons, hsign, hblank]
  omega

theorem read_sign (sign : Sign) (rest : List Char) (s : Nesting) (b : Nat) :
    s.read ⟨b, sign.marker.char :: ' ' :: rest⟩ =
      (s.push (.marker sign.marker)).read ⟨b + 2, rest⟩ := by
  have hfound := Lexeme.found_marker sign.marker (' ' :: rest)
  have hsize : sign.marker.char.utf8Size = 1 := by cases sign <;> rfl
  refine (Nesting.read_leaf hfound rfl s b).trans ?_
  rw [Nesting.read_blank, byteSize_cons, byteSize_nil, hsize]

/-- A sign, a blank and a term. -/
theorem read_signed {t : Term} (he : t.exponent ≤ maxExponent) (sign : Sign) {rest : List Char}
    (hrest : ∀ c ∈ rest.head?, c = ' ') (s : Nesting) (b : Nat) :
    s.read ⟨b, sign.marker.char :: ' ' :: (t.unsigned ++ rest)⟩ =
      ((t.nodes [sign]).foldl Nesting.push s).read
        ⟨b + byteSize (sign.marker.char :: ' ' :: t.unsigned), rest⟩ := by
  rw [nodes_eq_append t [sign], List.map_singleton, List.singleton_append, List.foldl_cons,
    read_sign, read_unsigned he hrest, byteSize_sign, Nat.add_assoc]

theorem followingText_append (t : Term) (rest : List Char) :
    t.followingText ++ rest =
      ' ' :: t.sign.marker.char :: ' ' :: (t.unsigned ++ rest) := by
  unfold followingText sign
  by_cases h : t.coefficient < 0
  · rw [if_pos h, if_pos h]
    rfl
  · rw [if_neg h, if_neg h]
    rfl

theorem head?_following (ts : List Term) : ∀ c ∈ (ts.flatMap followingText).head?, c = ' ' := by
  intro c hc
  cases ts with
  | nil => simp at hc
  | cons t ts =>
    rw [List.flatMap_cons, followingText_append] at hc
    exact (Option.some.inj hc).symm

theorem read_leading {t : Term} (he : t.exponent ≤ maxExponent) {rest : List Char}
    (hrest : ∀ c ∈ rest.head?, c = ' ') (s : Nesting) (b : Nat) :
    s.read ⟨b, t.leadingText ++ rest⟩ =
      ((t.nodes t.leadingSigns).foldl Nesting.push s).read
        ⟨b + byteSize t.leadingText, rest⟩ := by
  unfold leadingText leadingSigns
  by_cases h : t.coefficient < 0
  · rw [if_pos h, if_pos h]
    exact read_signed he .minus hrest s b
  · rw [if_neg h, if_neg h]
    exact read_unsigned he hrest s b

theorem read_following (ts : List Term) (hts : ∀ t ∈ ts, t.exponent ≤ maxExponent) (s : Nesting)
    (b : Nat) :
    s.read ⟨b, ts.flatMap followingText⟩ =
      ((ts.flatMap fun t => t.nodes [t.sign]).foldl Nesting.push s).finish := by
  induction ts generalizing s b with
  | nil => exact Nesting.read_end s b
  | cons t ts ih =>
    obtain ⟨ht, hrest⟩ := List.forall_mem_cons.mp hts
    rw [List.flatMap_cons, followingText_append, Nesting.read_blank,
      read_signed ht t.sign (head?_following ts), ih hrest, List.flatMap_cons, List.foldl_append]

/-- The report on a power beyond the limit, whose exponent starts at a byte. -/
def excess (e byte : Nat) : Malformed :=
  ⟨.invalidNumber (.exponentTooLarge e), ⟨byte, byteSize (Numeral.digits e)⟩⟩

theorem read_excess_unsigned {t : Term} (he : maxExponent < t.exponent)
    (hword : t.exponent ≤ maxWord) {rest : List Char} (hrest : ∀ c ∈ rest.head?, c = ' ') :
    ∃ before, t.unsigned = before ++ Numeral.digits t.exponent ∧ ∀ (s : Nesting) (b : Nat),
      s.read ⟨b, t.unsigned ++ rest⟩ = .error (excess t.exponent (b + byteSize before)) := by
  have hlimit : 1 < maxExponent := by decide
  have hpower : Numeral.power t.exponent = ['x', '^'] ++ Numeral.digits t.exponent := by
    rw [Numeral.power, if_neg (by omega)]
    rfl
  have hread : ∀ (s : Nesting) (b : Nat),
      s.read ⟨b, Numeral.power t.exponent ++ rest⟩ = .error (excess t.exponent (b + 2)) := by
    intro s b
    rw [hpower]
    exact Nesting.read_fault (Lexeme.found_excess he hword hrest) s b
  unfold unsigned
  rw [if_neg (by omega)]
  by_cases hunit : t.coefficient = 1 ∨ t.coefficient = -1
  · rw [if_pos hunit]
    exact ⟨['x', '^'], hpower, hread⟩
  · -- A number is read first, and the power behind it is refused all the same.
    rw [if_neg hunit]
    refine ⟨Numeral.magnitude t.coefficient ++ ['x', '^'], ?_, fun s b => ?_⟩
    · rw [hpower, List.append_assoc]
    · rw [List.append_assoc, Nesting.read_leaf
        (Lexeme.found_magnitude _ (stop_of_power t.exponent rest)) rfl, hread,
        byteSize_append, ← Nat.add_assoc]
      rfl

/-- **A power beyond the limit** is refused, with the digits of its exponent as
the culprit. -/
theorem read_excess {t : Term} (he : maxExponent < t.exponent) (hword : t.exponent ≤ maxWord)
    {rest : List Char} (hrest : ∀ c ∈ rest.head?, c = ' ') :
    ∃ before, t.leadingText = before ++ Numeral.digits t.exponent ∧ ∀ (s : Nesting) (b : Nat),
      s.read ⟨b, t.leadingText ++ rest⟩ = .error (excess t.exponent (b + byteSize before)) := by
  obtain ⟨before, htext, hread⟩ := read_excess_unsigned he hword hrest
  unfold leadingText
  by_cases h : t.coefficient < 0
  · rw [if_pos h]
    refine ⟨'-' :: ' ' :: before, by rw [htext]; rfl, fun s b => ?_⟩
    have hsign := read_sign .minus (t.unsigned ++ rest) s b
    have hsize := byteSize_sign .minus before
    refine hsign.trans ?_
    rw [hread, Nat.add_assoc, ← hsize]
    rfl
  · rw [if_neg h]
    exact ⟨before, htext, hread⟩

end Term

/-! ## Printed polynomials -/

theorem Nesting.foldl_push (ns : List Node) (s : Nesting) :
    ns.foldl Nesting.push s = ⟨ns.reverse ++ s.done, s.frames⟩ := by
  induction ns generalizing s with
  | nil => rfl
  | cons n ns ih => rw [List.foldl_cons, ih, List.reverse_cons, List.append_assoc]; rfl

/-- The expression that a polynomial is printed as, given its terms. -/
def printed (t : Term) (ts : List Term) : Expression Node :=
  ⟨t.summand t.leadingSigns, ts.map fun u => (u.sign, u.summand [])⟩

theorem summands_printed (t : Term) (ts : List Term) :
    (printed t ts).summands = t.summand t.leadingSigns :: ts.map fun u => u.summand [u.sign] := by
  have hsigned : ∀ u : Term,
      { u.summand [] with signs := u.sign :: (u.summand []).signs } = u.summand [u.sign] := by
    intro u
    unfold Term.summand
    split
    next => rfl
    next => split <;> rfl
  rw [Expression.summands, printed, List.map_map]
  exact congrArg (List.cons _) (List.map_congr_left fun u _ => hsigned u)

theorem nodes_printed (t : Term) (ts : List Term) :
    (printed t ts).nodes = t.nodes t.leadingSigns ++ ts.flatMap fun u => u.nodes [u.sign] := by
  rw [Expression.nodes, Expression.pieces, summands_printed, List.flatMap_cons, List.map_append,
    List.flatMap_map, List.map_flatMap]
  rfl

theorem not_isMarker_of_mem_printed {t : Term} {ts : List Term} :
    ∀ n ∈ (printed t ts).operands, n.isMarker = false := by
  intro n hn
  rw [Expression.operands, summands_printed] at hn
  obtain ⟨x, hx, hmem⟩ := List.mem_flatMap.mp hn
  rcases List.mem_cons.mp hx with rfl | hx
  · exact Term.not_isMarker_of_mem_operands hmem
  · obtain ⟨u, -, rfl⟩ := List.mem_map.mp hx
    exact Term.not_isMarker_of_mem_operands hmem

theorem denote_printed (t : Term) (ts : List Term) :
    (Node.group (printed t ts).nodes).denote =
      ((t :: ts).map fun u => u.poly.toPolynomial).sum := by
  have hrest : ∀ u ∈ ts, ((u.summand [u.sign]).map Node.denote).value = u.poly.toPolynomial :=
    fun u _ => Term.value_of_count u.count_sign
  rw [Expression.denote_nodes not_isMarker_of_mem_printed, Expression.value,
    Expression.summands_map, summands_printed, List.map_cons, List.map_cons, List.map_map,
    List.map_map, Term.value_of_count t.count_leadingSigns, List.map_cons]
  exact congrArg (fun xs => (t.poly.toPolynomial :: xs).sum) (List.map_congr_left hrest)

/-- The first term gives the degree. -/
theorem degree_printed {t : Term} {ts : List Term} (h : ∀ u ∈ ts, u.exponent ≤ t.exponent) :
    (Node.group (printed t ts).nodes).formalDegree = t.exponent := by
  have hmarkers : ∀ n ∈ (printed t ts).operands, n.isMarker = false :=
    not_isMarker_of_mem_printed
  have hnodes := Expression.of_nodes Interpretation.degree (fun _ => List.sum_singleton)
    (fun _ => max_eq_left (Nat.zero_le _)) hmarkers
  have hmax : ∀ us : List Term, (∀ u ∈ us, u.exponent ≤ t.exponent) →
      (us.map Term.exponent).foldr max 0 ≤ t.exponent := by
    intro us hus
    induction us with
    | nil => exact Nat.zero_le _
    | cons u us ih =>
      obtain ⟨hu, hrest⟩ := List.forall_mem_cons.mp hus
      exact max_le hu (ih hrest)
  have hdegrees : ((printed t ts).map Node.formalDegree).summands.map (fun x => (x.factors 0).sum) =
      t.exponent :: ts.map Term.exponent := by
    rw [Expression.summands_map, summands_printed, List.map_cons, List.map_cons,
      Term.degree_summand, List.map_map, List.map_map]
    exact congrArg (List.cons _) (List.map_congr_left fun u _ => u.degree_summand _)
  calc (Node.group (printed t ts).nodes).formalDegree
      = (t.exponent :: ts.map Term.exponent).foldr max 0 := by
        rw [← hdegrees]
        exact hnodes
    _ = t.exponent := max_eq_left (hmax ts h)

namespace DensePoly

theorem text_eq_append {p : DensePoly} {t : Term} {ts : List Term} (h : p.terms = t :: ts) :
    p.text = t.leadingText ++ ts.flatMap Term.followingText := by
  rw [text, h]

/-- **Reading a printed polynomial** finds the children of the expression. -/
theorem read_text {p : DensePoly} {t : Term} {ts : List Term} (h : p.terms = t :: ts)
    (hlimit : ∀ u ∈ t :: ts, u.exponent ≤ maxExponent) :
    Nesting.empty.read (Cursor.start p.text) = .ok (printed t ts).nodes := by
  obtain ⟨ht, hts⟩ := List.forall_mem_cons.mp hlimit
  rw [text_eq_append h, Cursor.start, Term.read_leading ht (Term.head?_following ts),
    Term.read_following ts hts, ← List.foldl_append, ← nodes_printed, Nesting.foldl_push]
  simp [Nesting.finish, Nesting.empty]

end DensePoly

theorem NumberFault.reason_exponentTooLarge (e : Nat) :
    NumberFault.reason (.exponentTooLarge e) =
      "exponent " ++ toString e ++ " exceeds the maximum of 65535" := by
  have hlimit : " exceeds the maximum of " ++ toString maxExponent =
      " exceeds the maximum of 65535" := by decide
  rw [NumberFault.reason, String.append_assoc, hlimit]

namespace Source

/-- The text of a polynomial, as a source. -/
theorem tree_of_text (p : DensePoly) (name? : Option String) :
    (⟨toString p, name?⟩ : Source).tree =
      (Nesting.empty.read (Cursor.start p.text)).map Node.group := by
  have hchars : (toString p).toList = p.text := String.toList_ofList
  rw [tree_eq_read, hchars]

/-- Stored as the significant coefficients, or as one zero. -/
theorem coeffs_eq_significant {p q : DensePoly} {t : Term} {ts : List Term}
    (h : p.terms = t :: ts) (hdegree : q.degree = t.exponent)
    (hpoly : q.toPolynomial = p.toPolynomial) : q.coeffs = p.significant := by
  refine DensePoly.eq_of_getD_eq ?_ fun i => ?_
  · rw [DensePoly.length_significant h, ← hdegree]
    exact q.size_eq_degree_add_one
  · rw [DensePoly.getD_significant, ← DensePoly.coeff_toPolynomial p, ← hpoly,
      DensePoly.coeff_toPolynomial]
    rfl

theorem expanded_of_terms_nil {p : DensePoly} (h : p.terms = []) (name? : Option String) :
    (⟨toString p, name?⟩ : Source).expanded = .ok (.ok .zero) := by
  have htext : p.text = [] := by rw [DensePoly.text, h]
  have hgroup : (⟨toString p, name?⟩ : Source).tree = .ok (.group []) := by
    rw [tree_of_text, htext, Cursor.start, Nesting.read_end]
    rfl
  obtain ⟨q, hq, hdegree, hpoly⟩ := expanded_of_degree_lt hgroup (by decide)
  have hzero : q = .zero :=
    DensePoly.eq_of_toPolynomial_eq hdegree (hpoly.trans DensePoly.toPolynomial_zero.symm)
  rw [hq, hzero]

theorem expanded_of_terms_cons {p : DensePoly} {t : Term} {ts : List Term} (h : p.terms = t :: ts)
    (hlimit : t.exponent ≤ maxExponent) (name? : Option String) :
    ∃ q, (⟨toString p, name?⟩ : Source).expanded = .ok (.ok q) ∧
      q.toPolynomial = p.toPolynomial ∧ q.coeffs = p.significant := by
  have hts : ∀ u ∈ ts, u.exponent ≤ t.exponent := by
    have hpairwise := p.pairwise_terms
    rw [h] at hpairwise
    exact fun u hu => le_of_lt ((List.pairwise_cons.mp hpairwise).1 u hu)
  have hread := DensePoly.read_text h
    (List.forall_mem_cons.mpr ⟨hlimit, fun u hu => le_trans (hts u hu) hlimit⟩)
  have hgroup : (⟨toString p, name?⟩ : Source).tree = .ok (.group (printed t ts).nodes) := by
    rw [tree_of_text, hread]
    rfl
  have hdegree := degree_printed hts
  have hstored : (Node.group (printed t ts).nodes).formalDegree < maxWord := by
    have hlimits : maxExponent < maxWord := by decide
    omega
  obtain ⟨q, hq, hqdegree, hqpoly⟩ := expanded_of_degree_lt hgroup hstored
  have hpoly : q.toPolynomial = p.toPolynomial := by
    rw [hqpoly, denote_printed, ← h, DensePoly.sum_terms]
  exact ⟨q, hq, hpoly, coeffs_eq_significant h (hqdegree.trans hdegree) hpoly⟩

theorem expanded_of_excess {p : DensePoly} {t : Term} {ts : List Term} (h : p.terms = t :: ts)
    (hlarge : maxExponent < t.exponent) (hword : t.exponent ≤ maxWord) (name? : Option String) :
    ∃ before, t.leadingText = before ++ Numeral.digits t.exponent ∧
      (⟨toString p, name?⟩ : Source).expanded =
        .error (Term.excess t.exponent (byteSize before)) := by
  obtain ⟨before, hbefore, hread⟩ := Term.read_excess hlarge hword (Term.head?_following ts)
  refine ⟨before, hbefore, (views_of_error ?_).2⟩
  rw [tree_of_text, DensePoly.text_eq_append h, Cursor.start, hread, Nat.zero_add]
  rfl

/-- **Printing and reading.** If the powers of a polynomial are within the limit,
its text is expanded to the same polynomial without trailing zeros, which has the
same text again. Otherwise the text is malformed: the exponent of its first term,
which is the highest power, is refused for its size. -/
theorem expanded_text (p : DensePoly) (name? : Option String)
    (hword : ∀ i, p.coeff i ≠ 0 → i < 2 ^ 64) :
    let s : Source := ⟨toString p, name?⟩
    ((∀ i, p.coeff i ≠ 0 → i ≤ maxExponent) →
      ∃ q, s.expanded = .ok (.ok q) ∧ (q == p) = true ∧
        q.coeffs = (if p.significant = [] then [0] else p.significant) ∧
        toString q = toString p) ∧
    (¬ (∀ i, p.coeff i ≠ 0 → i ≤ maxExponent) →
      ∃ t ts before, p.terms = t :: ts ∧ t.leadingText = before ++ Numeral.digits t.exponent ∧
        p.text = t.leadingText ++ ts.flatMap Term.followingText ∧
        p.coeff t.exponent ≠ 0 ∧ (∀ i, p.coeff i ≠ 0 → i ≤ t.exponent) ∧
        s.expanded = .error ⟨.invalidNumber (.exponentTooLarge t.exponent),
          ⟨byteSize before, byteSize (Numeral.digits t.exponent)⟩⟩ ∧
        NumberFault.reason (.exponentTooLarge t.exponent) =
          "exponent " ++ toString t.exponent ++ " exceeds the maximum of 65535") := by
  intro s
  -- What is equal has the same text.
  have hsame : ∀ {q : DensePoly}, (q == p) = true → toString q = toString p := fun h =>
    congrArg String.ofList (DensePoly.text_congr (DensePoly.beq_iff.mp h))
  cases hterms : p.terms with
  | nil =>
    have hbeq : (DensePoly.zero == p) = true := by
      rw [DensePoly.beq_iff_toPolynomial_eq, ← p.sum_terms, hterms]
      exact DensePoly.toPolynomial_zero
    refine ⟨fun _ => ⟨.zero, expanded_of_terms_nil hterms name?, hbeq, ?_, hsame hbeq⟩, ?_⟩
    · rw [if_pos (DensePoly.significant_eq_nil hterms)]
      rfl
    · intro hexcess
      exact absurd (fun i hi => absurd (DensePoly.terms_eq_nil_iff.mp hterms i) hi) hexcess
  | cons t ts =>
    have hlead := DensePoly.coeff_of_terms_cons hterms
    have hmax : ∀ i, p.coeff i ≠ 0 → i ≤ t.exponent :=
      fun i hi => DensePoly.exponent_le_of_terms_cons hterms hi
    refine ⟨fun hlimit => ?_, fun hexcess => ?_⟩
    · obtain ⟨q, hq, hpoly, hcoeffs⟩ := expanded_of_terms_cons hterms (hlimit _ hlead) name?
      have hbeq := DensePoly.beq_iff_toPolynomial_eq.mpr hpoly
      refine ⟨q, hq, hbeq, ?_, hsame hbeq⟩
      rw [if_neg fun hnil => q.coeffs_ne_nil (hcoeffs.trans hnil), hcoeffs]
    · have hlarge : maxExponent < t.exponent := by
        by_contra hsmall
        exact hexcess fun i hi => le_trans (hmax i hi) (not_lt.mp hsmall)
      have hfits : t.exponent ≤ maxWord := by
        have hlt := hword _ hlead
        have hmaxWord : maxWord = 2 ^ 64 - 1 := rfl
        omega
      obtain ⟨before, hbefore, hexpanded⟩ := expanded_of_excess hterms hlarge hfits name?
      exact ⟨t, ts, before, rfl, hbefore, DensePoly.text_eq_append hterms, hlead, hmax, hexpanded,
        NumberFault.reason_exponentTooLarge _⟩

/-- A trailing zero is lost on the way, and nothing else. -/
theorem expanded_text_trailing_zero :
    let p : DensePoly := ⟨[3, -1, 1 / 2, 0], by simp⟩
    ∃ q, (⟨toString p, none⟩ : Source).expanded = .ok (.ok q) ∧ q.coeffs = [3, -1, 1 / 2] ∧
      toString q = toString p := by
  intro p
  have hsize : ∀ i, p.coeff i ≠ 0 → i < 4 := fun i hi => DensePoly.lt_size_of_coeff_ne_zero hi
  have hword : ∀ i, p.coeff i ≠ 0 → i < 2 ^ 64 := fun i hi => lt_trans (hsize i hi) (by decide)
  have hlimit : ∀ i, p.coeff i ≠ 0 → i ≤ maxExponent :=
    fun i hi => le_trans (le_of_lt (hsize i hi)) (by decide)
  obtain ⟨q, hq, -, hcoeffs, htext⟩ := (expanded_text p none hword).1 hlimit
  have hsignificant : p.significant = [3, -1, 1 / 2] := by decide +kernel
  rw [hsignificant] at hcoeffs
  exact ⟨q, hq, hcoeffs, htext⟩

end Source

end PolyExpand
