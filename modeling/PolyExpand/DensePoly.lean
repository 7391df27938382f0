/-!
# Dense polynomials — exact coefficients, constant term first

A polynomial in one indeterminate is stored as the list of its coefficients,
constant term first and at least one of them. The length of the list is
something to be seen: `degree` is the stored length less one, and operations
are exact about it. A sum is as long as its longer operand, a product of `m`
and `n` coefficients has `m + n - 1`, and nothing is ever shortened, so that
`x - x` has degree one although it is zero.

As polynomials, two lists that differ in trailing zeros are the same. The
view that forgets the length is `coeff`, which is zero beyond the list, and
`==` compares by it; `significant`, the list without its trailing zeros, is
the one list that all equal polynomials share.

A product is the sum of multiples of its second operand, one for each
coefficient of the first, with as many zeros in front as the power of that
coefficient. They are not computed one by one and added up here. The product
is built from the highest coefficient to the lowest: what there is of it is
shifted by one place, and a multiple of the second operand is added
(`mulCoeffs`). A coefficient of zero costs the shift only, which is what
makes high powers cheap. That the same is stored as by adding up the
multiples, and the same products are refused, is `mul?_eq_foldlM` in
`PolyExpand.Proofs.ShiftedMultiples`.
-/

namespace PolyExpand

/-- A polynomial, stored as its coefficients from the constant term on. -/
structure DensePoly where
  /-- The coefficient of the power `i` stands at position `i`. -/
  coeffs : List Rat
  coeffs_ne_nil : coeffs ≠ []
deriving DecidableEq

namespace DensePoly

/-! ## Coefficients and lengths -/

/-- The coefficient of a power, zero beyond the stored ones. -/
def coeff (p : DensePoly) (i : Nat) : Rat := p.coeffs.getD i 0

/-- The number of stored coefficients. -/
def size (p : DensePoly) : Nat := p.coeffs.length

/-- The number of stored coefficients less one, trailing zeros counted. -/
def degree (p : DensePoly) : Nat := p.size - 1

theorem size_pos (p : DensePoly) : 0 < p.size :=
  List.length_pos_iff.mpr p.coeffs_ne_nil

/-- There is always a stored coefficient, so `degree` is a true difference. -/
theorem size_eq_degree_add_one (p : DensePoly) : p.size = p.degree + 1 := by
  have := p.size_pos
  unfold degree
  omega

/-- Lists of one length with the same coefficients are the same. -/
theorem eq_of_getD_eq {as bs : List Rat} (hlength : as.length = bs.length)
    (h : ∀ i, as.getD i 0 = bs.getD i 0) : as = bs := by
  refine List.ext_getElem hlength fun i hi hj => ?_
  have hi' := h i
  rw [List.getD_eq_getElem?_getD, List.getD_eq_getElem?_getD, List.getElem?_eq_getElem hi,
    List.getElem?_eq_getElem hj] at hi'
  exact hi'

/-- Polynomials of one size with the same coefficients are the same. -/
theorem ext_coeff {p q : DensePoly} (hsize : p.size = q.size)
    (hcoeff : ∀ i, p.coeff i = q.coeff i) : p = q := by
  obtain ⟨as, ha⟩ := p
  obtain ⟨bs, hb⟩ := q
  obtain rfl : as = bs := eq_of_getD_eq hsize hcoeff
  rfl

/-- The polynomial with given coefficients; none at all are read as zero. -/
def ofList : List Rat → DensePoly
  | [] => ⟨[0], by simp⟩
  | c :: cs => ⟨c :: cs, by simp⟩

/-- The polynomial with given integer coefficients. -/
def ofInts (cs : List Int) : DensePoly := ofList (cs.map fun c : Int => (c : Rat))

/-- A polynomial without the indeterminate. -/
def constant (c : Rat) : DensePoly := ofList [c]

/-- The zero polynomial, with one coefficient. -/
def zero : DensePoly := constant 0

/-- The polynomial one. -/
def one : DensePoly := constant 1

@[simp] theorem degree_constant (c : Rat) : (constant c).degree = 0 := rfl

@[simp] theorem degree_zero : zero.degree = 0 := rfl

@[simp] theorem degree_one : one.degree = 0 := rfl

@[simp] theorem coeffs_ofList_cons (c : Rat) (cs : List Rat) :
    (ofList (c :: cs)).coeffs = c :: cs := rfl

/-- Given coefficients are stored as they are, if there are any. -/
theorem coeffs_ofList {cs : List Rat} (h : cs ≠ []) : (ofList cs).coeffs = cs := by
  cases cs with
  | nil => exact absurd rfl h
  | cons c cs => rfl

theorem coeff_ofList (cs : List Rat) (i : Nat) : (ofList cs).coeff i = cs.getD i 0 := by
  cases cs with
  | nil => cases i <;> rfl
  | cons c cs => rfl

/-! ## Sums -/

/-- Coefficients with zeros behind them, up to a length of `n`. -/
def padTo (n : Nat) (cs : List Rat) : List Rat := cs ++ List.replicate (n - cs.length) 0

/-- Adds coefficients position by position; the shorter list counts as if
zeros followed it. -/
def addCoeffs (as bs : List Rat) : List Rat :=
  let n := max as.length bs.length
  List.zipWith (· + ·) (padTo n as) (padTo n bs)

@[simp] theorem length_padTo (n : Nat) (cs : List Rat) :
    (padTo n cs).length = max n cs.length := by
  simp only [padTo, List.length_append, List.length_replicate]
  omega

/-- Padding does not show through `coeff`. -/
@[simp] theorem getD_padTo (n : Nat) (cs : List Rat) (i : Nat) :
    (padTo n cs).getD i 0 = cs.getD i 0 := by
  simp only [padTo, List.getD_eq_getElem?_getD, List.getElem?_append]
  split
  next => rfl
  next h =>
    rw [List.getElem?_eq_none (l := cs) (by omega), List.getElem?_replicate]
    split <;> rfl

@[simp] theorem length_addCoeffs (as bs : List Rat) :
    (addCoeffs as bs).length = max as.length bs.length := by
  simp only [addCoeffs, List.length_zipWith, length_padTo]
  omega

@[simp] theorem getD_addCoeffs (as bs : List Rat) (i : Nat) :
    (addCoeffs as bs).getD i 0 = as.getD i 0 + bs.getD i 0 := by
  have ha := getD_padTo (max as.length bs.length) as i
  have hb := getD_padTo (max as.length bs.length) bs i
  rw [← ha, ← hb]
  simp only [addCoeffs, List.getD_eq_getElem?_getD, List.getElem?_zipWith]
  rcases Nat.lt_or_ge i (max as.length bs.length) with h | h
  · rw [List.getElem?_eq_getElem (by simp; omega), List.getElem?_eq_getElem (by simp; omega)]
    rfl
  · rw [List.getElem?_eq_none (by simp; omega), List.getElem?_eq_none (by simp; omega)]
    exact (Rat.add_zero 0).symm

/-- The sum of two polynomials. -/
def add (p q : DensePoly) : DensePoly := ofList (addCoeffs p.coeffs q.coeffs)

@[simp] theorem coeff_add (p q : DensePoly) (i : Nat) :
    (p.add q).coeff i = p.coeff i + q.coeff i := by
  rw [add, coeff_ofList, getD_addCoeffs]
  rfl

/-- A sum is as long as the longer operand. -/
@[simp] theorem size_add (p q : DensePoly) : (p.add q).size = max p.size q.size := by
  have hp := p.size_pos
  have hlen := length_addCoeffs p.coeffs q.coeffs
  rw [size, add, coeffs_ofList, hlen]
  · rfl
  · intro h
    rw [h] at hlen
    simp only [size, List.length_nil] at hp hlen
    omega

/-- The degree of a sum is the larger one, whatever cancels. -/
@[simp] theorem degree_add (p q : DensePoly) :
    (p.add q).degree = max p.degree q.degree := by
  have hp := p.size_pos
  have hq := q.size_pos
  simp only [degree, size_add]
  omega

/-! ## Multiples -/

/-- The coefficient of a multiple is the multiple of the coefficient, also
beyond the list. -/
theorem getD_map_mul (c : Rat) (cs : List Rat) (i : Nat) :
    (cs.map (c * ·)).getD i 0 = c * cs.getD i 0 := by
  simp only [List.getD_eq_getElem?_getD, List.getElem?_map]
  cases cs[i]? with
  | none => exact (Rat.mul_zero c).symm
  | some a => rfl

/-- Multiplies every coefficient by a number. -/
def scale (c : Rat) (p : DensePoly) : DensePoly :=
  ⟨p.coeffs.map (c * ·), by simp [p.coeffs_ne_nil]⟩

/-- Changes the sign of every coefficient. -/
def negate (p : DensePoly) : DensePoly :=
  ⟨p.coeffs.map (- ·), by simp [p.coeffs_ne_nil]⟩

@[simp] theorem size_scale (c : Rat) (p : DensePoly) : (p.scale c).size = p.size := by
  simp [scale, size]

@[simp] theorem coeff_scale (c : Rat) (p : DensePoly) (i : Nat) :
    (p.scale c).coeff i = c * p.coeff i :=
  getD_map_mul c p.coeffs i

@[simp] theorem size_negate (p : DensePoly) : p.negate.size = p.size := by
  simp [negate, size]

@[simp] theorem coeff_negate (p : DensePoly) (i : Nat) : p.negate.coeff i = - p.coeff i := by
  simp only [negate, coeff, List.getD_eq_getElem?_getD, List.getElem?_map]
  cases p.coeffs[i]? with
  | none => rfl
  | some a => rfl

/-! ## Products -/

/-- Multiplies coefficients, from the highest of the first list down: the
product so far is shifted by one place, and a multiple of the second list is
added to it. -/
def mulCoeffs (as bs : List Rat) : List Rat :=
  as.foldr
    (fun a product =>
      if a = 0 then 0 :: product else addCoeffs (0 :: product) (bs.map (a * ·)))
    (List.replicate (bs.length - 1) 0)

theorem mulCoeffs_nil (bs : List Rat) :
    mulCoeffs [] bs = List.replicate (bs.length - 1) 0 := rfl

theorem mulCoeffs_cons (a : Rat) (as bs : List Rat) :
    mulCoeffs (a :: as) bs =
      if a = 0 then 0 :: mulCoeffs as bs
      else addCoeffs (0 :: mulCoeffs as bs) (bs.map (a * ·)) := rfl

/-- Every coefficient of the first list makes the product one longer. -/
@[simp] theorem length_mulCoeffs : ∀ as bs : List Rat,
    (mulCoeffs as bs).length = as.length + (bs.length - 1)
  | [], bs => by simp [mulCoeffs_nil]
  | a :: as, bs => by
    have := length_mulCoeffs as bs
    rw [mulCoeffs_cons]
    split <;> simp <;> omega

/-- The product of two polynomials. -/
def mul (p q : DensePoly) : DensePoly := ofList (mulCoeffs p.coeffs q.coeffs)

/-- The coefficients of a product are stored as computed. -/
theorem coeffs_mul (p q : DensePoly) : (p.mul q).coeffs = mulCoeffs p.coeffs q.coeffs := by
  have hp := p.size_pos
  have hlen := length_mulCoeffs p.coeffs q.coeffs
  refine coeffs_ofList fun h => ?_
  rw [h] at hlen
  simp only [size, List.length_nil] at hp hlen
  omega

/-- Degrees add up in a product, whatever the coefficients are. -/
@[simp] theorem degree_mul (p q : DensePoly) : (p.mul q).degree = p.degree + q.degree := by
  have hp := p.size_pos
  have hq := q.size_pos
  simp only [degree, size, coeffs_mul, length_mulCoeffs] at hp hq ⊢
  omega

/-! ## Equality as polynomials -/

/-- Whether all coefficients are zero. -/
def isZero (p : DensePoly) : Bool := p.coeffs.all (· == 0)

/-- Equality up to trailing zeros. -/
instance : BEq DensePoly where
  beq p q :=
    let n := max p.size q.size
    padTo n p.coeffs == padTo n q.coeffs

/-- The coefficients without the zeros that stand last. -/
def significant (p : DensePoly) : List Rat :=
  (p.coeffs.reverse.dropWhile (· == 0)).reverse

/-- How many different polynomials there are in a list. -/
def countDistinct (ps : List DensePoly) : Nat :=
  (ps.map significant).eraseDups.length

/-- Polynomials are equal if all their coefficients are. -/
theorem beq_iff {p q : DensePoly} : (p == q) = true ↔ ∀ i, p.coeff i = q.coeff i := by
  show (padTo (max p.size q.size) p.coeffs == padTo (max p.size q.size) q.coeffs) = true ↔ _
  rw [beq_iff_eq]
  constructor
  · intro h i
    rw [coeff, coeff, ← getD_padTo (max p.size q.size) p.coeffs, h, getD_padTo]
  · intro h
    refine eq_of_getD_eq ?_ fun i => ?_
    · simp only [length_padTo, size]
      omega
    · rw [getD_padTo, getD_padTo]
      exact h i

end DensePoly

end PolyExpand
