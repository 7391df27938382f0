import PolyExpand.Source

/-!
# Reading — how much there is in a text

Every item takes up at least one character, so a text has no more items than
bytes (`Source.length_items_le`), and every exponent among them has passed the
check of its size (`Source.exponent_le`). Both hold of a whole text because they
hold of one step (`Cursor.forall_readAll`), and together they bound everything
that can be made of a text.
-/

namespace PolyExpand

open Text

/-- The bytes of a string are the bytes of its characters. -/
theorem Text.byteSize_toList (s : String) : byteSize s.toList = s.utf8ByteSize := by
  have encoded : ∀ cs : List Char, cs.utf8Encode.size = byteSize cs := by
    intro cs
    induction cs with
    | nil => rfl
    | cons c cs ih =>
      rw [List.utf8Encode_cons, ByteArray.size_append, ih, byteSize_cons]
      simp [List.utf8Encode, String.length_utf8EncodeChar]
  rw [← encoded, String.utf8Encode_toList, String.size_toByteArray]

namespace Lexeme

/-- Whatever exponent a lexeme has is a permitted one. -/
def Permitted (x : Lexeme) : Prop :=
  ∀ e literal, x = .token (.power e) literal → e ≤ maxExponent

theorem permitted_whole (digits : List Char) : (whole digits).Permitted := by
  intro e literal h
  simp [whole] at h

theorem permitted_fraction (numerator denominator : List Char) :
    (fraction numerator denominator).Permitted := by
  intro e literal h
  simp only [fraction] at h
  split at h <;> simp at h

theorem permitted_sign (c : Char) : (sign c).Permitted := by
  intro e literal h
  simp only [sign] at h
  repeat' split at h
  all_goals simp at h

theorem permitted_power (name digits : List Char) : (power name digits).Permitted := by
  intro e literal h
  unfold power at h
  split at h
  next => simp at h
  next =>
    split at h
    next => simp at h
    next hfault =>
      obtain ⟨rfl, -⟩ : Numeral.value digits = e ∧ _ := by simpa using h
      exact exponentFault?_eq_none_iff.mp hfault

/-- **What holds of every literal holds of every lexeme**: whatever a step finds has
been made in one of five ways. -/
theorem forall_scan {P : Lexeme → Prop} (whole : ∀ digits, P (whole digits))
    (fraction : ∀ numerator denominator, P (fraction numerator denominator))
    (power : ∀ name digits, P (power name digits)) (name : ∀ cs, P (token (.power 1) cs))
    (sign : ∀ c, P (sign c)) (c : Char) (rest : List Char) : P (scan c rest).1 := by
  unfold scan
  split
  next =>
    unfold scanName
    split
    next => exact power _ _
    next => exact name _
  next =>
    split
    next =>
      unfold scanNumber
      split
      next =>
        split
        next => exact fraction _ _
        next => exact whole _
      next => exact whole _
    next => exact sign c

theorem permitted_scan (c : Char) (rest : List Char) : (scan c rest).1.Permitted := by
  refine forall_scan permitted_whole permitted_fraction permitted_power ?_ permitted_sign c rest
  intro cs e literal h
  obtain ⟨rfl, -⟩ : 1 = e ∧ _ := by simpa using h
  decide

end Lexeme

namespace Cursor

/-- A step that finds an item has scanned it from a character that is no blank. -/
theorem lexeme_of_next {k k' : Cursor} {i : Item} (h : k.next = (some i, k')) :
    ∃ c rest, isBlank c = false ∧ i.lexeme = (Lexeme.scan c rest).1 ∧
      k'.rest = (Lexeme.scan c rest).2 := by
  simp only [next] at h
  split at h
  next => simp at h
  next c rest hrest =>
    have hdrop : k.rest.dropWhile isBlank = c :: rest := hrest
    have hblank := List.head?_dropWhile_not isBlank k.rest
    rw [hdrop] at hblank
    simp only [Prod.mk.injEq, Option.some.injEq] at h
    obtain ⟨rfl, rfl⟩ := h
    exact ⟨c, rest, Bool.eq_false_iff.mpr (by simpa using hblank), rfl, rfl⟩

/-- What holds of the item of every step holds of all items of a text. -/
theorem forall_readAll {P : Item → Prop}
    (step : ∀ k k' i, next k = (some i, k') → P i) (k : Cursor) :
    ∀ i ∈ k.readAll.1, P i := by
  rcases h : k.next with ⟨_ | i, k'⟩
  · rw [readAll_of_next_none h]
    simp
  · have := length_rest_next h
    rw [readAll_of_next_some h]
    exact List.forall_mem_cons.mpr ⟨step k k' i h, forall_readAll step k'⟩
termination_by k.rest.length

theorem length_readAll_le (k : Cursor) : k.readAll.1.length ≤ k.rest.length := by
  rcases h : k.next with ⟨_ | i, k'⟩
  · rw [readAll_of_next_none h]
    exact Nat.zero_le _
  · have hlength := length_rest_next h
    have ih := length_readAll_le k'
    rw [readAll_of_next_some h, List.length_cons]
    omega
termination_by k.rest.length

end Cursor

namespace Source

theorem length_items_le (s : Source) : s.items.length ≤ s.text.utf8ByteSize := by
  have hitems := Cursor.length_readAll_le (Cursor.start s.text.toList)
  have hbytes := length_le_byteSize s.text.toList
  rw [byteSize_toList] at hbytes
  exact Nat.le_trans hitems hbytes

/-- Every token of a text has been found by a step. -/
theorem exists_scan_eq (s : Source) : ∀ i ∈ s.items, ∀ t, i.token = .ok t →
    ∃ c rest literal, (Lexeme.scan c rest).1 = .token t literal := by
  refine Cursor.forall_readAll (fun k k' i h t htoken => ?_) _
  obtain ⟨c, rest, -, hlexeme, -⟩ := Cursor.lexeme_of_next h
  cases hcase : i.lexeme with
  | fault f before culprit => simp [Item.token, hcase] at htoken
  | token u literal =>
    obtain rfl : u = t := by simpa [Item.token, hcase] using htoken
    exact ⟨c, rest, literal, hlexeme.symm.trans hcase⟩

theorem exponent_le (s : Source) :
    ∀ i ∈ s.items, ∀ e, i.token = .ok (.power e) → e ≤ maxExponent := by
  intro i hi e htoken
  obtain ⟨c, rest, literal, hscan⟩ := s.exists_scan_eq i hi _ htoken
  exact Lexeme.permitted_scan c rest e literal hscan

end Source

end PolyExpand
