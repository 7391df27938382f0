import PolyExpand.Proofs.Descent
import PolyExpand.Proofs.Munch

/-!
# Renaming — a text means the same under other names

An expression has one indeterminate, and any name stands for it. `Source.renamed` replaces
the name at the start of every item that has one, each by a name of its own, and leaves
everything else as it is: blanks, exponents and faults included. Names differ in length, so
all that is behind a name is moved, and with it the places of reports. What is left of a
report without its place is the fault and the number of bytes it points at
(`Malformed.unplaced`), and what is left of an item is a token or such a report.

No name can run into what stands before or behind it. Where a segment ends depends on the
first characters behind it, and those are either kept or letters before and after
(`EndsAlike`). So a segment in the list of `Means` is followed by one in the list with its
name replaced (`Means.renamed`), one step reads the same item (`Cursor.next_renamed`), and
so do all steps.

> `Source.tree_renamed`: with its names replaced, a text has the same tree, or is refused
> for the same fault with a report of the same length.
-/

namespace PolyExpand

open Text

/-! ## What is left without places -/

/-- What is wrong, and how many bytes are pointed at. -/
def Malformed.unplaced (m : Malformed) : Fault × ℕ := (m.fault, m.span.length)

/-- The token that an item is, or what is left of the report. -/
def Item.unplaced (i : Item) : Except (Fault × ℕ) Token := i.token.mapError Malformed.unplaced

/-- Two results are the same but for places, if both are the same value, or both are
reports that are the same but for theirs. -/
theorem ok_or_error_of_unplaced {α : Type} {x y : Except Malformed α}
    (h : x.mapError Malformed.unplaced = y.mapError Malformed.unplaced) :
    (∃ a, x = .ok a ∧ y = .ok a) ∨
      ∃ m m', x = .error m ∧ y = .error m' ∧ m.unplaced = m'.unplaced := by
  cases x with
  | error m =>
    cases y with
    | error m' => exact .inr ⟨m, m', rfl, rfl, Except.error.inj h⟩
    | ok b => cases h
  | ok a =>
    cases y with
    | error m' => cases h
    | ok b =>
      obtain rfl : a = b := Except.ok.inj h
      exact .inl ⟨a, rfl, rfl⟩

namespace Nesting

/-- The nodes that are held, without the bytes at which groups were opened. -/
def held (s : Nesting) : List Node × List (List Node) := (s.done, s.frames.map Frame.before)

/-- Where the same is held, either no group is open, or the innermost one interrupts the
same list. -/
theorem held_cases {s s' : Nesting} (h : s.held = s'.held) :
    ∃ done, (s = ⟨done, []⟩ ∧ s' = ⟨done, []⟩) ∨
      ∃ before opened opened' frames frames',
        frames.map Frame.before = frames'.map Frame.before ∧
        s = ⟨done, ⟨opened, before⟩ :: frames⟩ ∧ s' = ⟨done, ⟨opened', before⟩ :: frames'⟩ := by
  obtain ⟨done, frames⟩ := s
  obtain ⟨done', frames'⟩ := s'
  obtain ⟨rfl, hframes⟩ : done = done' ∧ _ := Prod.mk.inj h
  cases frames with
  | nil =>
    obtain rfl := List.map_eq_nil_iff.mp hframes.symm
    exact ⟨done, .inl ⟨rfl, rfl⟩⟩
  | cons f frames =>
    cases frames' with
    | nil => cases hframes
    | cons f' frames' =>
      obtain ⟨opened', before'⟩ := f'
      obtain ⟨rfl, hmore⟩ : f.before = before' ∧ _ := List.cons.inj hframes
      exact ⟨done, .inr ⟨f.before, f.opened, opened', frames, frames', hmore, rfl, rfl⟩⟩

/-- The group that is closed is held in place of what it interrupts. -/
theorem closing_unplaced {s s' : Nesting} (h : s.held = s'.held) (byte byte' : ℕ) :
    ((s.closing byte).map held).mapError Malformed.unplaced =
      ((s'.closing byte').map held).mapError Malformed.unplaced := by
  obtain ⟨done, ⟨rfl, rfl⟩ | ⟨before, _, _, frames, frames', hmore, rfl, rfl⟩⟩ := held_cases h
  · rfl
  · have hclosed : held ⟨.group done.reverse :: before, frames⟩ =
        held ⟨.group done.reverse :: before, frames'⟩ := congrArg (Prod.mk _) hmore
    exact congrArg Except.ok hclosed

/-- One item changes what is held in the same way, wherever it stands. -/
theorem step_unplaced {s s' : Nesting} {i i' : Item} (hheld : s.held = s'.held)
    (hitem : i.unplaced = i'.unplaced) :
    ((s.step i).map held).mapError Malformed.unplaced =
      ((s'.step i').map held).mapError Malformed.unplaced := by
  obtain ⟨t, htoken, htoken'⟩ | ⟨m, m', htoken, htoken', hreport⟩ := ok_or_error_of_unplaced hitem
  · cases hleaf : t.leaf? with
    | some n =>
      have hpush : (s.push n).held = (s'.push n).held :=
        congrArg (fun h : List Node × List (List Node) => (n :: h.1, h.2)) hheld
      rw [step_leaf htoken hleaf, step_leaf htoken' hleaf]
      exact congrArg Except.ok hpush
    | none =>
      cases t with
      | marker m => exact absurd hleaf (by simp [Token.leaf?])
      | number q => exact absurd hleaf (by simp [Token.leaf?])
      | power e => exact absurd hleaf (by simp [Token.leaf?])
      | openParen =>
        have hopening : (s.opening i.offset).held = (s'.opening i'.offset).held :=
          congrArg (fun h : List Node × List (List Node) => ([], h.1 :: h.2)) hheld
        rw [step, step, htoken, htoken']
        exact congrArg Except.ok hopening
      | closeParen =>
        rw [step, step, htoken, htoken']
        exact closing_unplaced hheld i.offset i'.offset
  · rw [step, step, htoken, htoken']
    exact congrArg Except.error hreport

/-- What is left open at the end does not depend on where it was opened. -/
theorem finish_unplaced {s s' : Nesting} (h : s.held = s'.held) :
    s.finish.mapError Malformed.unplaced = s'.finish.mapError Malformed.unplaced := by
  obtain ⟨done, ⟨rfl, rfl⟩ | ⟨_, _, _, _, _, -, rfl, rfl⟩⟩ := held_cases h
  · rfl
  · rfl

/-- **What is read depends on places only in the places of reports.** -/
theorem run_unplaced : ∀ {items items' : List Item} {s s' : Nesting}, s.held = s'.held →
    items.map Item.unplaced = items'.map Item.unplaced →
    (s.run items).mapError Malformed.unplaced = (s'.run items').mapError Malformed.unplaced
  | [], _ :: _, _, _, _, hitems => by cases hitems
  | _ :: _, [], _, _, _, hitems => by cases hitems
  | [], [], _, _, hheld, _ => finish_unplaced hheld
  | i :: items, i' :: items', s, s', hheld, hitems => by
    obtain ⟨hitem, hmore⟩ := List.cons.inj hitems
    have hstep := step_unplaced hheld hitem
    rw [run_cons, run_cons]
    cases h : s.step i with
    | error m =>
      cases h' : s'.step i' with
      | error m' =>
        rw [h, h'] at hstep
        exact congrArg Except.error (Except.error.inj hstep)
      | ok u' =>
        rw [h, h'] at hstep
        cases hstep
    | ok u =>
      cases h' : s'.step i' with
      | error m' =>
        rw [h, h'] at hstep
        cases hstep
      | ok u' =>
        rw [h, h'] at hstep
        exact run_unplaced (Except.ok.inj hstep) hmore

end Nesting

/-! ## Other names -/

/-- A segment, with the name that it starts with, if any, replaced. -/
def rename (y : Identifier) : List Char → List Char
  | [] => []
  | c :: cs => if isLetter c then y.chars ++ cs.dropWhile isNameChar else c :: cs

theorem rename_of_not_isLetter (y : Identifier) {c : Char} (h : isLetter c = false)
    (cs : List Char) : rename y (c :: cs) = c :: cs := by
  rw [rename, if_neg (by simp [h])]

theorem rename_chars (y x : Identifier) (rest : List Char)
    (hrest : ∀ c ∈ rest.head?, isNameChar c = false) :
    rename y (x.chars ++ rest) = y.chars ++ rest := by
  rw [Identifier.chars, List.cons_append, rename, if_pos x.isLetter,
    dropWhile_append_of_stop x.isNameChar hrest]

theorem rename_digits (y : Identifier) (ds : DigitRun) (rest : List Char) :
    rename y (ds.chars ++ rest) = ds.chars ++ rest := by
  obtain ⟨chars, hne, hdigits⟩ := ds
  cases chars with
  | nil => exact absurd rfl hne
  | cons c chars =>
    exact rename_of_not_isLetter y (isLetter_of_isDigit (hdigits c (List.mem_cons_self ..))) _

/-! ## Ends -/

/-- What ends in front of the one text, ends in front of the other. -/
structure EndsAlike (rest rest' : List Char) : Prop where
  noDigit : NoDigit rest → NoDigit rest'
  noDenominator : NoDenominator rest → NoDenominator rest'
  noName : NoName rest → NoName rest'

namespace EndsAlike

theorem refl (rest : List Char) : EndsAlike rest rest := ⟨id, id, id⟩

/-- A first character that is kept decides, unless it is a `/`. -/
theorem cons {rest rest' : List Char} (h : NoDigit rest → NoDigit rest') (c : Char) :
    EndsAlike (c :: rest) (c :: rest') where
  noDigit hrest := hrest
  noName hrest := hrest
  noDenominator hrest := by
    rintro d more heq
    obtain ⟨rfl, rfl⟩ := List.cons.inj heq
    refine h (fun d' hd' => ?_) d rfl
    obtain ⟨more', hmore'⟩ := List.head?_eq_some_iff.mp hd'
    exact hrest d' more' (congrArg (List.cons '/') hmore')

theorem append {rest rest' : List Char} (h : EndsAlike rest rest') : ∀ front : List Char,
    EndsAlike (front ++ rest) (front ++ rest')
  | [] => h
  | c :: front => cons (h.append front).noDigit c

/-- All letters end the same, and go on with the same. -/
theorem of_isLetter {c c' : Char} (hc : isLetter c = true) (hc' : isLetter c' = true)
    (rest rest' : List Char) : EndsAlike (c :: rest) (c' :: rest') where
  noDigit _ d hd := by
    obtain rfl : c' = d := Option.some.inj hd
    exact Spelling.Kind.isDigit_of_isLetter hc'
  noDenominator _ d more heq := by
    obtain ⟨rfl, -⟩ := List.cons.inj heq
    cases hc'
  noName hrest := by
    have hname : isNameChar c = false := (hrest c rfl).1
    have halpha : c.isAlpha = true := hc
    simp [isNameChar, halpha] at hname

end EndsAlike

/-! ## One segment -/

/-- **A segment with its name replaced** is in the list of segments where the text goes on
alike, and means the same. -/
theorem Means.renamed {b : ℕ} {segment rest rest' : List Char} {t : Except Malformed Token}
    (h : Means b segment rest t) (hrest : EndsAlike rest rest') (y : Identifier) (b' : ℕ) :
    ∃ t', Means b' (rename y segment) rest' t' ∧
      t'.mapError Malformed.unplaced = t.mapError Malformed.unplaced := by
  have hcaret : ∀ ds : List Char, ∀ c ∈ ('^' :: ds).head?, isNameChar c = false := by
    intro ds c hc
    obtain rfl : '^' = c := Option.some.inj hc
    rfl
  cases h with
  | openParen => exact ⟨_, .openParen rest', rfl⟩
  | closeParen => exact ⟨_, .closeParen rest', rfl⟩
  | plus => exact ⟨_, .plus rest', rfl⟩
  | minus => exact ⟨_, .minus rest', rfl⟩
  | times => exact ⟨_, .times rest', rfl⟩
  | whole ds hdigit hdenominator =>
    have hsame := rename_digits y ds []
    rw [List.append_nil] at hsame
    rw [hsame]
    exact ⟨_, .whole ds (hrest.noDigit hdigit) (hrest.noDenominator hdenominator), rfl⟩
  | fraction ns ds hdigit hnonzero =>
    rw [rename_digits]
    exact ⟨_, .fraction ns ds (hrest.noDigit hdigit) hnonzero, rfl⟩
  | overZero ns ds hdigit hzero =>
    rw [rename_digits]
    exact ⟨_, .overZero ns ds (hrest.noDigit hdigit) hzero, rfl⟩
  | name x hname =>
    have hreplaced := rename_chars y x [] (by simp)
    rw [List.append_nil, List.append_nil] at hreplaced
    rw [hreplaced]
    exact ⟨_, .name y (hrest.noName hname), rfl⟩
  | power x ds hdigit hpermitted =>
    rw [rename_chars y x _ (hcaret _)]
    exact ⟨_, .power y ds (hrest.noDigit hdigit) hpermitted, rfl⟩
  | tooLarge x ds hdigit hlarge hword =>
    rw [rename_chars y x _ (hcaret _)]
    exact ⟨_, .tooLarge y ds (hrest.noDigit hdigit) hlarge hword, rfl⟩
  | overflow x ds hdigit hlarge =>
    rw [rename_chars y x _ (hcaret _)]
    exact ⟨_, .overflow y ds (hrest.noDigit hdigit) hlarge, rfl⟩
  | missing x hdigit =>
    rw [rename_chars y x _ (hcaret _)]
    exact ⟨_, .missing y (hrest.noDigit hdigit), rfl⟩
  | stranger c rest hblank hsign hletter hdigit =>
    rw [rename_of_not_isLetter y hletter]
    exact ⟨_, .stranger c rest' hblank hsign hletter hdigit, rfl⟩

/-! ## One step, and all of them -/

namespace Cursor

/-- The text in front of a cursor, the name of its `n`-th item replaced by `names n`. -/
def renamed (k : Cursor) (names : ℕ → Identifier) : List Char :=
  match _h : k.next with
  | (none, _) => k.rest
  | (some i, k') =>
    k.rest.takeWhile isBlank ++ rename (names 0) i.lexeme.segment ++
      k'.renamed fun n => names (n + 1)
termination_by k.rest.length
decreasing_by exact length_rest_next _h

theorem renamed_of_next_none {k k' : Cursor} (h : k.next = (none, k')) (names : ℕ → Identifier) :
    k.renamed names = k.rest := by
  rw [renamed]
  split <;> simp_all

theorem renamed_of_next_some {k k' : Cursor} {i : Item} (h : k.next = (some i, k'))
    (names : ℕ → Identifier) :
    k.renamed names = k.rest.takeWhile isBlank ++ rename (names 0) i.lexeme.segment ++
      k'.renamed fun n => names (n + 1) := by
  rw [renamed]
  split <;> simp_all

/-- The gap in front of an item is all the blanks that there are. -/
theorem Tile.gap_eq {k k' : Cursor} {gap : List Char} {i : Item} (h : Tile k gap i k') :
    k.rest.takeWhile isBlank = gap := by
  obtain ⟨c, more, hsegment, hc⟩ := h.starts
  rw [h.rest_eq, List.append_assoc]
  refine takeWhile_append_of_stop (fun d hd => isBlank_iff.mpr (h.blank d hd)) ?_
  intro d hd
  rw [hsegment] at hd
  obtain rfl : c = d := Option.some.inj hd
  exact Bool.eq_false_iff.mpr fun hblank => hc (isBlank_iff.mp hblank)

theorem endsAlike_renamed (k : Cursor) (names : ℕ → Identifier) :
    EndsAlike k.rest (k.renamed names) := by
  rcases hnext : k.next with ⟨_ | i, k'⟩
  · rw [renamed_of_next_none hnext]
    exact .refl _
  · have := length_rest_next hnext
    have ih := endsAlike_renamed k' fun n => names (n + 1)
    obtain ⟨gap, htile⟩ := exists_tile hnext
    obtain ⟨c, more, hsegment, -⟩ := htile.starts
    rw [renamed_of_next_some hnext, htile.gap_eq, htile.rest_eq, List.append_assoc,
      List.append_assoc]
    refine EndsAlike.append ?_ gap
    rw [hsegment]
    cases hc : isLetter c with
    | true =>
      rw [rename, if_pos hc]
      exact .of_isLetter hc (names 0).isLetter _ _
    | false =>
      rw [rename_of_not_isLetter _ hc]
      exact ih.append (c :: more)
termination_by k.rest.length

/-- **A step with names replaced** finds the same item, but for its place, and stands in
front of the rest with names replaced. -/
theorem next_renamed {k k' : Cursor} {i : Item} (h : k.next = (some i, k'))
    (names : ℕ → Identifier) (b : ℕ) :
    ∃ i' b', next ⟨b, k.renamed names⟩ = (some i', ⟨b', k'.renamed fun n => names (n + 1)⟩) ∧
      i'.unplaced = i.unplaced := by
  obtain ⟨gap, htile⟩ := exists_tile h
  obtain ⟨_, _, _, _, hmeans⟩ := means_of_next h
  obtain ⟨t', hmeans', hunplaced⟩ := hmeans.renamed (k'.endsAlike_renamed fun n => names (n + 1))
    (names 0) (b + byteSize gap)
  obtain ⟨x, hsegment, rfl, hfound⟩ := hmeans'.exists_found
  refine ⟨⟨b + byteSize gap, x⟩, b + byteSize gap + byteSize x.segment, ?_, hunplaced⟩
  rw [renamed_of_next_some h, htile.gap_eq, List.append_assoc,
    next_gap fun c hc => isBlank_iff.mpr (htile.blank c hc), ← hsegment]
  exact next_found hfound _

theorem unplaced_readAll_renamed (k : Cursor) (names : ℕ → Identifier) (b : ℕ) :
    (readAll ⟨b, k.renamed names⟩).1.map Item.unplaced = k.readAll.1.map Item.unplaced := by
  rcases hnext : k.next with ⟨_ | i, k'⟩
  · obtain ⟨hblank, -⟩ := next_eq_none hnext
    have hnone := next_gap hblank b []
    rw [List.append_nil] at hnone
    rw [renamed_of_next_none hnext, readAll_of_next_none hnext, readAll_of_next_none hnone]
  · have := length_rest_next hnext
    obtain ⟨i', b', hnext', hitem⟩ := next_renamed hnext names b
    rw [readAll_of_next_some hnext, readAll_of_next_some hnext', List.map_cons, List.map_cons,
      hitem, unplaced_readAll_renamed k']
termination_by k.rest.length

end Cursor

namespace Source

/-- The text with the name of its `n`-th item replaced by `names n`, wherever that item
starts with a name. -/
def renamed (s : Source) (names : ℕ → Identifier) : Source :=
  ⟨String.ofList ((Cursor.start s.text.toList).renamed names), s.name?⟩

theorem unplaced_items_renamed (s : Source) (names : ℕ → Identifier) :
    (s.renamed names).items.map Item.unplaced = s.items.map Item.unplaced := by
  have h := (Cursor.start s.text.toList).unplaced_readAll_renamed names 0
  rw [items, read, renamed, String.toList_ofList]
  exact h

theorem unplaced_tree_renamed (s : Source) (names : ℕ → Identifier) :
    (s.renamed names).tree.mapError Malformed.unplaced =
      s.tree.mapError Malformed.unplaced := by
  have hgroup (x : Except Malformed (List Node)) : (x.map Node.group).mapError
      Malformed.unplaced = (x.mapError Malformed.unplaced).map Node.group := by
    cases x <;> rfl
  rw [tree, tree, Node.ofItems_eq_run, Node.ofItems_eq_run, hgroup, hgroup,
    Nesting.run_unplaced rfl (s.unplaced_items_renamed names)]

/-- **Names have no influence**: a text whose names are replaced has the same tree, and
so the same resolved tree and polynomial, or is refused for the same fault, with a report
of the same length. -/
theorem tree_renamed (s : Source) (names : ℕ → Identifier) :
    (∃ n, s.tree = .ok n ∧ (s.renamed names).tree = .ok n ∧
      (s.renamed names).resolved = s.resolved ∧ (s.renamed names).expanded = s.expanded) ∨
    ∃ m m', s.tree = .error m ∧ (s.renamed names).tree = .error m' ∧
      m'.fault = m.fault ∧ m'.span.length = m.span.length := by
  obtain ⟨n, h, h'⟩ | ⟨m', m, h', h, hreport⟩ :=
    ok_or_error_of_unplaced (s.unplaced_tree_renamed names)
  · have hresolved : (s.renamed names).resolved = s.resolved := by
      rw [resolved, resolved, h, h']
    exact .inl ⟨n, h', h, hresolved, by rw [expanded, expanded, hresolved]⟩
  · obtain ⟨hfault, hlength⟩ := Prod.mk.inj hreport
    exact .inr ⟨m, m', h, h', hfault, hlength⟩

/-- Names give way to longer and shorter ones, and the rest is moved. -/
example :
    let s : Source := ⟨"2ab c^3 +d^", none⟩
    let names (n : ℕ) : Identifier :=
      if n = 1 then ⟨'y', ['_', '1'], rfl, by simp [isNameChar]⟩ else ⟨'Z', [], rfl, by simp⟩
    (s.renamed names).text = "2y_1 Z^3 +Z^" := by
  decide +kernel

end Source

end PolyExpand
