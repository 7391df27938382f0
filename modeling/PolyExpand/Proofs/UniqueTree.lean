import PolyExpand.Outcome
import PolyExpand.Proofs.UniqueReading

/-!
# Unique trees — a printed form that belongs to one tree

Most characters of a printed tree are used for more than one thing: a `-` is an operator or
the sign of a number, a `+` an operator or the head of a sum, and an `x` is a power or the
start of one. A tree can be told from its printed form all the same, whatever its shape is,
because what is printed first can be told from what is printed behind it.

Operators, numbers and powers are words (`Node.isWord`), printed in characters that are
neither blanks nor brackets, and a blank, a bracket or nothing stands behind each of them.
So a word ends where its characters end, and words that are the same are the same operator,
number or power (`Node.word_inj`). Everything else starts with a bracket that says what it
is. Inside, the next node starts behind the next blank, and where neither a node nor a blank
stands, the bracket is closed.

> `Command.printed_inj`: trees with the same printed form are the same, so whatever the
> commands print that show a tree, it shows one tree only.
-/

namespace PolyExpand

open Text

namespace Numeral

theorem rational_of_neg {q : ℚ} (hq : q < 0) : rational q = '-' :: magnitude q := by
  rw [rational, if_pos (Rat.num_neg.mpr hq)]

theorem rational_of_not_neg {q : ℚ} (hq : ¬ q < 0) : rational q = magnitude q := by
  rw [rational, if_neg (Rat.num_neg.not.mpr hq)]

/-- A `-` is printed in front of the negative rationals, and of no others. -/
theorem minus_mem_rational_iff {q : ℚ} : '-' ∈ rational q ↔ q < 0 := by
  have hmagnitude : '-' ∉ magnitude q := by
    intro hmem
    cases isMagnitudeChar_of_mem '-' hmem
  by_cases hq : q < 0
  · rw [rational_of_neg hq]
    exact iff_of_true (List.mem_cons_self ..) hq
  · rw [rational_of_not_neg hq]
    exact iff_of_false hmagnitude hq

theorem rational_inj {p q : ℚ} (h : rational p = rational q) : p = q := by
  have hsign : p < 0 ↔ q < 0 := by rw [← minus_mem_rational_iff, h, minus_mem_rational_iff]
  refine eq_of_abs_eq hsign (magnitude_inj ?_)
  by_cases hp : p < 0
  · rw [rational_of_neg hp, rational_of_neg (hsign.mp hp)] at h
    exact (List.cons.inj h).2
  · rwa [rational_of_not_neg hp, rational_of_not_neg (hsign.not.mp hp)] at h

theorem rational_ne_nil (q : ℚ) : rational q ≠ [] := by
  by_cases hq : q < 0
  · rw [rational_of_neg hq]
    exact List.cons_ne_nil _ _
  · rw [rational_of_not_neg hq]
    exact magnitude_ne_nil q

theorem eq_minus_or_of_mem_rational {q : ℚ} {c : Char} (hc : c ∈ rational q) :
    c = '-' ∨ isMagnitudeChar c = true := by
  by_cases hq : q < 0
  · rw [rational_of_neg hq] at hc
    rcases List.mem_cons.mp hc with hminus | hmem
    · exact Or.inl hminus
    · exact Or.inr (isMagnitudeChar_of_mem c hmem)
  · rw [rational_of_not_neg hq] at hc
    exact Or.inr (isMagnitudeChar_of_mem c hc)

/-- Behind a sign there is a magnitude, and no sign is one. -/
theorem rational_ne_marker (q : ℚ) (m : Marker) : rational q ≠ [m.char] := by
  intro h
  by_cases hq : q < 0
  · rw [rational_of_neg hq] at h
    exact magnitude_ne_nil q (List.cons.inj h).2
  · rw [rational_of_not_neg hq] at h
    have hmem : m.char ∈ magnitude q := h ▸ List.mem_singleton_self _
    have hchar := isMagnitudeChar_of_mem _ hmem
    cases m <;> cases hchar

/-- There is an `x` in every power, and in no operator and no number. -/
theorem x_mem_power (e : ℕ) : 'x' ∈ power e := by
  unfold power
  split
  next => exact List.mem_singleton_self _
  next => exact List.mem_cons_self ..

theorem power_ne_marker (e : ℕ) (m : Marker) : power e ≠ [m.char] := by
  intro h
  have hx := x_mem_power e
  rw [h, List.mem_singleton] at hx
  cases m <;> cases hx

theorem power_ne_rational (e : ℕ) (q : ℚ) : power e ≠ rational q := by
  intro h
  have hx := x_mem_power e
  rw [h] at hx
  rcases eq_minus_or_of_mem_rational hx with hminus | hmagnitude
  · cases hminus
  · cases hmagnitude

end Numeral

namespace Node

/-! ## Words -/

/-- Whether a node is printed as a word: an operator, a number or a power. -/
def isWord : Node → Bool
  | marker _ | number _ | power _ => true
  | group _ | sum _ | product _ => false

/-- A character of a word. -/
def isWordChar (c : Char) : Bool :=
  Numeral.isMagnitudeChar c || Numeral.isPowerChar c || (Marker.ofChar? c).isSome

theorem isWordChar_of_mem_text {n : Node} (hn : n.isWord = true) :
    ∀ c ∈ n.text, isWordChar c = true := by
  intro c hc
  cases n with
  | marker m =>
    obtain rfl := List.mem_singleton.mp hc
    simp [isWordChar]
  | number q =>
    rcases Numeral.eq_minus_or_of_mem_rational hc with rfl | hmagnitude
    · rfl
    · simp [isWordChar, hmagnitude]
  | power e => simp [isWordChar, Numeral.isPowerChar_of_mem c hc]
  | group cs | sum cs | product cs => cases hn

/-- **Words that are the same** are the same operator, number or power. -/
theorem word_inj {t u : Node} (ht : t.isWord = true) (hu : u.isWord = true)
    (h : t.text = u.text) : t = u := by
  cases t with
  | marker m =>
    cases u with
    | marker m' =>
      have hchar := congrArg Marker.ofChar? (List.head_eq_of_cons_eq h)
      rw [Marker.ofChar?_char, Marker.ofChar?_char] at hchar
      rw [Option.some.inj hchar]
    | number q => exact absurd h.symm (Numeral.rational_ne_marker q m)
    | power e => exact absurd h.symm (Numeral.power_ne_marker e m)
    | group cs | sum cs | product cs => cases hu
  | number p =>
    cases u with
    | marker m => exact absurd h (Numeral.rational_ne_marker p m)
    | number q => rw [Numeral.rational_inj h]
    | power e => exact absurd h.symm (Numeral.power_ne_rational e p)
    | group cs | sum cs | product cs => cases hu
  | power d =>
    cases u with
    | marker m => exact absurd h (Numeral.power_ne_marker d m)
    | number q => exact absurd h (Numeral.power_ne_rational d q)
    | power e => rw [Numeral.power_inj h]
    | group cs | sum cs | product cs => cases hu
  | group cs | sum cs | product cs => cases ht

theorem word_ne_nil {n : Node} (hn : n.isWord = true) : n.text ≠ [] := by
  cases n with
  | marker m => exact List.cons_ne_nil _ _
  | number q => exact Numeral.rational_ne_nil q
  | power e => exact Numeral.power_ne_nil e
  | group cs | sum cs | product cs => cases hn

/-- No word starts with a blank or a bracket. -/
theorem word_append_ne {n : Node} (hn : n.isWord = true) {c : Char} (hc : isWordChar c = false)
    (r r' : List Char) : n.text ++ r ≠ c :: r' := by
  obtain ⟨d, more, htext⟩ := List.exists_cons_of_ne_nil (word_ne_nil hn)
  have hd := isWordChar_of_mem_text hn d (htext ▸ List.mem_cons_self ..)
  intro h
  rw [htext] at h
  obtain ⟨rfl, -⟩ := List.cons.inj h
  rw [hc] at hd
  cases hd

/-! ## Brackets -/

/-- What stands between the brackets of a node and behind them. -/
theorem text_group_append (cs : List Node) (r : List Char) :
    (group cs).text ++ r = '[' :: ([' '].intercalate (textAll cs) ++ ']' :: r) := by
  simp [text]

theorem text_sum_append (cs : List Node) (r : List Char) :
    (sum cs).text ++ r = '(' :: '+' :: ' ' :: ([' '].intercalate (textAll cs) ++ ')' :: r) := by
  simp [text]

theorem text_product_append (cs : List Node) (r : List Char) :
    (product cs).text ++ r =
      '(' :: '*' :: ' ' :: ([' '].intercalate (textAll cs) ++ ')' :: r) := by
  simp [text]

/-- A node that is no word starts with a bracket. -/
theorem exists_bracket {n : Node} (hn : n.isWord = false) :
    ∃ c more, n.text = c :: more ∧ (c = '[' ∨ c = '(') := by
  cases n with
  | marker m | number q | power e => cases hn
  | group cs => exact ⟨_, _, rfl, Or.inl rfl⟩
  | sum cs | product cs => exact ⟨_, _, rfl, Or.inr rfl⟩

/-- No node starts with what closes a bracket. -/
theorem text_append_ne (n : Node) {c : Char} (hc : c = ']' ∨ c = ')') (r r' : List Char) :
    n.text ++ r ≠ c :: r' := by
  cases hn : n.isWord with
  | true =>
    refine word_append_ne hn ?_ r r'
    rcases hc with rfl | rfl <;> rfl
  | false =>
    obtain ⟨d, more, htext, hd⟩ := exists_bracket hn
    intro h
    rw [htext] at h
    obtain ⟨rfl, -⟩ := List.cons.inj h
    rcases hc with rfl | rfl <;> rcases hd with hd | hd <;> cases hd

/-- Nodes with a blank in front of each. -/
def following (cs : List Node) : List Char := cs.flatMap fun c => ' ' :: c.text

theorem intercalate_textAll_cons (c : Node) (cs : List Node) :
    [' '].intercalate (textAll (c :: cs)) = c.text ++ following cs := by
  rw [textAll_eq_map]
  induction cs generalizing c with
  | nil => simp [following]
  | cons d cs ih =>
    rw [List.map_cons, List.map_cons, List.intercalate_cons_cons, ← List.map_cons, ih]
    simp [following]

/-! ## One behind the other -/

/-- What may stand behind a word: no character of a word. -/
def EndsWord (rest : List Char) : Prop := ∀ c ∈ rest.head?, isWordChar c = false

/-- A node that can be told, and told from what is printed behind it. -/
def Told (t : Node) : Prop :=
  ∀ (u : Node) (r r' : List Char), EndsWord r → EndsWord r' →
    t.text ++ r = u.text ++ r' → t = u ∧ r = r'

theorem endsWord_following (cs : List Node) {c : Char} (hc : c = ']' ∨ c = ')')
    (r : List Char) : EndsWord (following cs ++ c :: r) := by
  intro d hd
  cases cs with
  | nil =>
    obtain rfl : c = d := Option.some.inj hd
    rcases hc with rfl | rfl <;> rfl
  | cons b cs =>
    obtain rfl : ' ' = d := Option.some.inj hd
    rfl

section Inside

variable {close : Char} (hclose : close = ']' ∨ close = ')')
include hclose

/-- Where a blank stands, another node does, and where none stands, the bracket is closed. -/
theorem following_inj : ∀ {cs ds : List Node} {r r' : List Char}, (∀ c ∈ cs, c.Told) →
    following cs ++ close :: r = following ds ++ close :: r' → cs = ds ∧ r = r'
  | [], [], _, _, _, h => ⟨rfl, (List.cons.inj h).2⟩
  | [], d :: ds, _, _, _, h => by
    obtain ⟨hblank, -⟩ := List.cons.inj h
    rcases hclose with rfl | rfl <;> cases hblank
  | c :: cs, [], _, _, _, h => by
    obtain ⟨hblank, -⟩ := List.cons.inj h
    rcases hclose with rfl | rfl <;> cases hblank
  | c :: cs, d :: ds, r, r', htold, h => by
    obtain ⟨hc, hcs⟩ := List.forall_mem_cons.mp htold
    have hnodes : c.text ++ (following cs ++ close :: r) =
        d.text ++ (following ds ++ close :: r') := by
      simpa [following] using h
    obtain ⟨rfl, hrest⟩ := hc d _ _ (endsWord_following cs hclose r)
      (endsWord_following ds hclose r') hnodes
    obtain ⟨rfl, hbehind⟩ := following_inj hcs hrest
    exact ⟨rfl, hbehind⟩

/-- **What stands inside brackets** can be told, up to the bracket that closes them. -/
theorem inside_inj {cs ds : List Node} {r r' : List Char} (htold : ∀ c ∈ cs, c.Told)
    (h : [' '].intercalate (textAll cs) ++ close :: r =
      [' '].intercalate (textAll ds) ++ close :: r') : cs = ds ∧ r = r' := by
  cases cs with
  | nil =>
    cases ds with
    | nil => exact ⟨rfl, (List.cons.inj h).2⟩
    | cons d ds =>
      rw [intercalate_textAll_cons, List.append_assoc] at h
      exact absurd h.symm (d.text_append_ne hclose _ _)
  | cons c cs =>
    cases ds with
    | nil =>
      rw [intercalate_textAll_cons, List.append_assoc] at h
      exact absurd h (c.text_append_ne hclose _ _)
    | cons d ds =>
      obtain ⟨hc, hcs⟩ := List.forall_mem_cons.mp htold
      rw [intercalate_textAll_cons, intercalate_textAll_cons, List.append_assoc,
        List.append_assoc] at h
      obtain ⟨rfl, hrest⟩ := hc d _ _ (endsWord_following cs hclose r)
        (endsWord_following ds hclose r') h
      obtain ⟨rfl, hbehind⟩ := following_inj hclose hcs hrest
      exact ⟨rfl, hbehind⟩

end Inside

theorem told_of_isWord {t : Node} (ht : t.isWord = true) : t.Told := by
  intro u r r' hr hr' h
  cases hu : u.isWord with
  | true =>
    obtain ⟨htext, hrest⟩ := append_inj_of_stop (isWordChar_of_mem_text ht)
      (isWordChar_of_mem_text hu) hr hr' h
    exact ⟨word_inj ht hu htext, hrest⟩
  | false =>
    obtain ⟨c, more, htext, hc⟩ := exists_bracket hu
    rw [htext] at h
    refine absurd h (word_append_ne ht ?_ r _)
    rcases hc with rfl | rfl <;> rfl

/-- **Every tree can be told** from what is printed behind it. -/
theorem told (t : Node) : t.Told := by
  induction t using Node.induction with
  | marker m => exact told_of_isWord rfl
  | number q => exact told_of_isWord rfl
  | power e => exact told_of_isWord rfl
  | group cs ih =>
    intro u r r' hr hr' h
    rw [text_group_append] at h
    cases u with
    | marker m | number q | power e => exact absurd h.symm (word_append_ne rfl rfl _ _)
    | group ds =>
      rw [text_group_append] at h
      obtain ⟨rfl, hrest⟩ := inside_inj (Or.inl rfl) ih (List.cons.inj h).2
      exact ⟨rfl, hrest⟩
    | sum ds | product ds => cases (List.cons.inj h).1
  | sum cs ih =>
    intro u r r' hr hr' h
    rw [text_sum_append] at h
    cases u with
    | marker m | number q | power e => exact absurd h.symm (word_append_ne rfl rfl _ _)
    | group ds => cases (List.cons.inj h).1
    | sum ds =>
      rw [text_sum_append] at h
      obtain ⟨rfl, hrest⟩ := inside_inj (Or.inr rfl) ih
        (List.cons.inj (List.cons.inj (List.cons.inj h).2).2).2
      exact ⟨rfl, hrest⟩
    | product ds => cases (List.cons.inj (List.cons.inj h).2).1
  | product cs ih =>
    intro u r r' hr hr' h
    rw [text_product_append] at h
    cases u with
    | marker m | number q | power e => exact absurd h.symm (word_append_ne rfl rfl _ _)
    | group ds => cases (List.cons.inj h).1
    | sum ds => cases (List.cons.inj (List.cons.inj h).2).1
    | product ds =>
      rw [text_product_append] at h
      obtain ⟨rfl, hrest⟩ := inside_inj (Or.inr rfl) ih
        (List.cons.inj (List.cons.inj (List.cons.inj h).2).2).2
      exact ⟨rfl, hrest⟩

theorem text_inj {t u : Node} (h : t.text = u.text) : t = u := by
  have hend : EndsWord [] := fun c hc => by cases hc
  have happend : t.text ++ [] = u.text ++ [] := by rw [h]
  exact (t.told u [] [] hend hend happend).1

end Node

/-! ## What the commands print -/

/-- The tree that a command prints, if it is one of those that do and the text has one. -/
def Command.tree? (s : Source) : Command → Option Node
  | tokenize => s.tree.toOption
  | resolve => s.resolved.toOption
  | lex | eval => none

/-- A line with a tree is printed for that tree only, and no line for none. -/
theorem Outcome.ofView_inj {x y : Except Malformed Node}
    (h : (ofView (x.map Node.text)).output = (ofView (y.map Node.text)).output) :
    x.toOption = y.toOption := by
  cases x with
  | error m =>
    cases y with
    | error m' => rfl
    | ok u => exact absurd h.symm (List.append_ne_nil_of_right_ne_nil _ (List.cons_ne_nil _ _))
  | ok t =>
    cases y with
    | error m => exact absurd h (List.append_ne_nil_of_right_ne_nil _ (List.cons_ne_nil _ _))
    | ok u =>
      have htext : t.text = u.text := List.append_cancel_right h
      rw [Node.text_inj htext]

/-- **A printed tree is one tree.** Trees of any shape with the same printed form are the
same, and two commands that print the tree of a text, as it is written or resolved, have
printed the same only if it was the same tree, or none. -/
theorem Command.printed_inj :
    (∀ t u : Node, toString t = toString u → t = u) ∧
    ∀ c ∈ [tokenize, resolve], ∀ c' ∈ [tokenize, resolve], ∀ s s' : Source,
      (c.outcome s).output = (c'.outcome s').output → c.tree? s = c'.tree? s' := by
  refine ⟨fun t u h => Node.text_inj (String.ofList_injective h), ?_⟩
  intro c hc c' hc' s s' h
  have hview : ∀ d ∈ [tokenize, resolve], ∀ w : Source, ∃ x : Except Malformed Node,
      d.outcome w = .ofView (x.map Node.text) ∧ d.tree? w = x.toOption := by
    intro d hd w
    simp only [List.mem_cons, List.not_mem_nil, or_false] at hd
    rcases hd with rfl | rfl
    · exact ⟨w.tree, rfl, rfl⟩
    · exact ⟨w.resolved, rfl, rfl⟩
  obtain ⟨x, houtcome, htree⟩ := hview c hc s
  obtain ⟨y, houtcome', htree'⟩ := hview c' hc' s'
  rw [houtcome, houtcome'] at h
  rw [htree, htree']
  exact Outcome.ofView_inj h

/-- A negative fraction behind an operator and in front of another, in a tree that is made
and in one that is written down; and one resolved tree of two texts. -/
theorem Command.printed_inj_resolved :
    let t : Node := (Node.group [.number (-1 / 2), .marker .minus, .group [.power 0]]).resolve
    let u : Node := .sum [.number (-1 / 2), .product [.number (-1), .power 0]]
    let s : Source := ⟨"2 x", none⟩
    let s' : Source := ⟨"(2 * y)", none⟩
    (toString t = "(+ -1/2 (* -1 x^0))" ∧ toString u = "(+ -1/2 (* -1 x^0))" ∧ t = u) ∧
    (resolve.outcome s).output = (resolve.outcome s').output ∧
      resolve.tree? s = resolve.tree? s' := by
  intro t u s s'
  have ht : toString t = "(+ -1/2 (* -1 x^0))" := by decide +kernel
  have hu : toString u = "(+ -1/2 (* -1 x^0))" := by decide +kernel
  have houtput : (resolve.outcome s).output = (resolve.outcome s').output := by decide +kernel
  refine ⟨⟨ht, hu, printed_inj.1 t u (ht.trans hu.symm)⟩, houtput, ?_⟩
  exact printed_inj.2 resolve (by decide) resolve (by decide) s s' houtput

end PolyExpand
