import PolyExpand.Node.Text
import PolyExpand.Proofs.Safety
import PolyExpand.Proofs.UniqueReading

/-!
# Reprinting — a printed tree is read back

The tree of a text is printed with brackets, and without any for the tree itself it is
nearly a text again: only the brackets inside have to be replaced by parentheses
(`Node.reprint`). A blank stands between any two nodes, which is more than a text needs,
and a bracket is a parenthesis, so what is read of a node does not depend on what stands
behind it. That is a fact about one node and its neighbours (`Nesting.Reads`), and it is
kept by every way of putting nodes together.

> `Source.tree_reprint`: every group whose nodes a text can write is the tree of its
> reprinted form, and the tree of any text is such a group.

A text can write neither sums nor products, no negative numbers, and no powers beyond the
limit (`Node.Writable`).
-/

namespace PolyExpand

open Text

namespace Node

/-- Whether a text can write a node, if it can write what is below it. -/
def IsWritable : Node → Prop
  | marker _ | group _ => True
  | number q => 0 ≤ q
  | power e => e ≤ maxExponent
  | sum _ | product _ => False

instance : DecidablePred IsWritable
  | marker _ | group _ => inferInstanceAs (Decidable True)
  | number q => inferInstanceAs (Decidable (0 ≤ q))
  | power e => inferInstanceAs (Decidable (e ≤ maxExponent))
  | sum _ | product _ => inferInstanceAs (Decidable False)

/-- Trees that a text can write. -/
def Writable (n : Node) : Prop := ∀ s ∈ n.subtrees, s.IsWritable

instance (n : Node) : Decidable n.Writable :=
  inferInstanceAs (Decidable (∀ s ∈ n.subtrees, s.IsWritable))

theorem Writable.root {n : Node} (h : n.Writable) : n.IsWritable := (forall_subtrees.mp h).1

theorem Writable.child {n c : Node} (h : n.Writable) (hc : c ∈ n.children) : c.Writable :=
  (forall_subtrees.mp h).2 c hc

end Node

/-! ## Parentheses for brackets -/

/-- The parenthesis that stands for a bracket. Other characters are left alone. -/
def Text.parenthesis (c : Char) : Char :=
  if c = '[' then '(' else if c = ']' then ')' else c

/-- A text in a class of characters without brackets is left alone. -/
theorem Text.map_parenthesis {p : Char → Bool} (hopen : p '[' = false) (hclose : p ']' = false)
    {cs : List Char} (hcs : ∀ c ∈ cs, p c = true) : cs.map parenthesis = cs := by
  have hid : ∀ c ∈ cs, parenthesis c = id c := by
    intro c hc
    have hp := hcs c hc
    have hnopen : c ≠ '[' := fun h => by rw [h, hopen] at hp; cases hp
    have hnclose : c ≠ ']' := fun h => by rw [h, hclose] at hp; cases hp
    rw [parenthesis, if_neg hnopen, if_neg hnclose, id]
  rw [List.map_congr_left hid, List.map_id]

namespace Node

/-- The printed form of a tree, with parentheses for brackets. -/
def parenthesized (n : Node) : List Char := n.text.map parenthesis

/-- The parenthesized forms of nodes, with blanks between them. -/
def parenthesizedAll (cs : List Node) : List Char := [' '].intercalate (cs.map parenthesized)

/-- The printed form of a tree without its first and its last character, which are the
brackets of the tree itself, and with parentheses for all other brackets. -/
def reprint (n : Node) : List Char := n.text.tail.dropLast.map parenthesis

theorem parenthesizedAll_cons_cons (c d : Node) (cs : List Node) :
    parenthesizedAll (c :: d :: cs) = c.parenthesized ++ ' ' :: parenthesizedAll (d :: cs) := by
  rw [parenthesizedAll, List.map_cons, List.map_cons, List.intercalate_cons_cons,
    List.append_assoc]
  rfl

theorem map_intercalate_textAll : ∀ cs : List Node,
    ([' '].intercalate (textAll cs)).map parenthesis = parenthesizedAll cs
  | [] => rfl
  | [c] => by
    rw [parenthesizedAll, List.map_singleton, List.intercalate_singleton, textAll, textAll,
      List.intercalate_singleton, parenthesized]
  | c :: d :: cs => by
    have ih := map_intercalate_textAll (d :: cs)
    rw [textAll] at ih
    rw [parenthesizedAll_cons_cons, ← ih, textAll, textAll, List.intercalate_cons_cons,
      List.map_append, List.map_append]
    rw [List.append_assoc]
    rfl

theorem reprint_group (cs : List Node) : (group cs).reprint = parenthesizedAll cs := by
  have hinner : (group cs).text.tail = [' '].intercalate (textAll cs) ++ [']'] := rfl
  rw [reprint, hinner, List.dropLast_concat, map_intercalate_textAll]

theorem parenthesized_group (cs : List Node) :
    (group cs).parenthesized = '(' :: (parenthesizedAll cs ++ [')']) := by
  rw [parenthesized, text, List.map_append, List.map_cons, map_intercalate_textAll]
  rfl

end Node

/-! ## Reading piece by piece -/

/-- What may stand behind a node: a blank, a `)` or nothing. -/
def EndsNode (rest : List Char) : Prop := ∀ c ∈ rest.head?, c = ' ' ∨ c = ')'

/-- What is true of a blank and of a `)` is true of whatever stands behind a node. -/
theorem EndsNode.forall {p : Char → Prop} {rest : List Char} (h : EndsNode rest) (hblank : p ' ')
    (hclose : p ')') : ∀ c ∈ rest.head?, p c := by
  intro c hc
  rcases h c hc with rfl | rfl
  · exact hblank
  · exact hclose

namespace Nesting

/-- A `(` opens a group. -/
theorem read_openParen (s : Nesting) (b : Nat) (rest : List Char) :
    s.read ⟨b, '(' :: rest⟩ = (s.opening b).read ⟨b + 1, rest⟩ := by
  have hfound : (Lexeme.token .openParen ['(']).FoundBefore rest := ⟨'(', rest, rfl, rfl, rfl⟩
  exact read_of_next_some (Cursor.next_found hfound b) s

/-- A `)` closes the innermost group. -/
theorem read_closeParen (done : List Node) (f : Frame) (frames : List Frame) (b : Nat)
    (rest : List Char) :
    read ⟨done, f :: frames⟩ ⟨b, ')' :: rest⟩ =
      read ⟨.group done.reverse :: f.before, frames⟩ ⟨b + 1, rest⟩ := by
  have hfound : (Lexeme.token .closeParen [')']).FoundBefore rest := ⟨')', rest, rfl, rfl, rfl⟩
  exact read_of_next_some (Cursor.next_found hfound b) _

/-- Reading a text adds nodes to the innermost open list, whatever is held before it and
whatever may stand behind it. -/
def Reads (text : List Char) (ns : List Node) : Prop :=
  ∀ rest : List Char, EndsNode rest → ∀ (s : Nesting) (b : Nat),
    s.read ⟨b, text ++ rest⟩ = (ns.foldl push s).read ⟨b + byteSize text, rest⟩

namespace Reads

variable {text text' : List Char} {ns ns' : List Node}

theorem nil : Reads [] [] := fun _ _ _ _ => rfl

/-- A leaf is read if nothing that may stand behind it goes on with it. -/
theorem leaf {t : Token} {n : Node} (hleaf : t.leaf? = some n)
    (hfound : ∀ rest : List Char, EndsNode rest → (Lexeme.token t text).FoundBefore rest) :
    Reads text [n] :=
  fun rest hrest s b => read_leaf (hfound rest hrest) hleaf s b

/-- Texts are read one behind the other if a blank stands between them. -/
theorem append (h : Reads text ns) (h' : Reads text' ns') :
    Reads (text ++ ' ' :: text') (ns ++ ns') := by
  intro rest hrest s b
  have hblank : EndsNode (' ' :: (text' ++ rest)) :=
    fun c hc => Or.inl (Option.some.inj hc).symm
  rw [List.append_assoc, List.cons_append, h _ hblank, read_blank, h' rest hrest,
    List.foldl_append, byteSize_append, byteSize_cons]
  congr 2
  have : (' ' : Char).utf8Size = 1 := rfl
  omega

/-- Parentheses make a group of what is read between them. -/
theorem group (h : Reads text ns) : Reads ('(' :: (text ++ [')'])) [.group ns] := by
  intro rest hrest s b
  have hclose : EndsNode (')' :: rest) := fun c hc => Or.inr (Option.some.inj hc).symm
  rw [List.cons_append, List.append_assoc, List.singleton_append, read_openParen, h _ hclose,
    foldl_push, opening, read_closeParen]
  have hgroup : (ns.reverse ++ []).reverse = ns := by simp
  have hsize : b + 1 + byteSize text + 1 = b + byteSize ('(' :: (text ++ [')'])) := by
    have hopen : ('(' : Char).utf8Size = 1 := rfl
    have hclose : (')' : Char).utf8Size = 1 := rfl
    rw [byteSize_cons, byteSize_append, byteSize_cons, byteSize_nil]
    omega
  rw [hgroup, hsize]
  rfl

/-- All of a text is read, and nothing is left open. -/
theorem tree (h : Reads text ns) (name? : Option String) :
    (⟨String.ofList text, name?⟩ : Source).tree = .ok (.group ns) := by
  have hread : Nesting.empty.read (Cursor.start text) = .ok ns := by
    have hall := h [] (fun c hc => by cases hc) .empty 0
    rw [List.append_nil, read_end, foldl_push] at hall
    rw [Cursor.start, hall]
    simp [finish, empty]
  rw [Source.tree_eq_read, String.toList_ofList, hread]
  rfl

end Reads

end Nesting

namespace Node

/-- Nodes are read with blanks between them if each of them is read on its own. -/
theorem reads_parenthesizedAll : ∀ cs : List Node,
    (∀ c ∈ cs, Nesting.Reads c.parenthesized [c]) → Nesting.Reads (parenthesizedAll cs) cs
  | [], _ => .nil
  | [c], h => by
    rw [parenthesizedAll, List.map_singleton, List.intercalate_singleton]
    exact h c (List.mem_singleton_self c)
  | c :: d :: cs, h => by
    obtain ⟨hc, hcs⟩ := List.forall_mem_cons.mp h
    rw [parenthesizedAll_cons_cons]
    exact hc.append (reads_parenthesizedAll (d :: cs) hcs)

/-- **A tree is read back** from its parenthesized form. -/
theorem Writable.reads {n : Node} (h : n.Writable) : Nesting.Reads n.parenthesized [n] := by
  induction n using Node.induction with
  | marker m =>
    have htext : (marker m).parenthesized = [m.char] := by cases m <;> rfl
    rw [htext]
    exact .leaf rfl fun rest _ => Lexeme.found_marker m rest
  | number q =>
    have hq : 0 ≤ q := h.root
    have htext : (number q).parenthesized = Numeral.magnitude q := by
      rw [parenthesized, text, Numeral.rational, if_neg (by simpa using hq)]
      exact Text.map_parenthesis rfl rfl Numeral.isMagnitudeChar_of_mem
    have hfound : ∀ rest : List Char, EndsNode rest →
        (Lexeme.token (.number q) (Numeral.magnitude q)).FoundBefore rest := by
      intro rest hrest
      -- A blank and a `)` do not go on with a number.
      have hstop : ∀ c ∈ rest.head?, c.isDigit = false ∧ c ≠ '/' :=
        hrest.forall (by decide) (by decide)
      have habs := Lexeme.found_magnitude q hstop
      rwa [abs_of_nonneg hq] at habs
    rw [htext]
    exact .leaf rfl hfound
  | power e =>
    have htext : (power e).parenthesized = Numeral.power e :=
      Text.map_parenthesis rfl rfl Numeral.isPowerChar_of_mem
    rw [htext]
    refine .leaf rfl fun rest hrest => Lexeme.found_power h.root ?_
    exact hrest.forall (by decide) (by decide)
  | group cs ih =>
    rw [parenthesized_group]
    exact (reads_parenthesizedAll cs fun c hc => ih c hc (h.child hc)).group
  | sum cs => exact h.root.elim
  | product cs => exact h.root.elim

end Node

/-! ## What a text can write -/

namespace Lexeme

/-- Whatever number a lexeme has is not negative. -/
def Nonnegative (x : Lexeme) : Prop := ∀ q literal, x = .token (.number q) literal → 0 ≤ q

theorem nonnegative_whole (digits : List Char) : (whole digits).Nonnegative := by
  rintro _ _ ⟨rfl, rfl⟩
  exact Nat.cast_nonneg _

theorem nonnegative_fraction (numerator denominator : List Char) :
    (fraction numerator denominator).Nonnegative := by
  intro q literal h
  simp only [fraction] at h
  split at h
  next => cases h
  next =>
    obtain ⟨rfl, -⟩ : mkRat _ _ = q ∧ _ := by simpa using h
    rw [Rat.mkRat_eq_div]
    exact div_nonneg (Nat.cast_nonneg _) (Nat.cast_nonneg _)

theorem nonnegative_power (name digits : List Char) : (power name digits).Nonnegative := by
  intro q literal h
  unfold power at h
  split at h
  next => cases h
  next => split at h <;> cases h

theorem nonnegative_sign (c : Char) : (sign c).Nonnegative := by
  intro q literal h
  simp only [sign] at h
  repeat' split at h
  all_goals cases h

theorem nonnegative_scan (c : Char) (rest : List Char) : (scan c rest).1.Nonnegative :=
  forall_scan nonnegative_whole nonnegative_fraction nonnegative_power
    (fun _ _ _ h => by cases h) nonnegative_sign c rest

end Lexeme

namespace Node

theorem mem_tokensAll {t : Token} : ∀ {cs : List Node} {c : Node}, c ∈ cs → t ∈ c.tokens →
    t ∈ tokensAll cs
  | d :: ds, c, hc, ht => by
    rw [tokensAll, List.mem_append]
    rcases List.mem_cons.mp hc with rfl | hmem
    · exact Or.inl ht
    · exact Or.inr (mem_tokensAll hmem ht)

/-- A tree without sums and products is one that a text can write if its tokens are. -/
theorem Unresolved.writable {n : Node} (h : n.Unresolved)
    (hnumber : ∀ q, .number q ∈ n.tokens → 0 ≤ q)
    (hpower : ∀ e, .power e ∈ n.tokens → e ≤ maxExponent) : n.Writable := by
  induction n using Node.induction with
  | marker m => exact forall_subtrees.mpr ⟨trivial, by simp [children]⟩
  | number q => exact forall_subtrees.mpr ⟨hnumber q (List.mem_singleton_self _), by simp [children]⟩
  | power e => exact forall_subtrees.mpr ⟨hpower e (List.mem_singleton_self _), by simp [children]⟩
  | group cs ih =>
    refine forall_subtrees.mpr ⟨trivial, fun c hc => ?_⟩
    have hmem : ∀ t ∈ c.tokens, t ∈ (group cs).tokens := fun t ht =>
      List.mem_append_left _ (List.mem_cons_of_mem _ (mem_tokensAll hc ht))
    exact ih c hc (h.child hc) (fun q hq => hnumber q (hmem _ hq))
      fun e he => hpower e (hmem _ he)
  | sum cs => cases h _ (List.mem_cons_self ..)
  | product cs => cases h _ (List.mem_cons_self ..)

end Node

namespace Source

/-- The tokens of a tree have been read, so each of them is one that can be. -/
theorem writable_of_tree {s : Source} {n : Node} (h : s.tree = .ok n) : n.Writable := by
  obtain ⟨cs, rfl, hunresolved, -⟩ := tokens_of_tree h
  -- No number and no power is one of the parentheses of the tree itself.
  have hitem : ∀ t ∈ (Node.group cs).tokens, t ≠ .openParen → t ≠ .closeParen →
      ∃ i ∈ s.items, i.token = .ok t := by
    intro t ht hopen hclose
    refine exists_item_of_tree h ?_
    rcases List.mem_append.mp ht with hfront | hlast
    · exact (List.mem_cons.mp hfront).resolve_left hopen
    · exact absurd (List.mem_singleton.mp hlast) hclose
  refine hunresolved.writable (fun q hq => ?_) fun e he => ?_
  · obtain ⟨i, hi, htoken⟩ := hitem _ hq (by simp) (by simp)
    obtain ⟨c, rest, literal, hscan⟩ := s.exists_scan_eq i hi _ htoken
    exact Lexeme.nonnegative_scan c rest q literal hscan
  · obtain ⟨i, hi, htoken⟩ := hitem _ he (by simp) (by simp)
    exact s.exponent_le i hi e htoken

/-- **Printing a tree and reading it back.** Take any group of operators, numbers that are
not negative, permitted powers and groups of these, at any depth and with empty groups
among them. Printed, without the brackets around it and with parentheses for all others, it
is a text of which it is the tree. And the tree of any text is such a group. -/
theorem tree_reprint :
    (∀ cs : List Node, (Node.group cs).Writable → ∀ name? : Option String,
      (⟨String.ofList (Node.group cs).reprint, name?⟩ : Source).tree = .ok (.group cs)) ∧
    ∀ (s : Source) (n : Node), s.tree = .ok n → ∃ cs, n = .group cs ∧ n.Writable := by
  refine ⟨fun cs h name? => ?_, fun s n h => ?_⟩
  · have hreads : ∀ c ∈ cs, Nesting.Reads c.parenthesized [c] :=
      fun c hc => (Node.Writable.child h hc).reads
    rw [Node.reprint_group]
    exact (Node.reads_parenthesizedAll cs hreads).tree name?
  · obtain ⟨cs, hcs, -, -⟩ := tokens_of_tree h
    exact ⟨cs, hcs, writable_of_tree h⟩

/-- An empty group, a fraction, and powers that are printed in two ways. -/
theorem tree_reprint_run :
    let n : Node := .group [.group [], .number (1 / 2), .power 1, .marker .minus, .marker .minus,
      .group [.power 0, .group [.power 65535]]]
    n.Writable ∧ String.ofList n.reprint = "() 1/2 x - - (x^0 (x^65535))" ∧
      (⟨"() 1/2 x - - (x^0 (x^65535))", none⟩ : Source).tree = .ok n := by
  intro n
  have hwritable : n.Writable := by decide +kernel
  have htext : String.ofList n.reprint = "() 1/2 x - - (x^0 (x^65535))" := by decide +kernel
  refine ⟨hwritable, htext, ?_⟩
  rw [← htext]
  exact tree_reprint.1 _ hwritable none

end Source

end PolyExpand
