import PolyExpand.Nesting
import PolyExpand.Proofs.NormalForm

/-!
# Balance — which items make a tree, and which tree they make

Whether a text has a tree depends on its parentheses and on the faults in it, and
on nothing else. `verdict` decides it by scanning the items with a stack of the
bytes at which a `(` is still open, without building anything: the first bad
event ends the scan, and at the end of the text an open `(` is a bad event too.

The tree that is built for a good text is the one that reads back as the text:
`Node.tokens` writes a tree as tokens, with a pair of parentheses around every
group.

> `ofItems_eq`: `Node.ofItems` reports what `verdict` finds, and if there is
> nothing to report, it gives a group whose content writes exactly the tokens of
> the items.

The invariant is about what `Nesting` holds at any time: its open groups are the
stack of the scan, and everything it holds, written down with the open
parentheses in place, is the sequence of tokens read so far.
-/

namespace PolyExpand

namespace Node

/-! ## Writing a tree as tokens -/

mutual

/-- The tokens that write a tree. Nothing writes a sum or a product. -/
def tokens : Node → List Token
  | marker m => [.marker m]
  | number q => [.number q]
  | power e => [.power e]
  | group cs => .openParen :: tokensAll cs ++ [.closeParen]
  | sum _ | product _ => []

/-- The tokens that write the trees of a list, one behind the other. -/
def tokensAll : List Node → List Token
  | [] => []
  | c :: cs => tokens c ++ tokensAll cs

end

theorem tokensAll_append : ∀ as bs : List Node,
    tokensAll (as ++ bs) = tokensAll as ++ tokensAll bs
  | [], _ => rfl
  | a :: as, bs => by
    rw [List.cons_append, tokensAll, tokensAll_append as bs, tokensAll, List.append_assoc]

theorem tokensAll_singleton (n : Node) : tokensAll [n] = tokens n := by
  rw [tokensAll, tokensAll, List.append_nil]

end Node

/-- The leaf that a token writes, unless it is a parenthesis. -/
def Token.leaf? : Token → Option Node
  | openParen | closeParen => none
  | marker m => some (.marker m)
  | number q => some (.number q)
  | power e => some (.power e)

theorem Token.tokens_leaf {t : Token} {n : Node} (h : t.leaf? = some n) : n.tokens = [t] := by
  cases t <;> simp [leaf?] at h <;> subst h <;> rfl

theorem Token.unresolved_leaf {t : Token} {n : Node} (h : t.leaf? = some n) :
    n.Unresolved := by
  cases t <;> simp [leaf?] at h <;> subst h <;>
    simp [Node.Unresolved, Node.subtrees, Node.isCompound]

/-! ## Scanning for parentheses -/

/-- What a scan for parentheses ends with. -/
inductive Verdict where
  /-- The lexer found a fault, before anything was wrong with parentheses. -/
  | fault (m : Malformed)
  /-- A `)` at a byte, with no `(` open. -/
  | unmatched (byte : Nat)
  /-- The end of the text, with the last open `(` at a byte. -/
  | unclosed (byte : Nat)
  | balanced
deriving DecidableEq

/-- Scans items, given the bytes of the open `(`, the last one first. -/
def verdict : List Nat → List Item → Verdict
  | opened, [] =>
    match opened with
    | [] => .balanced
    | top :: _ => .unclosed top
  | opened, i :: items =>
    match i.token with
    | .error m => .fault m
    | .ok .openParen => verdict (i.offset :: opened) items
    | .ok .closeParen =>
      match opened with
      | [] => .unmatched i.offset
      | _ :: below => verdict below items
    | .ok (.marker _) | .ok (.number _) | .ok (.power _) => verdict opened items

theorem verdict_leaf {i : Item} {t : Token} {n : Node} (htoken : i.token = .ok t)
    (hleaf : t.leaf? = some n) (opened : List Nat) (items : List Item) :
    verdict opened (i :: items) = verdict opened items := by
  cases t <;> simp [Token.leaf?] at hleaf <;> simp [verdict, htoken]

/-- The report that a verdict asks for, if any. -/
def Verdict.report? : Verdict → Option Malformed
  | fault m => some m
  | unmatched byte => some ⟨.unmatchedClose, ⟨byte, 1⟩⟩
  | unclosed byte => some ⟨.unclosedOpen, ⟨byte, 1⟩⟩
  | balanced => none

namespace Nesting

/-! ## What is held -/

/-- The bytes of the open `(`, the last one first. -/
def opened (s : Nesting) : List Nat := s.frames.map Frame.opened

/-- Everything read so far, written as tokens. -/
def tokens (s : Nesting) : List Token :=
  (s.frames.reverse.flatMap fun f => Node.tokensAll f.before.reverse ++ [.openParen]) ++
    Node.tokensAll s.done.reverse

/-- No sum and no product is held. -/
def Unresolved (s : Nesting) : Prop :=
  (∀ n ∈ s.done, n.Unresolved) ∧ ∀ f ∈ s.frames, ∀ n ∈ f.before, n.Unresolved

theorem tokens_push (s : Nesting) (n : Node) : (s.push n).tokens = s.tokens ++ n.tokens := by
  simp only [tokens, push, List.reverse_cons, Node.tokensAll_append, Node.tokensAll_singleton,
    List.append_assoc]

theorem tokens_opening (s : Nesting) (byte : Nat) :
    (s.opening byte).tokens = s.tokens ++ [.openParen] := by
  simp [tokens, opening, Node.tokensAll]

theorem step_leaf {s : Nesting} {i : Item} {t : Token} {n : Node} (htoken : i.token = .ok t)
    (hleaf : t.leaf? = some n) : s.step i = .ok (s.push n) := by
  cases t <;> simp [Token.leaf?] at hleaf <;> simp [step, htoken, hleaf]

theorem opened_closing {s s' : Nesting} {byte : Nat} (h : s.closing byte = .ok s') :
    ∃ top, s.opened = top :: s'.opened := by
  obtain ⟨done, frames⟩ := s
  cases frames with
  | nil => simp [closing] at h
  | cons f frames =>
    obtain rfl : _ = s' := Except.ok.inj h
    exact ⟨f.opened, rfl⟩

theorem opened_of_closing_error {s : Nesting} {byte : Nat} {m : Malformed}
    (h : s.closing byte = .error m) : s.opened = [] ∧ m = ⟨.unmatchedClose, ⟨byte, 1⟩⟩ := by
  obtain ⟨done, frames⟩ := s
  cases frames with
  | nil => exact ⟨rfl, (Except.error.inj h).symm⟩
  | cons f frames => simp [closing] at h

theorem tokens_closing {s s' : Nesting} {byte : Nat} (h : s.closing byte = .ok s') :
    s'.tokens = s.tokens ++ [.closeParen] := by
  obtain ⟨done, frames⟩ := s
  cases frames with
  | nil => simp [closing] at h
  | cons f frames =>
    obtain rfl : _ = s' := Except.ok.inj h
    simp [tokens, Node.tokensAll_append, Node.tokensAll_singleton, Node.tokens]

theorem Unresolved.push {s : Nesting} {n : Node} (h : s.Unresolved) (hn : n.Unresolved) :
    (s.push n).Unresolved :=
  ⟨List.forall_mem_cons.mpr ⟨hn, h.1⟩, h.2⟩

theorem Unresolved.opening {s : Nesting} (h : s.Unresolved) (byte : Nat) :
    (s.opening byte).Unresolved :=
  ⟨by simp [Nesting.opening], List.forall_mem_cons.mpr ⟨h.1, h.2⟩⟩

theorem Unresolved.closing {s s' : Nesting} {byte : Nat} (h : s.Unresolved)
    (hclosing : s.closing byte = .ok s') : s'.Unresolved := by
  obtain ⟨done, frames⟩ := s
  cases frames with
  | nil => simp [Nesting.closing] at hclosing
  | cons f frames =>
    obtain rfl : _ = s' := Except.ok.inj hclosing
    obtain ⟨hbefore, hframes⟩ := List.forall_mem_cons.mp h.2
    have hgroup : (Node.group done.reverse).Unresolved :=
      Node.forall_subtrees.mpr ⟨rfl, fun c hc => h.1 c (List.mem_reverse.mp hc)⟩
    exact ⟨List.forall_mem_cons.mpr ⟨hgroup, hbefore⟩, hframes⟩

/-! ## The invariant -/

/-- Takes the items one by one, and ends. -/
def run (s : Nesting) (items : List Item) : Except Malformed (List Node) := do
  (← items.foldlM step s).finish

theorem run_cons (s : Nesting) (i : Item) (items : List Item) :
    s.run (i :: items) = s.step i >>= fun s' => s'.run items := by
  simp only [run, List.foldlM_cons, bind_assoc]

/-- Reads a text to its end, from where the cursor stands. -/
def read (s : Nesting) (k : Cursor) : Except Malformed (List Node) := s.run k.readAll.1

theorem read_of_next_none {k k' : Cursor} (h : k.next = (none, k')) (s : Nesting) :
    s.read k = s.finish := by
  rw [read, Cursor.readAll_of_next_none h]
  rfl

theorem read_of_next_some {k k' : Cursor} {i : Item} (h : k.next = (some i, k')) (s : Nesting) :
    s.read k = s.step i >>= fun s' => s'.read k' := by
  rw [read, Cursor.readAll_of_next_some h, run_cons]
  rfl

/-- What a run from a state ought to end with, given the report that is due. -/
def Due (s : Nesting) (items : List Item) (result : Except Malformed (List Node)) :
    Option Malformed → Prop
  | some m => result = .error m
  | none => ∃ cs ts, result = .ok cs ∧ (∀ c ∈ cs, c.Unresolved) ∧
      items.map Item.token = ts.map .ok ∧ Node.tokensAll cs = s.tokens ++ ts

/-- What is due after a token that was taken is due before it. -/
theorem Due.cons {s s' : Nesting} {i : Item} {t : Token} {items : List Item}
    {result : Except Malformed (List Node)} {m? : Option Malformed} (htoken : i.token = .ok t)
    (htokens : s'.tokens = s.tokens ++ [t]) (h : Due s' items result m?) :
    Due s (i :: items) result m? := by
  cases m? with
  | some m => exact h
  | none =>
    obtain ⟨cs, ts, hresult, hcs, hitems, hwritten⟩ := h
    refine ⟨cs, t :: ts, hresult, hcs, ?_, ?_⟩
    · rw [List.map_cons, htoken, hitems, List.map_cons]
    · rw [hwritten, htokens, List.append_assoc, List.singleton_append]

/-- **A run reports what the scan finds** from the same stack. If the scan finds
nothing, then what was read writes what was held and the tokens of the items. -/
theorem run_due : ∀ (items : List Item) (s : Nesting), s.Unresolved →
    Due s items (s.run items) (verdict s.opened items).report?
  | [], s, hs => by
    obtain ⟨done, frames⟩ := s
    cases frames with
    | nil =>
      -- Nothing is open, so what is held is the whole list.
      exact ⟨done.reverse, [], rfl, fun c hc => hs.1 c (List.mem_reverse.mp hc), rfl,
        by simp [tokens]⟩
    | cons f frames => exact rfl
  | i :: items, s, hs => by
    rw [run_cons]
    cases htoken : i.token with
    | error m => simp [verdict, htoken, Verdict.report?, Due, step, bind, Except.bind]
    | ok t =>
      cases hleaf : t.leaf? with
      | some n =>
        have ih := run_due items (s.push n) (hs.push (Token.unresolved_leaf hleaf))
        rw [step_leaf htoken hleaf, verdict_leaf htoken hleaf]
        exact ih.cons htoken (by rw [tokens_push, Token.tokens_leaf hleaf])
      | none =>
        cases t with
        | marker m => exact absurd hleaf (by simp [Token.leaf?])
        | number q => exact absurd hleaf (by simp [Token.leaf?])
        | power e => exact absurd hleaf (by simp [Token.leaf?])
        | openParen =>
          have hstep : s.step i = .ok (s.opening i.offset) := by simp [step, htoken]
          have hverdict : verdict s.opened (i :: items) =
              verdict (s.opening i.offset).opened items := by
            simp [verdict, htoken, opening, opened]
          rw [hstep, hverdict]
          exact (run_due items _ (hs.opening i.offset)).cons htoken (tokens_opening s i.offset)
        | closeParen =>
          have hstep : s.step i = s.closing i.offset := by simp [step, htoken]
          -- The state and the scan agree on whether there is something to close.
          cases hclosing : s.closing i.offset with
          | error m =>
            obtain ⟨hopened, rfl⟩ := opened_of_closing_error hclosing
            rw [hstep, hclosing, hopened]
            simp [verdict, htoken, Verdict.report?, Due, bind, Except.bind]
          | ok s' =>
            obtain ⟨top, hopened⟩ := opened_closing hclosing
            have hverdict : verdict s.opened (i :: items) = verdict s'.opened items := by
              simp [verdict, htoken, hopened]
            rw [hstep, hclosing, hverdict]
            exact (run_due items s' (hs.closing hclosing)).cons htoken (tokens_closing hclosing)

end Nesting

theorem Node.ofItems_eq_run (items : List Item) :
    Node.ofItems items = (Nesting.empty.run items).map Node.group := by
  unfold Node.ofItems Nesting.run
  cases items.foldlM Nesting.step Nesting.empty with
  | error m => rfl
  | ok s =>
    show (s.finish >>= fun cs => pure (Node.group cs)) = s.finish.map Node.group
    cases s.finish <;> rfl

/-- **The tree of a sequence of items**: a report of what the scan finds, or else
a group that writes exactly the tokens of the items. -/
theorem Node.ofItems_eq (items : List Item) :
    match (verdict [] items).report? with
    | some m => Node.ofItems items = .error m
    | none => ∃ cs, Node.ofItems items = .ok (.group cs) ∧ (Node.group cs).Unresolved ∧
        items.map Item.token = (tokensAll cs).map .ok := by
  have hrun := Node.ofItems_eq_run items
  have hdue := Nesting.run_due items .empty ⟨by simp [Nesting.empty], by simp [Nesting.empty]⟩
  rw [show Nesting.empty.opened = [] from rfl] at hdue
  cases hreport : (verdict [] items).report? with
  | some m =>
    rw [hreport] at hdue
    rw [hrun, show _ = Except.error m from hdue]
    rfl
  | none =>
    rw [hreport] at hdue
    obtain ⟨cs, ts, hcs, hunresolved, htokens, hwritten⟩ := hdue
    refine ⟨cs, by rw [hrun, hcs]; rfl, Node.forall_subtrees.mpr ⟨rfl, hunresolved⟩, ?_⟩
    rw [htokens, hwritten]
    rfl

end PolyExpand
