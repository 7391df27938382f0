import PolyExpand.Proofs.LineBreaks
import PolyExpand.Proofs.Safety
import PolyExpand.Proofs.Tiling

/-!
# Agreement — four commands, one answer

The listing of tokens is printed while the text is read, and stops at the first
fault (`Outcome.ofItems_eq`). The other three commands print one line or nothing,
and which of the two it is does not depend on the command. A text has a tree if it
has no fault and its parentheses balance (`verdict_eq_balanced_iff`), and whatever
has a tree has a polynomial.

What is printed really is made of lines. Neither the printed form of a tree nor that
of a polynomial has a line feed in it, and no literal has one, because the text that
it is taken from has none left after its lines were joined.

> `Invocation.outcomes_agree`: how each of the four commands ends, and which lines
> it has printed then.
-/

namespace PolyExpand

open Text

/-! ## Parentheses -/

/-- The parentheses balance if `opened` of them are open already: nothing is closed
that is not open, and in the end nothing is. -/
structure BalancedFrom (opened : Nat) (ts : List Token) : Prop where
  enough : ∀ front, front <+: ts → front.count .closeParen ≤ opened + front.count .openParen
  settled : ts.count .closeParen = opened + ts.count .openParen

/-- The parentheses balance: no front part closes more of them than it opens, and
the whole closes as many. -/
structure Balanced (ts : List Token) : Prop where
  enough : ∀ front, front <+: ts → front.count .closeParen ≤ front.count .openParen
  settled : ts.count .closeParen = ts.count .openParen

theorem balancedFrom_zero_iff {ts : List Token} : BalancedFrom 0 ts ↔ Balanced ts := by
  constructor
  · rintro ⟨henough, hsettled⟩
    simp only [Nat.zero_add] at henough hsettled
    exact ⟨henough, hsettled⟩
  · rintro ⟨henough, hsettled⟩
    constructor
    · simpa only [Nat.zero_add] using henough
    · simpa only [Nat.zero_add] using hsettled

theorem balancedFrom_nil_iff {opened : Nat} : BalancedFrom opened [] ↔ opened = 0 := by
  constructor
  · intro h
    simpa using h.settled.symm
  · rintro rfl
    exact balancedFrom_zero_iff.mpr ⟨fun front h => by simp [List.prefix_nil.mp h], rfl⟩

/-- **One token** opens a parenthesis, or closes one that is open, or does neither. -/
theorem balancedFrom_cons_iff {opened : Nat} {t : Token} {ts : List Token} :
    BalancedFrom opened (t :: ts) ↔
      [t].count .closeParen ≤ opened + [t].count .openParen ∧
      BalancedFrom (opened + [t].count .openParen - [t].count .closeParen) ts := by
  have hcount : ∀ (u : Token) (us : List Token), (t :: us).count u = [t].count u + us.count u := by
    intro u us
    rw [← List.count_append, List.singleton_append]
  constructor
  · rintro ⟨henough, hsettled⟩
    have hfirst := henough [t] (List.prefix_append [t] ts)
    refine ⟨hfirst, ⟨fun front hfront => ?_, ?_⟩⟩
    · have hmore := henough (t :: front) ((List.prefix_cons_inj t).mpr hfront)
      rw [hcount, hcount .openParen] at hmore
      omega
    · rw [hcount, hcount .openParen] at hsettled
      omega
  · rintro ⟨hfirst, henough, hsettled⟩
    refine ⟨fun front hfront => ?_, ?_⟩
    · obtain rfl | ⟨more, rfl, hmore⟩ := List.prefix_cons_iff.mp hfront
      · simp
      · have hle := henough more hmore
        rw [hcount, hcount .openParen]
        omega
    · rw [hcount, hcount .openParen]
      omega

/-! ## Tokens in front of the first fault -/

/-- The tokens in front of the first fault, each with its literal. -/
def legible : List Item → List (Token × List Char)
  | [] => []
  | i :: items =>
    match i.token with
    | .error _ => []
    | .ok t => (t, i.lexeme.segment) :: legible items

/-- No item is a fault. -/
def Faultless (items : List Item) : Prop := ∀ i ∈ items, ∃ t, i.token = .ok t

theorem faultless_cons {i : Item} {t : Token} {items : List Item} (h : i.token = .ok t) :
    Faultless (i :: items) ↔ Faultless items :=
  ⟨fun hall => (List.forall_mem_cons.mp hall).2,
    fun hall => List.forall_mem_cons.mpr ⟨⟨t, h⟩, hall⟩⟩

theorem not_faultless_cons {i : Item} {m : Malformed} {items : List Item} (h : i.token = .error m) :
    ¬ Faultless (i :: items) := by
  intro hall
  obtain ⟨t, ht⟩ := (List.forall_mem_cons.mp hall).1
  rw [h] at ht
  cases ht

theorem legible_cons {i : Item} {t : Token} (h : i.token = .ok t) (items : List Item) :
    legible (i :: items) = (t, i.lexeme.segment) :: legible items := by
  rw [legible, h]

theorem exists_item_of_mem_legible {t : Token × List Char} :
    ∀ {items : List Item}, t ∈ legible items → ∃ i ∈ items, t.2 = i.lexeme.segment
  | [], h => nomatch h
  | i :: items, h => by
    cases htoken : i.token with
    | error m =>
      rw [legible, htoken] at h
      cases h
    | ok u =>
      rw [legible_cons htoken] at h
      obtain rfl | h := List.mem_cons.mp h
      · exact ⟨i, List.mem_cons_self, rfl⟩
      · obtain ⟨j, hj, hliteral⟩ := exists_item_of_mem_legible h
        exact ⟨j, List.mem_cons_of_mem i hj, hliteral⟩

/-- **The scan finds nothing wrong** in items without a fault whose parentheses
balance, and in no others. -/
theorem verdict_eq_balanced_iff : ∀ (items : List Item) (opened : List Nat),
    verdict opened items = .balanced ↔
      Faultless items ∧ BalancedFrom opened.length ((legible items).map Prod.fst)
  | [], opened => by
    have hfaultless : Faultless [] := fun i hi => nomatch hi
    cases opened <;> simp [verdict, legible, balancedFrom_nil_iff, hfaultless]
  | i :: items, opened => by
    cases htoken : i.token with
    | error m => simp [verdict, htoken, not_faultless_cons htoken]
    | ok t =>
      rw [faultless_cons htoken, legible_cons htoken, List.map_cons, balancedFrom_cons_iff]
      have ih := verdict_eq_balanced_iff items
      cases t with
      | openParen => simp [verdict, htoken, ih]
      | closeParen =>
        cases opened with
        | nil => simp [verdict, htoken]
        | cons top below => simp [verdict, htoken, ih]
      | marker m => simp [verdict, htoken, ih]
      | number q => simp [verdict, htoken, ih]
      | power e => simp [verdict, htoken, ih]

theorem Verdict.report?_eq_none_iff {v : Verdict} : v.report? = none ↔ v = .balanced := by
  cases v <;> simp [report?]

/-- A text has a tree if the lexer finds no fault in it and its parentheses balance. -/
theorem Source.exists_tree_iff (s : Source) :
    (∃ n, s.tree = .ok n) ↔
      Faultless s.items ∧ Balanced ((legible s.items).map Prod.fst) := by
  have hverdict := verdict_eq_balanced_iff s.items []
  rw [List.length_nil, balancedFrom_zero_iff] at hverdict
  rw [← hverdict, ← Verdict.report?_eq_none_iff]
  have hofItems := Node.ofItems_eq s.items
  cases hreport : (verdict [] s.items).report? with
  | none =>
    rw [hreport] at hofItems
    obtain ⟨cs, hcs, -⟩ := hofItems
    simpa using ⟨_, hcs⟩
  | some m =>
    rw [hreport] at hofItems
    have htree : s.tree = .error m := hofItems
    simp [htree]

/-! ## Nothing printed has a line feed in it -/

section OneLine

theorem newline_not_mem_intercalate {sep : List Char} (hsep : '\n' ∉ sep) :
    ∀ {lines : List (List Char)}, (∀ l ∈ lines, '\n' ∉ l) → '\n' ∉ sep.intercalate lines
  | [], _ => List.not_mem_nil
  | [line], h => by simpa using h
  | line :: next :: lines, h => by
    obtain ⟨hline, hmore⟩ := List.forall_mem_cons.mp h
    have ih := newline_not_mem_intercalate hsep hmore
    simp [List.intercalate_cons_cons, hline, hsep, ih]

namespace Numeral

theorem newline_not_mem_digits (n : Nat) : '\n' ∉ digits n :=
  fun h => absurd (isDigit_of_mem_digits h) (by decide)

theorem newline_not_mem_magnitude (q : Rat) : '\n' ∉ magnitude q := by
  unfold magnitude
  split <;> simp [newline_not_mem_digits]

theorem newline_not_mem_rational (q : Rat) : '\n' ∉ rational q := by
  unfold rational
  split <;> simp [newline_not_mem_magnitude]

theorem newline_not_mem_power (e : Nat) : '\n' ∉ power e := by
  unfold power
  split <;> simp [newline_not_mem_digits]

end Numeral

open Numeral

theorem Node.newline_not_mem_text (n : Node) : '\n' ∉ n.text := by
  have hall : ∀ cs : List Node, (∀ c ∈ cs, '\n' ∉ c.text) →
      '\n' ∉ [' '].intercalate (textAll cs) := by
    intro cs hcs
    refine newline_not_mem_intercalate (by decide) ?_
    rw [textAll_eq_map]
    exact List.forall_mem_map.mpr hcs
  induction n using Node.induction with
  | marker m => cases m <;> decide
  | number q => exact newline_not_mem_rational q
  | power e => exact newline_not_mem_power e
  | group cs ih => simp [text, hall cs ih]
  | sum cs ih => simp [text, hall cs ih]
  | product cs ih => simp [text, hall cs ih]

theorem Term.newline_not_mem_unsigned (t : Term) : '\n' ∉ t.unsigned := by
  unfold unsigned
  split
  next => exact newline_not_mem_magnitude t.coefficient
  next =>
    split
    next => exact newline_not_mem_power t.exponent
    next => simp [newline_not_mem_magnitude, newline_not_mem_power]

theorem DensePoly.newline_not_mem_text (p : DensePoly) : '\n' ∉ p.text := by
  have hleading : ∀ t : Term, '\n' ∉ t.leadingText := by
    intro t
    unfold Term.leadingText
    split <;> simp [t.newline_not_mem_unsigned]
  have hfollowing : ∀ t : Term, '\n' ∉ t.followingText := by
    intro t
    unfold Term.followingText
    split <;> simp [t.newline_not_mem_unsigned]
  unfold text
  split
  next => exact List.not_mem_nil
  next t ts _ => simp [hleading, hfollowing]

theorem Token.newline_not_mem_line (t : Token) {literal : List Char} (h : '\n' ∉ literal) :
    '\n' ∉ t.line literal := by
  have hkind : '\n' ∉ t.kind.toList := by
    cases t with
    | openParen | closeParen => decide
    | marker m => cases m <;> decide
    | number q => exact (by decide : '\n' ∉ "NUMBER".toList)
    | power e => exact (by decide : '\n' ∉ "VARIABLE".toList)
  have hvalue : '\n' ∉ t.valueText := by
    cases t with
    | number q => exact newline_not_mem_rational q
    | power e => exact newline_not_mem_digits e
    | openParen | closeParen | marker => exact (by decide : '\n' ∉ "null".toList)
  simp [line, hkind, h, hvalue]

end OneLine

/-- A literal is taken from the text. -/
theorem Source.segment_subset {s : Source} {i : Item} (hi : i ∈ s.items) :
    i.lexeme.segment ⊆ s.text.toList := by
  obtain ⟨gaps, last, hitems, -, -, htext⟩ := Cursor.exists_tiles (Cursor.start s.text.toList)
  have hi' : i ∈ gaps.map Prod.snd := hitems ▸ hi
  obtain ⟨g, hg, rfl⟩ := List.mem_map.mp hi'
  intro c hc
  rw [show s.text.toList = _ from htext, List.mem_append, List.mem_flatMap]
  exact Or.inl ⟨g, hg, List.mem_append_right _ hc⟩

/-! ## What each command prints -/

/-- The listing of items: a line for each token in front of the first fault. -/
def listing (items : List Item) : List (List Char) :=
  (legible items).map fun t => t.1.line t.2

namespace Outcome

/-- What is printed is these lines, one after the other. -/
structure Prints (o : Outcome) (lines : List (List Char)) : Prop where
  output_eq : o.output = lines.flatMap (· ++ ['\n'])
  unbroken : ∀ l ∈ lines, '\n' ∉ l

theorem prints_line {text : List Char} (h : '\n' ∉ text) : (line text).Prints [text] :=
  ⟨by simp [line], by simpa using h⟩

/-- **A listing** ends with success behind a last line, if there is no fault, and
with failure at the first one. -/
theorem ofItems_eq : ∀ items : List Item,
    (Faultless items ∧ ofItems items =
      ⟨.success, (listing items ++ ["EOF  null".toList]).flatMap (· ++ ['\n'])⟩) ∨
    (¬ Faultless items ∧ ofItems items = ⟨.failure, (listing items).flatMap (· ++ ['\n'])⟩)
  | [] => Or.inl ⟨(fun i hi => nomatch hi), rfl⟩
  | i :: items => by
    cases htoken : i.token with
    | error m =>
      refine Or.inr ⟨not_faultless_cons htoken, ?_⟩
      simp [ofItems, htoken, listing, legible, silent]
    | ok t =>
      rw [faultless_cons htoken, listing, legible_cons htoken]
      obtain ⟨hfaultless, hrest⟩ | ⟨hfaulty, hrest⟩ := ofItems_eq items
      · refine Or.inl ⟨hfaultless, ?_⟩
        simp [ofItems, htoken, hrest, listing]
      · refine Or.inr ⟨hfaulty, ?_⟩
        simp [ofItems, htoken, hrest, listing]

end Outcome

namespace Command

/-- If there is no tree, all commands but the listing fail, and print nothing. -/
theorem outcome_of_error {s : Source} {m : Malformed} (h : s.tree = .error m) {c : Command}
    (hc : c ≠ .lex) : c.outcome s = .silent .failure := by
  obtain ⟨hresolved, hexpanded⟩ := Source.views_of_error h
  cases c with
  | eval => simp only [outcome, hexpanded]
  | lex => exact absurd rfl hc
  | tokenize => simp only [outcome, h]; rfl
  | resolve => simp only [outcome, hresolved]; rfl

/-- If there is a tree, it is printed as it was read, or resolved, or evaluated. -/
theorem outcome_of_tree {s : Source} {n : Node} (hsize : s.text.utf8ByteSize < 2 ^ 48)
    (h : s.tree = .ok n) : ∃ p, n.evaluate = .ok p ∧
      tokenize.outcome s = .line n.text ∧ resolve.outcome s = .line n.resolve.text ∧
      eval.outcome s = .line p.text := by
  obtain ⟨p, hp, -⟩ := Source.expanded_of_tree hsize h
  have hresolved : s.resolved = .ok n.resolve := by
    rw [Source.resolved, h]
    rfl
  have hvalue : n.resolve.evaluate = .ok p := by
    rw [Source.expanded, hresolved] at hp
    exact Except.ok.inj hp
  refine ⟨p, n.evaluate_resolve ▸ hvalue, ?_, ?_, ?_⟩
  · simp only [outcome, h]; rfl
  · simp only [outcome, hresolved]; rfl
  · simp only [outcome, hp]

/-- **The listing of a text** without line feeds, as lines. -/
theorem outcome_lex {s : Source} (hunbroken : '\n' ∉ s.text.toList) :
    ((lex.outcome s).status = .success ∧ Faultless s.items ∧
      (lex.outcome s).Prints (listing s.items ++ ["EOF  null".toList])) ∨
    ((lex.outcome s).status = .failure ∧ ¬ Faultless s.items ∧
      (lex.outcome s).Prints (listing s.items)) := by
  have hlines : ∀ l ∈ listing s.items, '\n' ∉ l := by
    refine List.forall_mem_map.mpr fun t ht => t.1.newline_not_mem_line ?_
    obtain ⟨i, hi, hliteral⟩ := exists_item_of_mem_legible ht
    exact fun hmem => hunbroken (Source.segment_subset hi (hliteral ▸ hmem))
  obtain ⟨hfaultless, hlisted⟩ | ⟨hfaulty, hlisted⟩ := Outcome.ofItems_eq s.items
  · refine Or.inl ⟨congrArg Outcome.status hlisted, hfaultless, congrArg Outcome.output hlisted, ?_⟩
    rw [List.forall_mem_append]
    exact ⟨hlines, List.forall_mem_singleton.mpr (by decide)⟩
  · exact Or.inr ⟨congrArg Outcome.status hlisted, hfaulty, congrArg Outcome.output hlisted, hlines⟩

end Command

theorem Text.byteSize_le_of_sublist {as bs : List Char} (h : as.Sublist bs) :
    byteSize as ≤ byteSize bs := by
  induction h with
  | slnil => exact Nat.le_refl _
  | cons c _ ih => exact Nat.le_trans ih (Nat.le_add_left _ _)
  | cons_cons c _ ih => exact Nat.add_le_add_left ih _

namespace Input

theorem length_encode : ∀ text : List Char, (encode text).length = byteSize text
  | [] => rfl
  | c :: text => by
    rw [encode, List.flatMap_cons, List.length_append, String.length_utf8EncodeChar, byteSize_cons,
      ← length_encode text, encode]

theorem byteSize_joinLines_le (text : List Char) :
    byteSize (joinLines (text.splitOn '\n')) ≤ byteSize text :=
  byteSize_le_of_sublist ((joinLines_sublist text).trans List.filter_sublist)

theorem newline_not_mem_joinLines (text : List Char) : '\n' ∉ joinLines (text.splitOn '\n') :=
  fun h => by simpa using (joinLines_sublist text).subset h

end Input

namespace Invocation

/-- **The commands agree.** The listing has one line for each token in front of the
first fault, and a last one if there is no fault; only then it ends with success. If
it does, and the parentheses balance, the other three commands end with success too:
they print the tree, the same tree resolved, and the polynomial that it evaluates to,
on one line each. Otherwise all three fail, and print nothing. -/
theorem outcomes_agree {bytes : List UInt8} {text : List Char}
    (hdecode : Input.decode bytes = some text) (hsize : bytes.length < 2 ^ 48)
    (file? : Option String) :
    let run (c : Command) : Outcome := outcome (some bytes) (.view c file?)
    let s : Source := ⟨String.ofList (Input.joinLines (text.splitOn '\n')), file?⟩
    let accepted : Prop :=
      (run .lex).status.code = 0 ∧ Balanced ((legible s.items).map Prod.fst)
    (((run .lex).status.code = 0 ∧ Faultless s.items ∧
        (run .lex).Prints (listing s.items ++ ["EOF  null".toList])) ∨
      ((run .lex).status.code = 1 ∧ ¬ Faultless s.items ∧
        (run .lex).Prints (listing s.items))) ∧
    ((accepted ∧ (∀ c ≠ .lex, (run c).status.code = 0) ∧
        ∃ n p, s.tree = .ok n ∧ n.evaluate = .ok p ∧ (run .tokenize).Prints [n.text] ∧
          (run .resolve).Prints [n.resolve.text] ∧ (run .eval).Prints [p.text]) ∨
      (¬ accepted ∧ ∀ c ≠ .lex, (run c).status.code = 1 ∧ (run c).output = [])) := by
  intro run s accepted
  obtain rfl : bytes = Input.encode text := Input.decode_eq_some_iff.mp hdecode
  have hrun : ∀ c, run c = c.outcome s := fun c =>
    (outcome_encode text c file?).trans (c.outcome_unnamed s.text file?).symm
  have hbytes : s.text.utf8ByteSize < 2 ^ 48 := by
    have hle := Input.byteSize_joinLines_le text
    rw [Input.length_encode] at hsize
    rw [← byteSize_toList, String.toList_ofList]
    omega
  have hunbroken : '\n' ∉ s.text.toList := by
    rw [String.toList_ofList]
    exact Input.newline_not_mem_joinLines text
  have hlex := Command.outcome_lex hunbroken
  have hcode : (run .lex).status.code = 0 ↔ Faultless s.items := by
    rw [hrun]
    obtain ⟨hstatus, hfaults, -⟩ | ⟨hstatus, hfaults, -⟩ := hlex <;>
      simp [hstatus, hfaults, Status.code]
  have haccepted : accepted ↔ ∃ n, s.tree = .ok n := by
    rw [Source.exists_tree_iff, ← hcode]
  constructor
  · rw [hrun]
    obtain ⟨hstatus, hlisted⟩ | ⟨hstatus, hlisted⟩ := hlex
    · exact Or.inl ⟨congrArg Status.code hstatus, hlisted⟩
    · exact Or.inr ⟨congrArg Status.code hstatus, hlisted⟩
  cases htree : s.tree with
  | ok n =>
    obtain ⟨p, hp, htokenize, hresolve, heval⟩ := Command.outcome_of_tree hbytes htree
    refine Or.inl ⟨haccepted.mpr ⟨n, htree⟩, fun c hc => ?_, n, p, rfl, hp, ?_, ?_, ?_⟩
    · rw [hrun]
      cases c with
      | eval => rw [heval]; rfl
      | lex => exact absurd rfl hc
      | tokenize => rw [htokenize]; rfl
      | resolve => rw [hresolve]; rfl
    · rw [hrun, htokenize]
      exact Outcome.prints_line n.newline_not_mem_text
    · rw [hrun, hresolve]
      exact Outcome.prints_line n.resolve.newline_not_mem_text
    · rw [hrun, heval]
      exact Outcome.prints_line p.newline_not_mem_text
  | error m =>
    refine Or.inr ⟨fun h => ?_, fun c hc => ?_⟩
    · obtain ⟨n, hn⟩ := haccepted.mp h
      rw [htree] at hn
      cases hn
    · rw [hrun, Command.outcome_of_error htree hc]
      exact ⟨rfl, rfl⟩

/-- All tokens of a text are listed although a parenthesis is open at its end. If it is closed
on one more line, the other commands print a line each. -/
theorem outcomes_agree_when_closed :
    let run (text : List Char) (c : Command) : Outcome :=
      outcome (some (Input.encode text)) (.view c none)
    let opened := "1/\r\n2(x\n".toList
    let closed := "1/\r\n2(x\n-3)".toList
    (run opened .lex).Prints (["NUMBER 1/2 1/2", "LEFT_PAREN ( null", "VARIABLE x 1",
      "EOF  null"].map String.toList) ∧
    (∀ c ≠ .lex, (run opened c).status.code = 1 ∧ (run opened c).output = []) ∧
    (∀ c ≠ .lex, (run closed c).status.code = 0) ∧
    (run closed .tokenize).Prints ["[1/2 [x - 3]]".toList] ∧
    (run closed .resolve).Prints ["(* 1/2 (+ x (* -1 3)))".toList] ∧
    (run closed .eval).Prints ["1/2x - 3/2".toList] := by
  intro run opened closed
  obtain ⟨hlex, hothers⟩ := outcomes_agree (Input.decode_encode opened) (by decide +kernel) none
  have hlisting : listing (Source.items ⟨String.ofList (Input.joinLines
      (opened.splitOn '\n')), none⟩) =
        ["NUMBER 1/2 1/2", "LEFT_PAREN ( null", "VARIABLE x 1"].map String.toList := by
    decide +kernel
  have hcode : (run opened .lex).status.code = 0 := by decide +kernel
  refine ⟨?_, ?_, ?_⟩
  · obtain ⟨-, -, hprints⟩ | ⟨hfailed, -⟩ := hlex
    · rwa [hlisting] at hprints
    · cases hcode.symm.trans hfailed
  · obtain ⟨⟨-, hbalanced⟩, -⟩ | ⟨-, hsilent⟩ := hothers
    · exact absurd hbalanced.settled (by decide +kernel)
    · exact hsilent
  obtain ⟨-, hclosed⟩ := outcomes_agree (Input.decode_encode closed) (by decide +kernel) none
  have hcode' : (run closed .eval).status.code = 0 := by decide +kernel
  obtain ⟨-, hsuccess, n, p, hn, hp, htokenize, hresolve, heval⟩ | ⟨-, hsilent⟩ := hclosed
  · let m : Node := .group [.number (1 / 2), .group [.power 1, .marker .minus, .number 3]]
    have hm : (⟨String.ofList (Input.joinLines (closed.splitOn '\n')), none⟩ : Source).tree =
        .ok m := by decide +kernel
    obtain rfl : m = n := Except.ok.inj (hm.symm.trans hn)
    have hq : m.evaluate = .ok (.ofList [-3 / 2, 1 / 2]) := by decide +kernel
    obtain rfl := Except.ok.inj (hq.symm.trans hp)
    have htree : m.text = "[1/2 [x - 3]]".toList := by decide +kernel
    have hresolved : m.resolve.text = "(* 1/2 (+ x (* -1 3)))".toList := by decide +kernel
    have hvalue : (DensePoly.ofList [-3 / 2, 1 / 2]).text = "1/2x - 3/2".toList := by
      decide +kernel
    rw [htree] at htokenize
    rw [hresolved] at hresolve
    rw [hvalue] at heval
    exact ⟨hsuccess, htokenize, hresolve, heval⟩
  · cases hcode'.symm.trans (hsilent .eval (by decide)).1

end Invocation

end PolyExpand
