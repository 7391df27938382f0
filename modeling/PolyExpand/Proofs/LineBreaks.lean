import PolyExpand.Outcome
import PolyExpand.Proofs.CommandLine

/-!
# Line breaks — one text, however it is broken and wherever it comes from

Breaks are no part of an expression: the lines are joined with nothing between them.
So a text may be broken anywhere, with a carriage return or without, and a break at
the end may be there or not.

> `Input.joinLines_broken`: what breaks were put into is what joining gives back.

A file is decoded and then split, a stream is split and then decoded. That makes no
difference, whatever the bytes are, because the byte of a line feed is in no
encoding but that of a line feed (`Input.lineFeed_mem_utf8EncodeChar`). Splitting
the encoding of a text is encoding the lines (`Input.splitOn_encode`), and if every
line can be decoded, so can the whole.

> `Input.ofStream_eq_ofFile`, and for what the program prints, whatever the command
> line is that asks for it, `Invocation.outcome_of_lines`.
-/

namespace PolyExpand

namespace Input

/-! ## Encoding -/

/-- The bytes of a text. -/
def encode (text : List Char) : List UInt8 := text.flatMap String.utf8EncodeChar

theorem encode_append (xs ys : List Char) : encode (xs ++ ys) = encode xs ++ encode ys :=
  List.flatMap_append

@[simp] theorem decode_encode (text : List Char) : decode (encode text) = some text :=
  decode_eq_some_iff.mpr rfl

theorem encode_newline (text : List Char) : encode ('\n' :: text) = lineFeed :: encode text := rfl

theorem lineFeed_ne_ofNat {n : Nat} (hlow : 128 ≤ n) (hhigh : n < 256) :
    lineFeed ≠ UInt8.ofNat n := by
  intro heq
  have hn : lineFeed.toNat = n := by
    rw [heq, UInt8.toNat_ofNat', Nat.mod_eq_of_lt hhigh]
  have hten : lineFeed.toNat = 10 := rfl
  omega

/-- The byte of a line feed encodes a line feed, and is no part of any other encoding. -/
theorem lineFeed_mem_utf8EncodeChar {c : Char} :
    lineFeed ∈ String.utf8EncodeChar c ↔ c = '\n' := by
  constructor
  · intro h
    rw [String.utf8EncodeChar] at h
    split at h
    next =>
      have hval : c.val.toNat = 10 := by
        have hbyte := congrArg UInt8.toNat (List.mem_singleton.mp h)
        rw [UInt8.toNat_ofNat', Nat.mod_eq_of_lt (by omega)] at hbyte
        exact hbyte.symm
      exact Char.ext (UInt32.toNat_inj.mp hval)
    next =>
      -- An encoding of two, three or four bytes: all of them are at least 128.
      split at h
      next =>
        simp only [List.mem_cons, List.not_mem_nil, or_false] at h
        obtain h | h := h <;> exact absurd h (lineFeed_ne_ofNat (by omega) (by omega))
      split at h
      next =>
        simp only [List.mem_cons, List.not_mem_nil, or_false] at h
        obtain h | h | h := h <;> exact absurd h (lineFeed_ne_ofNat (by omega) (by omega))
      next =>
        simp only [List.mem_cons, List.not_mem_nil, or_false] at h
        obtain h | h | h | h := h <;> exact absurd h (lineFeed_ne_ofNat (by omega) (by omega))
  · rintro rfl
    decide

theorem lineFeed_mem_encode {text : List Char} : lineFeed ∈ encode text ↔ '\n' ∈ text := by
  rw [encode, List.mem_flatMap]
  constructor
  · rintro ⟨c, hc, hbyte⟩
    rwa [lineFeed_mem_utf8EncodeChar.mp hbyte] at hc
  · exact fun h => ⟨'\n', h, lineFeed_mem_utf8EncodeChar.mpr rfl⟩

/-- A text is one line, or a line with a line feed and a text behind it. -/
theorem lines_induction {motive : List Char → Prop}
    (last : ∀ text, '\n' ∉ text → motive text)
    (cons : ∀ line rest, '\n' ∉ line → motive rest → motive (line ++ '\n' :: rest))
    (text : List Char) : motive text := by
  by_cases h : '\n' ∈ text
  · obtain ⟨front, rest, htext, hfront⟩ := List.eq_append_cons_of_mem h
    have hshorter : rest.length < text.length := by
      rw [htext, List.length_append, List.length_cons]
      omega
    rw [htext]
    exact cons front rest hfront (lines_induction last cons rest)
  · exact last text h
termination_by text.length

/-- **Splitting what is encoded** is encoding what is split. -/
theorem splitOn_encode (text : List Char) :
    (encode text).splitOn lineFeed = (text.splitOn '\n').map encode := by
  induction text using lines_induction with
  | last text h =>
    rw [List.splitOn_eq_singleton h,
      List.splitOn_eq_singleton fun hbyte => h (lineFeed_mem_encode.mp hbyte), List.map_singleton]
  | cons line rest h ih =>
    rw [encode_append, encode_newline, List.splitOn_append_cons_self_of_not_mem
      (fun hbyte => h (lineFeed_mem_encode.mp hbyte)), ih,
      List.splitOn_append_cons_self_of_not_mem h, List.map_cons]

theorem encode_intercalate : ∀ lines : List (List Char),
    encode (['\n'].intercalate lines) = [lineFeed].intercalate (lines.map encode)
  | [] => rfl
  | [line] => by simp
  | line :: next :: lines => by
    have ih := encode_intercalate (next :: lines)
    rw [List.map_cons] at ih
    rw [List.intercalate_cons_cons, List.map_cons, List.map_cons, List.intercalate_cons_cons,
      encode_append, encode_append, ih]
    rfl

theorem mapM_decode_encode : ∀ lines : List (List Char),
    (lines.map encode).mapM decode = some lines
  | [] => rfl
  | line :: lines => by
    rw [List.map_cons, List.mapM_cons, decode_encode, mapM_decode_encode lines]
    rfl

theorem eq_map_encode_of_mapM_decode : ∀ {pieces : List (List UInt8)} {lines : List (List Char)},
    pieces.mapM decode = some lines → pieces = lines.map encode
  | [], lines, h => by
    obtain rfl : [] = lines := Option.some.inj h
    rfl
  | piece :: pieces, lines, h => by
    rw [List.mapM_cons] at h
    obtain ⟨line, hline, h⟩ := Option.bind_eq_some_iff.mp h
    obtain ⟨more, hmore, h⟩ := Option.bind_eq_some_iff.mp h
    obtain rfl : line :: more = lines := Option.some.inj h
    rw [List.map_cons, ← eq_map_encode_of_mapM_decode hmore]
    exact congrArg (· :: pieces) (decode_eq_some_iff.mp hline)

/-- **A stream is read as a file is**, whatever its bytes are. -/
theorem ofStream_eq_ofFile (bytes : List UInt8) : ofStream bytes = ofFile bytes := by
  cases hdecode : decode bytes with
  | some text =>
    obtain rfl : bytes = encode text := decode_eq_some_iff.mp hdecode
    rw [ofStream, splitOn_encode, mapM_decode_encode, ofFile, hdecode]
    rfl
  | none =>
    rw [ofFile, hdecode, ofStream]
    cases hlines : (bytes.splitOn lineFeed).mapM decode with
    | none => rfl
    | some lines =>
      -- If each line were the encoding of a text, so would be all of them together.
      have hbytes : bytes = encode (['\n'].intercalate lines) := by
        rw [encode_intercalate, ← eq_map_encode_of_mapM_decode hlines, List.intercalate_splitOn]
      rw [hbytes, decode_encode] at hdecode
      cases hdecode

/-! ## Breaking and joining -/

/-- What ends a line. -/
inductive LineEnd where
  | lf
  | crlf
deriving DecidableEq

/-- The characters of a line end. -/
def LineEnd.chars : LineEnd → List Char
  | lf => ['\n']
  | crlf => ['\r', '\n']

/-- A text in pieces, each ended as it likes; the last may go without an end. -/
def broken (pieces : List (List Char × LineEnd)) (last : List Char) (end? : Option LineEnd) :
    List Char :=
  (pieces.flatMap fun p => p.1 ++ p.2.chars) ++ (last ++ (end?.map LineEnd.chars).getD [])

/-- A piece that may stand on a line of its own. -/
def Unbroken (piece : List Char) : Prop := '\n' ∉ piece ∧ piece.getLast? ≠ some '\r'

instance (piece : List Char) : Decidable (Unbroken piece) :=
  inferInstanceAs (Decidable (_ ∧ _))

theorem withoutReturn_of_unbroken {piece : List Char} (h : Unbroken piece) :
    withoutReturn piece = piece := by
  rw [withoutReturn, if_neg h.2]

theorem withoutReturn_concat (piece : List Char) : withoutReturn (piece ++ ['\r']) = piece := by
  rw [withoutReturn, if_pos (by simp), List.dropLast_concat]

theorem joinLines_cons {line : List Char} {lines : List (List Char)} (h : lines ≠ []) :
    joinLines (line :: lines) = withoutReturn line ++ joinLines lines := by
  cases lines with
  | nil => exact absurd rfl h
  | cons next lines => rfl

theorem joinLines_of_not_mem {text : List Char} (h : '\n' ∉ text) :
    joinLines (text.splitOn '\n') = text := by
  rw [List.splitOn_eq_singleton h]
  rfl

theorem filter_of_not_mem {text : List Char} (h : '\n' ∉ text) :
    text.filter (· ≠ '\n') = text :=
  List.filter_eq_self.mpr fun c hc => by simpa using ne_of_mem_of_not_mem hc h

/-- Joining leaves out the line feeds, perhaps with a carriage return before them,
and adds nothing. -/
theorem joinLines_sublist (text : List Char) :
    (joinLines (text.splitOn '\n')).Sublist (text.filter (· ≠ '\n')) := by
  induction text using lines_induction with
  | last text h =>
    have hjoined : joinLines (text.splitOn '\n') = text.filter (· ≠ '\n') :=
      (joinLines_of_not_mem h).trans (filter_of_not_mem h).symm
    exact hjoined ▸ List.Sublist.refl _
  | cons line rest h ih =>
    have hline : (withoutReturn line).Sublist (line.filter (· ≠ '\n')) := by
      rw [filter_of_not_mem h]
      unfold withoutReturn
      split
      next => exact List.dropLast_sublist line
      next => exact List.Sublist.refl line
    rw [List.splitOn_append_cons_self_of_not_mem h, joinLines_cons (List.splitOn_ne_nil _ _),
      List.filter_append, List.filter_cons_of_neg (by simp)]
    exact hline.append ih

theorem joinLines_line {piece : List Char} (h : Unbroken piece) (e : LineEnd) (rest : List Char) :
    joinLines ((piece ++ e.chars ++ rest).splitOn '\n') =
      piece ++ joinLines (rest.splitOn '\n') := by
  cases e with
  | lf =>
    have hsplit := List.splitOn_append_cons_self_of_not_mem h.1 rest
    rw [LineEnd.chars, List.append_assoc, List.singleton_append, hsplit,
      joinLines_cons (List.splitOn_ne_nil _ _), withoutReturn_of_unbroken h]
  | crlf =>
    have hline : '\n' ∉ piece ++ ['\r'] := by simp [h.1]
    have hsplit := List.splitOn_append_cons_self_of_not_mem hline rest
    rw [LineEnd.chars, List.append_cons, List.append_assoc, List.singleton_append, hsplit,
      joinLines_cons (List.splitOn_ne_nil _ _), withoutReturn_concat]

/-- **Joining undoes breaking.** -/
theorem joinLines_broken {pieces : List (List Char × LineEnd)} {last : List Char}
    (hpieces : ∀ p ∈ pieces, Unbroken p.1) (hlast : Unbroken last) (end? : Option LineEnd) :
    joinLines ((broken pieces last end?).splitOn '\n') = pieces.flatMap Prod.fst ++ last := by
  induction pieces with
  | nil =>
    cases end? with
    | none =>
      have hchars : broken [] last none = last := List.append_nil last
      rw [hchars]
      exact joinLines_of_not_mem hlast.1
    | some e =>
      have hline := joinLines_line hlast e []
      rw [List.append_nil] at hline
      exact hline.trans (List.append_nil last)
  | cons p pieces ih =>
    obtain ⟨hp, hmore⟩ := List.forall_mem_cons.mp hpieces
    rw [broken, List.flatMap_cons, List.append_assoc, joinLines_line hp, List.flatMap_cons,
      List.append_assoc, ← ih hmore, broken]

end Input

/-! ## What is printed -/

/-- No view asks for the name of a text. -/
theorem Command.outcome_unnamed (command : Command) (text : String) (name? : Option String) :
    command.outcome ⟨text, name?⟩ = command.outcome ⟨text, none⟩ := by
  cases command <;> rfl

namespace Invocation

open Input

/-- What is printed depends on the bytes alone, and on them only through the text
that joining makes of them. -/
theorem outcome_view (bytes : List UInt8) (command : Command) (file? : Option String) :
    outcome (some bytes) (.view command file?) =
      ((ofFile bytes).map fun text => command.outcome ⟨String.ofList text, none⟩).getD
        (.silent .failure) := by
  have hread : (if file?.isSome then ofFile else ofStream) bytes = ofFile bytes := by
    split
    next => rfl
    next => exact ofStream_eq_ofFile bytes
  simp only [outcome, Option.bind_some, hread]
  cases ofFile bytes with
  | none => rfl
  | some text => exact command.outcome_unnamed (String.ofList text) file?

theorem outcome_encode (text : List Char) (command : Command) (file? : Option String) :
    outcome (some (encode text)) (.view command file?) =
      command.outcome ⟨String.ofList (joinLines (text.splitOn '\n')), none⟩ := by
  rw [outcome_view, ofFile, decode_encode]
  rfl

/-- **Neither the line breaks nor the channel matter.** A view is the same whether
the bytes are a file or a stream; bytes that encode no text are refused, wherever it
is that they go wrong; and a text broken into lines is viewed as the text itself,
with the lines joined. So is whatever a command line gives that asks for the view,
with a file or without one. -/
theorem outcome_of_lines (command : Command) :
    (∀ bytes file, outcome (some bytes) (.view command (some file)) =
      outcome (some bytes) (.view command none)) ∧
    (∀ bytes file?, (∀ text, encode text ≠ bytes) →
      (outcome (some bytes) (.view command file?)).status.code = 1 ∧
      (outcome (some bytes) (.view command file?)).output = []) ∧
    (∀ pieces last end? file?, (∀ p ∈ pieces, Unbroken p.1) → Unbroken last →
      outcome (some (encode (broken pieces last end?))) (.view command file?) =
        outcome (some (encode (pieces.flatMap Prod.fst ++ last))) (.view command file?) ∧
      outcome (some (encode (broken pieces last end?))) (.view command file?) =
        command.outcome ⟨String.ofList (pieces.flatMap Prod.fst ++ last), file?⟩) ∧
    ∀ args file?, Means args (.view command file?) → ∀ bytes,
      (ofArgs args).outcome (some bytes) = outcome (some bytes) (.view command none) := by
  refine ⟨fun bytes file => ?_, fun bytes file? hinvalid => ?_,
    fun pieces last end? file? hpieces hlast => ⟨?_, ?_⟩, fun args file? hargs bytes => ?_⟩
  · rw [outcome_view, outcome_view]
  · have hdecode : decode bytes = none :=
      Option.eq_none_iff_forall_ne_some.mpr fun text htext =>
        hinvalid text (decode_eq_some_iff.mp htext).symm
    rw [outcome_view, ofFile, hdecode]
    exact ⟨rfl, rfl⟩
  · have hwhole : '\n' ∉ pieces.flatMap Prod.fst ++ last := by
      rw [List.mem_append, List.mem_flatMap]
      rintro (⟨p, hp, hmem⟩ | hmem)
      · exact (hpieces p hp).1 hmem
      · exact hlast.1 hmem
    rw [outcome_encode, outcome_encode, joinLines_broken hpieces hlast, joinLines_of_not_mem hwhole]
  · rw [outcome_encode, joinLines_broken hpieces hlast]
    exact (command.outcome_unnamed _ file?).symm
  · rw [hargs.ofArgs, outcome_view, outcome_view]

/-- A byte that starts no encoding, and a text broken in an exponent and in a name, as a
file that is named between options. -/
theorem outcome_of_lines_in_words :
    let bytes := encode "x^1\r\n2 + na\nme\n".toList
    (outcome (some [0x78, 0xff]) (.view .lex none)).output = [] ∧
    outcome (some bytes) (.view .eval none) =
      outcome (some (encode "x^12 + name".toList)) (.view .eval none) ∧
    (ofArgs ["-vv", "eval", "lines", "--verbose"]).outcome (some bytes) =
      .line "x^12 + x".toList := by
  intro bytes
  have hinvalid : ∀ text, encode text ≠ [0x78, 0xff] := by
    intro text heq
    have hdecode : decode [0x78, 0xff] = some text := decode_eq_some_iff.mpr heq.symm
    cases hdecode.symm.trans (by decide +kernel : decode [0x78, 0xff] = none)
  obtain ⟨-, -, hlines, hchannel⟩ := outcome_of_lines .eval
  obtain ⟨hjoined, htext⟩ := hlines [("x^1".toList, .crlf), ("2 + na".toList, .lf)] "me".toList
    (some .lf) none (by decide) (by decide)
  have hargs : Means ["-vv", "eval", "lines", "--verbose"] (.view .eval (some "lines")) :=
    (ofArgs_eq_iff (by decide)).mp (by decide)
  refine ⟨((outcome_of_lines .lex).2.1 _ none hinvalid).2, hjoined,
    (hchannel _ _ hargs bytes).trans (htext.trans ?_)⟩
  decide +kernel

end Invocation

end PolyExpand
