/-!
# Input — bytes to one line of text

An expression may be spread over many lines. The lines are joined with
nothing between them, so a break may fall in the middle of a number, and the
end of a line is a line feed with or without one carriage return in front of
it. A carriage return anywhere else is part of the text, also at the very
end, where no line feed follows.

Bytes have to be UTF-8. A file is decoded as a whole and then split; a
stream is split first, at the bytes that are line feeds, and decoded line by
line. Both ways are here, because both are used; that they agree is because
no longer character has the byte of a line feed in its encoding.
-/

namespace PolyExpand.Input

/-- The characters that bytes encode, unless they are not UTF-8. -/
def decode (bytes : List UInt8) : Option (List Char) :=
  (String.fromUTF8? bytes.toByteArray).map String.toList

/-- Bytes decode to a text exactly if they are its encoding. -/
theorem decode_eq_some_iff {bytes : List UInt8} {text : List Char} :
    decode bytes = some text ↔ bytes = text.flatMap String.utf8EncodeChar := by
  unfold decode String.fromUTF8?
  constructor
  · intro h
    split at h
    next valid =>
      have htext : String.fromUTF8 bytes.toByteArray valid = String.ofList text := by
        rw [← String.ofList_toList (s := String.fromUTF8 bytes.toByteArray valid)]
        exact congrArg String.ofList (Option.some.inj h)
      have hbytes : bytes.toByteArray = text.utf8Encode := by
        simpa [String.fromUTF8] using congrArg String.toByteArray htext
      exact List.toByteArray_inj.mp hbytes
    next => nomatch h
  · rintro rfl
    have valid : (text.flatMap String.utf8EncodeChar).toByteArray.IsValidUTF8 := ⟨text, rfl⟩
    have htext : String.fromUTF8 _ valid = String.ofList text :=
      String.toByteArray_inj.mp (by simp [String.fromUTF8, List.utf8Encode])
    rw [dif_pos valid, htext]
    exact congrArg some String.toList_ofList

/-- A line that a line feed has ended, without the carriage return that may
stand in front of the line feed. -/
def withoutReturn (line : List Char) : List Char :=
  if line.getLast? = some '\r' then line.dropLast else line

/-- Joins what stands between line feeds. Behind the last piece there is
none, so nothing of it belongs to the end of a line. -/
def joinLines : List (List Char) → List Char
  | [] => []
  | [last] => last
  | line :: lines => withoutReturn line ++ joinLines lines

/-- The text of a file: decoded, then split into lines. -/
def ofFile (bytes : List UInt8) : Option (List Char) :=
  (decode bytes).map fun text => joinLines (text.splitOn '\n')

/-- The byte that ends a line. -/
def lineFeed : UInt8 := 10

/-- The text of a stream: split into lines, each of them decoded. -/
def ofStream (bytes : List UInt8) : Option (List Char) :=
  ((bytes.splitOn lineFeed).mapM decode).map joinLines

end PolyExpand.Input
