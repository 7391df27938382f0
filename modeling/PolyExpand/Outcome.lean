import PolyExpand.DensePoly.Text
import PolyExpand.Input
import PolyExpand.Invocation
import PolyExpand.Manual
import PolyExpand.Node.Text
import PolyExpand.Source

/-!
# Outcomes — what the program prints and how it ends

An outcome is what is written to standard output, and a status: success,
input that cannot be read or is malformed, or a command line that cannot be
understood. Reports of what was wrong go to standard error, and are no part
of the outcome.

Three of the four views print one line, or nothing if the text is malformed.
The list of tokens is printed as it is read, so the tokens in front of a
fault are there even though the outcome is a failure; the line `EOF  null`
behind the last token shows that nothing was wrong. A page of the manual and
the version are printed without reading anything.
-/

namespace PolyExpand

/-- How a run of the program ends. -/
inductive Status where
  | success
  /-- The input cannot be read, or is malformed. -/
  | failure
  /-- The command line cannot be understood. -/
  | misuse
  /-- The tree has no value. -/
  | fault
deriving DecidableEq, Repr

/-- The exit code that tells a status. -/
def Status.code : Status → Nat
  | success => 0
  | failure => 1
  | misuse => 2
  | fault => 101

/-- What a run of the program prints, and how it ends. -/
structure Outcome where
  status : Status
  output : List Char
deriving DecidableEq

namespace Outcome

/-- Nothing printed. -/
def silent (status : Status) : Outcome := ⟨status, []⟩

/-- One line printed, and success. -/
def line (text : List Char) : Outcome := ⟨.success, text ++ ['\n']⟩

/-- One line printed, unless the text is malformed. -/
def ofView : Except Malformed (List Char) → Outcome
  | .ok text => line text
  | .error _ => silent .failure

/-- A page of the manual printed, and success. -/
def page (p : Manual.Page) : Outcome := ⟨.success, p.lines.flatMap (· ++ ['\n'])⟩

/-- A listing of tokens: a line each, up to the first fault or the end. -/
def ofItems : List Item → Outcome
  | [] => line "EOF  null".toList
  | i :: items =>
    match i.token with
    | .error _ => silent .failure
    | .ok t =>
      let rest := ofItems items
      ⟨rest.status, t.line i.lexeme.segment ++ '\n' :: rest.output⟩

end Outcome

/-- What a view of a source prints. -/
def Command.outcome (s : Source) : Command → Outcome
  | lex => .ofItems s.items
  | tokenize => .ofView (s.tree.map Node.text)
  | resolve => .ofView (s.resolved.map Node.text)
  | eval =>
    match s.expanded with
    | .ok (.error _) => .silent .fault
    | .ok (.ok p) => .line p.text
    | .error _ => .silent .failure

namespace Invocation

/-- The line that shows the version. -/
def versionLine : List Char := "polypen 0.1.0".toList

/-- How a run ends, given the bytes of the file or of standard input. The
bytes are missing if there is no such file. -/
def outcome (bytes? : Option (List UInt8)) : Invocation → Outcome
  | help topic => .page topic.page
  | version => .line versionLine
  | misuse => .silent .misuse
  | view command file? =>
    let text? := bytes?.bind (if file?.isSome then Input.ofFile else Input.ofStream)
    match text? with
    | some text => command.outcome ⟨String.ofList text, file?⟩
    | none => .silent .failure

end Invocation

end PolyExpand
