import PolyExpand.Invocation

/-!
# The manual — what the program says about itself

There is one page for each topic that help can be asked for. A page opens
with one sentence about its topic and with the usage, the shape of a command
line; behind them stand lists of what may be written there, each under a
heading of its own. In a list the terms stand in one column and their
explanations in another, two places behind the longest term
(`Section.length_column`). That an entry has no explanation does not make its
term stand anywhere else.
-/

namespace PolyExpand

namespace Manual

/-- One thing that may be written, and what it is for. -/
structure Entry where
  term : String
  purpose : String

/-- The first column of a list: the term, filled up to a width. -/
def Entry.column (width : Nat) (e : Entry) : List Char :=
  "  ".toList ++ e.term.toList ++ List.replicate (width - e.term.length) ' ' ++ "  ".toList

theorem Entry.length_column {width : Nat} {e : Entry} (h : e.term.length ≤ width) :
    (e.column width).length = width + 4 := by
  simp [column, String.length_toList]
  omega

/-- Things that may be written in one place, under a heading. -/
structure Section where
  heading : String
  entries : List Entry

/-- The length of the longest term. -/
def Section.width (s : Section) : Nat := (s.entries.map fun e => e.term.length).foldr max 0

theorem Section.length_le_width {s : Section} {e : Entry} (he : e ∈ s.entries) :
    e.term.length ≤ s.width := by
  obtain ⟨heading, entries⟩ := s
  simp only [width] at he ⊢
  induction entries with
  | nil => cases he
  | cons e' entries ih =>
    rw [List.map_cons, List.foldr_cons]
    rcases List.mem_cons.mp he with rfl | hmore
    · exact Nat.le_max_left _ _
    · exact Nat.le_trans (ih hmore) (Nat.le_max_right _ _)

/-- **The explanations of a list stand below each other.** -/
theorem Section.length_column {s : Section} {e : Entry} (he : e ∈ s.entries) :
    (e.column s.width).length = s.width + 4 :=
  Entry.length_column (length_le_width he)

/-- The lines of a list, with an empty one in front. -/
def Section.lines (s : Section) : List (List Char) :=
  [] :: (s.heading.toList ++ [':']) ::
    s.entries.map fun e => e.column s.width ++ e.purpose.toList

/-- What the manual says about a topic. -/
structure Page where
  about : String
  /-- How a command line goes on behind the name of the program. -/
  usage : String
  sections : List Section

/-- The lines of a page. -/
def Page.lines (p : Page) : List (List Char) :=
  p.about.toList :: [] :: ("Usage: polypen ".toList ++ p.usage.toList) ::
    p.sections.flatMap Section.lines

end Manual

open Manual

/-- What a view shows. -/
def Command.purpose : Command → String
  | eval => "Print the canonical polynomial (default)"
  | lex => "Print the raw lexer tokens"
  | tokenize => "Print the nested token tree before resolution"
  | resolve => "Print the resolved sum-of-products tree"

namespace Manual

def helpWord : Entry := ⟨"help", "Print this message or the help of the given subcommand(s)"⟩

def verboseOption : Entry :=
  ⟨"-v, --verbose...", "Log more (-v debug, -vv trace). `RUST_LOG` takes precedence"⟩

def helpOption : Entry := ⟨"-h, --help", "Print help"⟩

def versionOption : Entry := ⟨"-V, --version", "Print version"⟩

end Manual

/-- The page of a topic. -/
def Topic.page : Topic → Page
  | program =>
    ⟨"Expand a polynomial expression into canonical form", "[OPTIONS] [COMMAND]",
      [⟨"Commands", (Command.all.map fun c => ⟨c.name, c.purpose⟩) ++ [helpWord]⟩,
        ⟨"Options", [verboseOption, helpOption, versionOption]⟩]⟩
  | command c =>
    ⟨c.purpose, c.name ++ " [OPTIONS] [FILENAME]",
      [⟨"Arguments", [⟨"[FILENAME]", ""⟩]⟩, ⟨"Options", [verboseOption, helpOption]⟩]⟩
  | help =>
    ⟨helpWord.purpose, "help [COMMAND]...",
      [⟨"Arguments", [⟨"[COMMAND]...", "Print help for the subcommand(s)"⟩]⟩]⟩

end PolyExpand
