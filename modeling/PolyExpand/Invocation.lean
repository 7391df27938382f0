/-!
# Invocations — what a command line asks for

A command line names one of four views of an expression, and perhaps a file
to read it from; without a file the expression is read from standard input,
and without a command it is expanded. Arguments are read from left to right,
and the first one that decides anything does: a request for help or for the
version wins over whatever is wrong behind it, and loses against what is
wrong before it.

Before the command only options may stand: `-v` and `--verbose` (to be more
talkative in the log, which has no influence on any answer), `-h` and
`--help`, `-V` and `--version`. Short options may be clustered, as in `-vv`
and `-vV`. Behind the command the same `-v` may stand anywhere, and `-h`
asks for help with the command; but the version cannot be asked for any
more, and at most one argument is no option: the file. After `--` nothing is
an option.

In the place of a command the word `help` may stand. All that is behind it
has to be the one word that help is wanted with, or nothing; options are no
such words.

The other side of this is a grammar, in `PolyExpand.Proofs.CommandLine`.
-/

namespace PolyExpand

/-- The views of an expression that can be asked for. -/
inductive Command where
  /-- The polynomial. -/
  | eval
  /-- The tokens, one a line. -/
  | lex
  /-- The tree of groups. -/
  | tokenize
  /-- The tree as a sum of products. -/
  | resolve
deriving DecidableEq, Repr

namespace Command

/-- All commands, as the help lists them. -/
def all : List Command := [eval, lex, tokenize, resolve]

/-- The word that asks for a view. -/
def name : Command → String
  | eval => "eval"
  | lex => "lex"
  | tokenize => "tokenize"
  | resolve => "resolve"

/-- The command that a word names. -/
def ofName? (word : String) : Option Command :=
  all.find? fun c => c.name == word

@[simp] theorem ofName?_name (c : Command) : ofName? c.name = some c := by
  cases c <;> decide

end Command

/-- What help can be asked for. -/
inductive Topic where
  /-- The program as a whole. -/
  | program
  | command (c : Command)
  /-- The word `help`. -/
  | help
deriving DecidableEq, Repr

/-- What the words behind `help` ask for. -/
def Topic.ofWords? : List String → Option Topic
  | [] => some .program
  | [word] => if word = "help" then some .help else (Command.ofName? word).map .command
  | _ => none

/-- What a command line asks for. -/
inductive Invocation where
  /-- A view of the expression in a file, or on standard input. -/
  | view (command : Command) (file? : Option String)
  /-- A page of the manual. -/
  | help (topic : Topic)
  /-- The version of the program. -/
  | version
  /-- Nothing that can be understood. -/
  | misuse
deriving DecidableEq, Repr

namespace Invocation

/-- What an argument says if it is taken for options. -/
inductive Options where
  /-- More log, once or several times. -/
  | verbose
  /-- Help, with nothing wrong before it. -/
  | help
  /-- The version, with nothing wrong before it. -/
  | version
  /-- No option there is. -/
  | unknown
deriving DecidableEq, Repr

/-- A cluster of short options, of which the first that is not `v` decides. -/
def Options.ofCluster : List Char → Options
  | [] => .verbose
  | 'v' :: cs => ofCluster cs
  | 'h' :: _ => .help
  | 'V' :: _ => .version
  | _ :: _ => .unknown

/-- The option that a word with two hyphens names. -/
def Options.ofWord (word : String) : Options :=
  if word = "--verbose" then .verbose
  else if word = "--help" then .help
  else if word = "--version" then .version
  else .unknown

/-- The options that an argument spells, if it starts like options do: with
a hyphen and something behind it. -/
def Options.ofArg? (arg : String) : Option Options :=
  match arg.toList with
  | '-' :: '-' :: _ => some (ofWord arg)
  | '-' :: c :: cs => some (ofCluster (c :: cs))
  | _ => none

/-- The arguments behind the command once no more options are possible. -/
def ofFileArgs (command : Command) (file? : Option String) : List String → Invocation
  | [] => .view command file?
  | arg :: args =>
    if arg = "" ∨ file?.isSome then .misuse
    else ofFileArgs command (some arg) args

/-- The arguments behind the command. -/
def ofCommandArgs (command : Command) (file? : Option String) : List String → Invocation
  | [] => .view command file?
  | "--" :: args => ofFileArgs command file? args
  | arg :: args =>
    match Options.ofArg? arg with
    | some .verbose => ofCommandArgs command file? args
    | some .help => .help (.command command)
    | some _ => .misuse
    | none =>
      if arg = "" ∨ file?.isSome then .misuse
      else ofCommandArgs command (some arg) args

/-- All arguments. -/
def ofArgs : List String → Invocation
  | [] => .view .eval none
  | ["--"] => .view .eval none
  | "help" :: words => ((Topic.ofWords? words).map .help).getD .misuse
  | arg :: args =>
    match Command.ofName? arg with
    | some command => ofCommandArgs command none args
    | none =>
      match Options.ofArg? arg with
      | some .verbose => ofArgs args
      | some .help => .help .program
      | some .version => .version
      | _ => .misuse

end Invocation

end PolyExpand
