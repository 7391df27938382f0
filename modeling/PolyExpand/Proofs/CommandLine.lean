import PolyExpand.Invocation

/-!
# Command lines — which there are, and what they ask for

`Invocation.ofArgs` reads arguments from left to right and decides as it goes. Here the same is
said as a grammar: how an option is spelled (`Options.Asks`), what may stand behind a command and
around the one file (`Operands`), and what a command line may end with (`Ends`). The grammar does
not say which of two readings goes first, and has no need to, since there is only one:

> `Invocation.ofArgs_eq_iff`: arguments that are accepted are taken for what the grammar says
> they mean, and `Invocation.ofArgs_eq_misuse_iff`: those are refused that mean nothing.

A file is named once at most, in front of `--` or behind it. In front of it, no argument that is
spelled like an option names a file, whether there is such an option or not.
-/

namespace PolyExpand

theorem Command.ofName?_eq_some_iff {word : String} {c : Command} :
    ofName? word = some c ↔ word = c.name := by
  constructor
  · intro h
    unfold ofName? at h
    have hname := List.find?_some h
    exact (beq_iff_eq.mp hname).symm
  · rintro rfl
    exact ofName?_name c

/-- The words that ask for a topic, behind `help`. -/
def Topic.words : Topic → List String
  | program => []
  | command c => [c.name]
  | help => ["help"]

theorem Topic.ofWords?_eq_some_iff {words : List String} {t : Topic} :
    ofWords? words = some t ↔ words = t.words := by
  constructor
  · intro h
    match words with
    | [] =>
      obtain rfl := Option.some.inj h
      rfl
    | [word] =>
      rw [ofWords?] at h
      split at h
      next hword =>
        obtain rfl := Option.some.inj h
        rw [hword, Topic.words]
      next =>
        obtain ⟨c, hc, rfl⟩ := Option.map_eq_some_iff.mp h
        rw [Command.ofName?_eq_some_iff.mp hc, Topic.words]
    | _ :: _ :: _ => cases h
  · rintro rfl
    cases t with
    | program => rfl
    | command c => cases c <;> decide
    | help => rfl

namespace Invocation

/-! ## Options by their spelling -/

namespace Options

/-- A cluster of short options that asks for something: the letters `v` in front ask for more
log, and have no say if another letter stands behind them. -/
inductive Clustered : Options → List Char → Prop
  | verbose (n : Nat) : Clustered .verbose (List.replicate n 'v')
  | help (n : Nat) (more : List Char) : Clustered .help (List.replicate n 'v' ++ 'h' :: more)
  | version (n : Nat) (more : List Char) : Clustered .version (List.replicate n 'v' ++ 'V' :: more)

/-- An argument that asks for something, as a word or as a cluster. -/
inductive Asks : Options → String → Prop
  | verbose : Asks .verbose "--verbose"
  | help : Asks .help "--help"
  | version : Asks .version "--version"
  | cluster {o : Options} {arg : String} {c : Char} {cs : List Char} :
      arg.toList = '-' :: c :: cs → Clustered o (c :: cs) → Asks o arg

theorem ofCluster_replicate_append (n : Nat) (cs : List Char) :
    ofCluster (List.replicate n 'v' ++ cs) = ofCluster cs := by
  induction n with
  | zero => rfl
  | succ n ih => exact ih

/-- The first letter that is no `v` decides, if there is one. -/
theorem ofCluster_cases (cs : List Char) :
    (∃ n, cs = List.replicate n 'v') ∨
      ∃ n c more, cs = List.replicate n 'v' ++ c :: more ∧ c ≠ 'v' := by
  induction cs with
  | nil => exact Or.inl ⟨0, rfl⟩
  | cons c cs ih =>
    by_cases hc : c = 'v'
    · subst hc
      rcases ih with ⟨n, rfl⟩ | ⟨n, d, more, rfl, hd⟩
      · exact Or.inl ⟨n + 1, rfl⟩
      · exact Or.inr ⟨n + 1, d, more, rfl, hd⟩
    · exact Or.inr ⟨0, c, cs, rfl, hc⟩

theorem Clustered.ofCluster {o : Options} {cs : List Char} (h : Clustered o cs) :
    ofCluster cs = o := by
  cases h with
  | verbose n =>
    rw [← List.append_nil (List.replicate n 'v'), ofCluster_replicate_append]
    rfl
  | help n more =>
    rw [ofCluster_replicate_append]
    rfl
  | version n more =>
    rw [ofCluster_replicate_append]
    rfl

theorem clustered_of_ofCluster {o : Options} (ho : o ≠ .unknown) {cs : List Char}
    (h : ofCluster cs = o) : Clustered o cs := by
  rcases ofCluster_cases cs with ⟨n, rfl⟩ | ⟨n, c, more, rfl, hc⟩
  · rw [(Clustered.verbose n).ofCluster] at h
    exact h ▸ Clustered.verbose n
  · rw [ofCluster_replicate_append] at h
    unfold ofCluster at h
    split at h
    next => contradiction
    next hcons => exact absurd (List.cons.inj hcons).1 hc
    next hcons =>
      obtain ⟨rfl, -⟩ := List.cons.inj hcons
      exact h ▸ Clustered.help n more
    next hcons =>
      obtain ⟨rfl, -⟩ := List.cons.inj hcons
      exact h ▸ Clustered.version n more
    next => exact absurd h.symm ho

theorem asks_of_ofWord {o : Options} (ho : o ≠ .unknown) {word : String}
    (h : ofWord word = o) : Asks o word := by
  unfold ofWord at h
  split at h
  next hword => exact h ▸ hword ▸ Asks.verbose
  next =>
    split at h
    next hword => exact h ▸ hword ▸ Asks.help
    next =>
      split at h
      next hword => exact h ▸ hword ▸ Asks.version
      next => exact absurd h.symm ho

/-- **An option is told by its spelling**, if there is such an option. -/
theorem ofArg?_eq_some_iff {o : Options} (ho : o ≠ .unknown) {arg : String} :
    ofArg? arg = some o ↔ Asks o arg := by
  constructor
  · intro h
    unfold ofArg? at h
    split at h
    next => exact asks_of_ofWord ho (Option.some.inj h)
    next hchars => exact .cluster hchars (clustered_of_ofCluster ho (Option.some.inj h))
    next => cases h
  · intro h
    cases h with
    | verbose | help | version => decide
    | cluster hchars hcluster =>
      unfold ofArg?
      split
      next hdashes =>
        -- A second hyphen would be a letter that asks for nothing.
        rw [hchars] at hdashes
        obtain ⟨rfl, -⟩ := List.cons.inj (List.cons.inj hdashes).2
        exact absurd hcluster.ofCluster.symm ho
      next hletters =>
        rw [hchars] at hletters
        rw [← (List.cons.inj hletters).2, hcluster.ofCluster]
      next hnone => exact absurd hchars (hnone _ _)

theorem Asks.ne_unknown {o : Options} {arg : String} (h : Asks o arg) : o ≠ .unknown := by
  rintro rfl
  cases h with
  | cluster _ hcluster => cases hcluster

theorem Asks.ofArg? {o : Options} {arg : String} (h : Asks o arg) : ofArg? arg = some o :=
  (ofArg?_eq_some_iff h.ne_unknown).mpr h

/-- Two hyphens alone ask for nothing. -/
theorem Asks.ne_dashes {o : Options} {arg : String} (h : Asks o arg) : arg ≠ "--" := by
  rintro rfl
  exact h.ne_unknown (Option.some.inj h.ofArg?).symm

theorem ofArg?_eq_none_iff {arg : String} :
    ofArg? arg = none ↔ ∀ c more, arg.toList ≠ '-' :: c :: more := by
  unfold ofArg?
  split
  next hchars => simp [hchars]
  next hchars => simp [hchars]
  next hnone => exact iff_of_true rfl fun c more hchars => hnone c more hchars

end Options

open Options

/-! ## The grammar -/

/-- Arguments behind a command, and what they change about the file: options that ask for more
log, and one file, if there is none yet. -/
inductive Operands : Option String → List String → Option String → Prop
  | nil (file? : Option String) : Operands file? [] file?
  | log {arg : String} {args : List String} {file? file'? : Option String} :
      Asks .verbose arg → Operands file? args file'? → Operands file? (arg :: args) file'?
  | file {arg : String} {args : List String} {file'? : Option String} :
      arg ≠ "" → (∀ c more, arg.toList ≠ '-' :: c :: more) →
        Operands (some arg) args file'? → Operands none (arg :: args) file'?

/-- What a command line may end with, behind a command and perhaps its file. -/
inductive Ends (command : Command) : Option String → List String → Invocation → Prop
  | nil (file? : Option String) : Ends command file? [] (.view command file?)
  | dashes (file? : Option String) : Ends command file? ["--"] (.view command file?)
  | file {arg : String} : arg ≠ "" → Ends command none ["--", arg] (.view command (some arg))
  | help {arg : String} (file? : Option String) (more : List String) :
      Asks .help arg → Ends command file? (arg :: more) (.help (.command command))

/-- What arguments ask for, with nothing said about how they are read. -/
inductive Means : List String → Invocation → Prop
  | nil : Means [] (.view .eval none)
  | dashes : Means ["--"] (.view .eval none)
  | log {arg : String} {args : List String} {i : Invocation} :
      Asks .verbose arg → Means args i → Means (arg :: args) i
  | help {arg : String} (more : List String) :
      Asks .help arg → Means (arg :: more) (.help .program)
  | version {arg : String} (more : List String) : Asks .version arg → Means (arg :: more) .version
  | topic (t : Topic) : Means ("help" :: t.words) (.help t)
  | command (c : Command) {args more : List String} {file? : Option String} {i : Invocation} :
      Operands none args file? → Ends c file? more i → Means (c.name :: (args ++ more)) i

/-! ## Behind a command -/

theorem Operands.ofCommandArgs {file? file'? : Option String} {args : List String}
    (h : Operands file? args file'?) (c : Command) (more : List String) :
    ofCommandArgs c file? (args ++ more) = ofCommandArgs c file'? more := by
  induction h with
  | nil => rfl
  | log hasks _ ih =>
    rw [List.cons_append, Invocation.ofCommandArgs, hasks.ofArg?]
    · exact ih
    · exact hasks.ne_dashes
  | @file arg args file'? hne hplain _ ih =>
    have hdashes : arg ≠ "--" := by
      rintro rfl
      exact hplain _ _ rfl
    rw [List.cons_append, Invocation.ofCommandArgs, ofArg?_eq_none_iff.mpr hplain]
    · simpa [hne] using ih
    · exact hdashes

theorem Ends.ofCommandArgs {c : Command} {file? : Option String} {args : List String}
    {i : Invocation} (h : Ends c file? args i) : ofCommandArgs c file? args = i := by
  cases h with
  | nil => rfl
  | dashes => rfl
  | file hne => simp [Invocation.ofCommandArgs, ofFileArgs, hne]
  | help _ more hasks =>
    rw [Invocation.ofCommandArgs, hasks.ofArg?]
    exact hasks.ne_dashes

/-- Behind `--` nothing may stand but a file, if there is none yet. -/
theorem ends_of_ofFileArgs {c : Command} {i : Invocation} (hi : i ≠ .misuse)
    {file? : Option String} {args : List String} (h : ofFileArgs c file? args = i) :
    Ends c file? ("--" :: args) i := by
  match args with
  | [] => exact h ▸ .dashes file?
  | arg :: args =>
    rw [ofFileArgs] at h
    split at h
    next => exact absurd h.symm hi
    next harg =>
      obtain ⟨hne, hnone⟩ := not_or.mp harg
      obtain rfl : file? = none := by simpa using hnone
      match args with
      | [] => exact h ▸ .file hne
      | _ :: _ =>
        -- A file is named already.
        rw [ofFileArgs, if_pos (Or.inr (Option.isSome_some))] at h
        exact absurd h.symm hi

/-- What is accepted behind a command has operands in front, and an end. -/
theorem exists_operands {c : Command} {i : Invocation} (hi : i ≠ .misuse) {args : List String} :
    ∀ {file? : Option String}, ofCommandArgs c file? args = i →
      ∃ front more file'?, args = front ++ more ∧ Operands file? front file'? ∧
        Ends c file'? more i := by
  induction args with
  | nil => exact fun h => ⟨[], [], _, rfl, .nil _, h ▸ .nil _⟩
  | cons arg args ih =>
    intro file? h
    by_cases harg : arg = "--"
    · subst harg
      exact ⟨[], _, _, rfl, .nil _, ends_of_ofFileArgs hi h⟩
    rw [ofCommandArgs] at h
    · split at h
      next hlog =>
        obtain ⟨front, more, file'?, rfl, hfront, hmore⟩ := ih h
        have hasks := (ofArg?_eq_some_iff (by decide)).mp hlog
        exact ⟨arg :: front, more, file'?, rfl, .log hasks hfront, hmore⟩
      next hhelp =>
        have hasks := (ofArg?_eq_some_iff (by decide)).mp hhelp
        exact ⟨[], _, _, rfl, .nil _, h ▸ .help _ _ hasks⟩
      next => exact absurd h.symm hi
      next hplain =>
        split at h
        next => exact absurd h.symm hi
        next hfile =>
          obtain ⟨hne, hnone⟩ := not_or.mp hfile
          obtain rfl : file? = none := by simpa using hnone
          obtain ⟨front, more, file'?, rfl, hfront, hmore⟩ := ih h
          exact ⟨arg :: front, more, file'?, rfl,
            .file hne (ofArg?_eq_none_iff.mp hplain) hfront, hmore⟩
    · exact harg

/-! ## All arguments -/

/-- An option in front of a command decides, unless it asks for more log only. -/
theorem ofArgs_cons_of_asks {o : Options} {arg : String} (h : Asks o arg) (args : List String) :
    ofArgs (arg :: args) =
      match o with
      | .verbose => ofArgs args
      | .help => .help .program
      | .version => .version
      | .unknown => .misuse := by
  have hname : Command.ofName? arg = none := by
    refine Option.eq_none_iff_forall_ne_some.mpr fun c hc => ?_
    have hasks := h.ofArg?
    rw [Command.ofName?_eq_some_iff.mp hc] at hasks
    cases c <;> cases hasks
  have hhelp : arg ≠ "help" := by
    rintro rfl
    cases h.ofArg?
  rw [ofArgs, hname, h.ofArg?]
  · cases o <;> rfl
  · exact fun hdashes _ => h.ne_dashes hdashes
  · exact hhelp

theorem Means.ofArgs {args : List String} {i : Invocation} (h : Means args i) :
    ofArgs args = i := by
  induction h with
  | nil => rfl
  | dashes => rfl
  | log hasks _ ih => rw [ofArgs_cons_of_asks hasks, ih]
  | help more hasks => rw [ofArgs_cons_of_asks hasks]
  | version more hasks => rw [ofArgs_cons_of_asks hasks]
  | topic t =>
    rw [Invocation.ofArgs, Topic.ofWords?_eq_some_iff.mpr rfl]
    rfl
  | command c hoperands hends =>
    have hread := (hoperands.ofCommandArgs c _).trans hends.ofCommandArgs
    cases c <;> exact hread

theorem means_of_ofArgs {i : Invocation} (hi : i ≠ .misuse) {args : List String} :
    ofArgs args = i → Means args i := by
  induction args with
  | nil => exact fun h => h ▸ .nil
  | cons arg args ih =>
    intro h
    by_cases hdashes : arg = "--" ∧ args = []
    · obtain ⟨rfl, rfl⟩ := hdashes
      exact h ▸ .dashes
    by_cases hhelp : arg = "help"
    · subst hhelp
      rw [ofArgs] at h
      cases htopic : Topic.ofWords? args with
      | none =>
        rw [htopic] at h
        exact absurd h.symm hi
      | some t =>
        rw [htopic] at h
        obtain rfl := Topic.ofWords?_eq_some_iff.mp htopic
        exact h ▸ .topic t
    rw [ofArgs] at h
    · split at h
      next c hname =>
        obtain ⟨front, more, file?, rfl, hfront, hmore⟩ := exists_operands hi h
        obtain rfl := Command.ofName?_eq_some_iff.mp hname
        exact .command c hfront hmore
      next =>
        split at h
        next hlog => exact .log ((ofArg?_eq_some_iff (by decide)).mp hlog) (ih h)
        next hasks => exact h ▸ .help _ ((ofArg?_eq_some_iff (by decide)).mp hasks)
        next hasks => exact h ▸ .version _ ((ofArg?_eq_some_iff (by decide)).mp hasks)
        next => exact absurd h.symm hi
    · exact fun harg hargs => hdashes ⟨harg, hargs⟩
    · exact hhelp

theorem not_means_misuse {args : List String} : ¬ Means args .misuse := by
  generalize hi : Invocation.misuse = i
  intro h
  induction h with
  | log _ _ ih => exact ih hi
  | command c _ hends => subst hi; cases hends
  | nil | dashes | help | version | topic => cases hi

/-- **Arguments are taken for what they mean**, if they mean anything. -/
theorem ofArgs_eq_iff {args : List String} {i : Invocation} (hi : i ≠ .misuse) :
    ofArgs args = i ↔ Means args i :=
  ⟨means_of_ofArgs hi, Means.ofArgs⟩

/-- **Arguments are refused** exactly if they mean nothing. -/
theorem ofArgs_eq_misuse_iff {args : List String} :
    ofArgs args = .misuse ↔ ∀ i, ¬ Means args i := by
  constructor
  · intro h i hmeans
    obtain rfl : i = .misuse := hmeans.ofArgs.symm.trans h
    exact not_means_misuse hmeans
  · intro h
    exact Decidable.byContradiction fun hi => h _ (means_of_ofArgs hi rfl)

/-- Behind `--`, what is spelled like an option names a file. -/
example : ofArgs ["-vv", "lex", "-v", "--", "-h"] = .view .lex (some "-h") := by decide

end Invocation

end PolyExpand
