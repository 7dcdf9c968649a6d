import Quire.RepoNames

namespace Quire.SshExec
open Text RepoNames

-- What the process becomes: `exec` only comes back with an error.
structure Command where
  program : String
  args : List String
  currentDir : Option PathBuf
  deriving DecidableEq, Repr

inductive ExecError where
  | parse (error : String)
  | message (text : String)
  | quire (error : QuireError)
  deriving DecidableEq, Repr

def gitCommands : List String := ["git-receive-pack","git-upload-pack","git-upload-archive"]

def dispatchGit (isDir : PathBuf → Bool) (quire : Quire) (gitCmd : String) (args : List String) : Except ExecError Command :=
  match args with
  | [arg] =>
    let path := trimStartMatches arg '/'
    if path = "" then .error (.message "empty repository path")
    else match quire.repo isDir path with
      | .error error => .error (.quire error)
      | .ok repo =>
        match stripPrefix gitCmd "git-" with
        | none => .error (.message ("unexpected git command: " ++ gitCmd))
        | some subcommand => .ok ⟨"git",[subcommand,"."],some repo.path⟩
  | _ => .error (.message ("expected usage: " ++ gitCmd ++ " '<repo>', got " ++ toString args.length ++ " arguments"))

def allowlisted : List String → Bool
  | "repo" :: _ => true
  | "mirror" :: "push" :: _ => true
  | _ => false

def dispatchQuire (args : List String) : Except ExecError Command :=
  if args = [] then .error (.message "no quire subcommand provided")
  else if allowlisted args then .ok ⟨"quire",args,none⟩
  else .error (.message ("unsupported quire command: " ++ join " " args))

-- One argument is the whole SSH_ORIGINAL_COMMAND.
def commandLine : List String → String
  | [only] => only
  | words => join " " words

-- `shellWords` is shell_words::split.
def run (shellWords : String → Except String (List String)) (isDir : PathBuf → Bool) (quire : Quire) (command : List String) :
    Except ExecError Command :=
  match shellWords (commandLine command) with
  | .error error => .error (.parse error)
  | .ok [] => .error (.message "no command provided")
  | .ok (cmd :: args) =>
    if cmd ∈ gitCommands then dispatchGit isDir quire cmd args
    else if cmd = "quire" then dispatchQuire args
    else .error (.message ("unsupported command: " ++ cmd))

-- The command line of the `quire` binary, without the options that no dispatch
-- here depends on.
inductive RepoCommands where
  | new (name : String)
  | list
  | rm (name : RepoName)

inductive CiCommands where
  | validate (sha : Option String)
  | run (sha : Option String)

inductive MirrorCommands where
  | push (repo : RepoName) (ref : String)

inductive Commands where
  | serve
  | exec (command : List String)
  | hook (hookName : String)
  | repo (command : RepoCommands)
  | ci (command : CiCommands)
  | mirror (command : MirrorCommands)

structure Cli where
  baseDir : String
  command : Option Commands

-- `Cli::parse` on the value of QUIRE_BASE_DIR and the arguments of the process.
abbrev Clap := Option String → List String → Option Cli

-- The last `--base-dir` before the end of the options.
def lastBaseDir : List String → Option String
  | [] => none
  | "--" :: _ => none
  | "--base-dir" :: value :: rest => (lastBaseDir rest).or (some value)
  | word :: rest => (lastBaseDir rest).or (stripPrefix word "--base-dir=")

def effectiveBaseDir (env : Option String) (args : List String) : String :=
  (lastBaseDir args).getD (env.getD "/var/quire")

-- What clap documents of a command line that it accepts: the first words choose
-- the subcommand, and a global option may stand anywhere, before its variable
-- and its default.
structure Documented (clap : Clap) : Prop where
  repo : ∀ env rest cli, clap env ("repo" :: rest) = some cli → ∃ command, cli.command = some (.repo command)
  mirrorPush : ∀ env rest cli, clap env ("mirror" :: "push" :: rest) = some cli → ∃ command, cli.command = some (.mirror command)
  baseDir : ∀ env args cli, clap env args = some cli → cli.baseDir = effectiveBaseDir env args

variable {shellWords : String → Except String (List String)} {isDir : PathBuf → Bool} {quire : Quire} {clap : Clap} {env : Option String}

-- A git command for the other end of a push or a fetch, in a repository of ours.
def RunsGit (isDir : PathBuf → Bool) (quire : Quire) (command : Command) : Prop :=
  ∃ subcommand ∈ ["receive-pack","upload-pack","upload-archive"], ∃ path, command = ⟨"git",[subcommand,"."],some path⟩ ∧
    isDir path = true ∧ Inside quire.reposDir path ∧ ∃ name : RepoName, path = quire.reposDir.join name.text

-- A `quire repo` or a `quire mirror push` on our own data.
def RunsQuire (clap : Clap) (env : Option String) (quire : Quire) (command : Command) : Prop :=
  ∃ args cli, command = ⟨"quire",args,none⟩ ∧ clap env args = some cli ∧
    ((∃ command, cli.command = some (.repo command)) ∨ ∃ command, cli.command = some (.mirror command)) ∧
    PathBuf.parse cli.baseDir = quire.baseDir

def Closed (clap : Clap) (env : Option String) (isDir : PathBuf → Bool) (quire : Quire) : Except ExecError Command → Prop
  | .error _ => True
  | .ok command => RunsGit isDir quire command ∨ RunsQuire clap env quire command

theorem dispatchGit_runs (listed : gitCmd ∈ gitCommands) (dispatched : dispatchGit isDir quire gitCmd args = .ok command) :
    RunsGit isDir quire command := by
  unfold dispatchGit at dispatched
  split at dispatched
  · rename_i arg
    dsimp only at dispatched
    split at dispatched
    · cases dispatched
    · split at dispatched
      · cases dispatched
      · rename_i repo found
        obtain ⟨name,_,path,present⟩ := repo_found found
        split at dispatched
        · cases dispatched
        · rename_i subcommand stripped
          cases dispatched
          refine ⟨subcommand,?_,repo.path,rfl,present,path ▸ join_inside _ name,name,path⟩
          have each : ∀ cmd ∈ gitCommands, stripPrefix cmd "git-" ∈ ["receive-pack","upload-pack","upload-archive"].map some := by decide
          simpa [stripped] using each gitCmd listed
  · cases dispatched

theorem dispatchQuire_ok_iff : dispatchQuire args = .ok command ↔ allowlisted args = true ∧ command = ⟨"quire",args,none⟩ := by
  unfold dispatchQuire
  by_cases empty : args = []
  · subst empty
    exact iff_of_false (by simp) fun both => nomatch both.1
  · by_cases listed : allowlisted args = true
    · simp [empty,listed,eq_comm]
    · simp [empty,listed]

-- What a command that is not refused becomes: there are two kinds, and the
-- words after `quire` are handed on as they came.
theorem run_ok (ran : run shellWords isDir quire command = .ok started) : RunsGit isDir quire started ∨
    ∃ args, shellWords (commandLine command) = .ok ("quire" :: args) ∧ allowlisted args = true ∧ started = ⟨"quire",args,none⟩ := by
  unfold run at ran
  split at ran
  · cases ran
  · cases ran
  · rename_i cmd args words
    by_cases git : cmd ∈ gitCommands
    · rw [if_pos git] at ran
      exact .inl (dispatchGit_runs git ran)
    · rw [if_neg git] at ran
      by_cases same : cmd = "quire"
      · subst same
        rw [if_pos rfl] at ran
        obtain ⟨listed,started⟩ := dispatchQuire_ok_iff.mp ran
        exact .inr ⟨args,words,listed,started⟩
      · rw [if_neg same] at ran
        cases ran

theorem run_quire (words : shellWords (commandLine command) = .ok ("quire" :: args)) (listed : allowlisted args = true) :
    run shellWords isDir quire command = .ok ⟨"quire",args,none⟩ := by
  have other : "quire" ∉ gitCommands := by decide
  rw [run,words]
  simp only [if_neg other,if_true]
  exact dispatchQuire_ok_iff.mpr ⟨listed,rfl⟩

-- Allowlisted words are a command of ours exactly when clap takes them and they
-- leave the base directory alone.
theorem runsQuire_iff (documented : Documented clap) (listed : allowlisted args = true) :
    RunsQuire clap env quire ⟨"quire",args,none⟩ ↔
      (clap env args).isSome = true ∧ PathBuf.parse (effectiveBaseDir env args) = quire.baseDir := by
  constructor
  · intro ⟨same,cli,started,parsed,_,ours⟩
    cases started
    exact ⟨parsed ▸ rfl,documented.baseDir env args cli parsed ▸ ours⟩
  · intro ⟨taken,ours⟩
    obtain ⟨cli,parsed⟩ := Option.isSome_iff_exists.mp taken
    refine ⟨args,cli,rfl,parsed,?_,documented.baseDir env args cli parsed ▸ ours⟩
    unfold allowlisted at listed
    split at listed
    · exact .inl (documented.repo env _ cli parsed)
    · exact .inr (documented.mirrorPush env _ cli parsed)
    · cases listed

theorem exec_closed_iff (shellWords : String → Except String (List String)) (isDir : PathBuf → Bool) (quire : Quire) (clap : Clap)
    (env : Option String) (command : List String) (documented : Documented clap) :
    Closed clap env isDir quire (run shellWords isDir quire command) ↔
      ∀ args, shellWords (commandLine command) = .ok ("quire" :: args) → allowlisted args = true →
        (clap env args).isSome = true ∧ PathBuf.parse (effectiveBaseDir env args) = quire.baseDir := by
  constructor
  · intro closed args words listed
    rw [run_quire words listed] at closed
    rcases closed with ⟨_,_,_,git,_⟩ | ours
    · exact absurd (congrArg Command.program git) (by simp)
    · exact (runsQuire_iff documented listed).mp ours
  · intro condition
    cases ran : run shellWords isDir quire command with
    | error error => trivial
    | ok started =>
      rcases run_ok ran with git | ⟨args,words,listed,rfl⟩
      · exact .inl git
      · exact .inr ((runsQuire_iff documented listed).mpr (condition args words listed))

def ours : Quire := ⟨PathBuf.parse "/var/quire"⟩

-- shell_words::split where nothing is quoted.
def plainWords (input : String) : Except String (List String) := .ok (splitWhitespace input)

def positionals : List String → List String
  | [] => []
  | "--base-dir" :: _ :: rest => positionals rest
  | word :: rest => if word = "--json" || (stripPrefix word "--base-dir=").isSome then positionals rest else word :: positionals rest

-- Takes `repo list` with its options, and nothing else.
def listClap : Clap := fun env args =>
  if positionals args = ["repo","list"] then some ⟨effectiveBaseDir env args,some (.repo .list)⟩ else none

theorem listClap_documented : Documented listClap where
  repo := by
    intro env rest cli parsed
    unfold listClap at parsed
    split at parsed
    · cases parsed
      exact ⟨.list,rfl⟩
    · cases parsed
  mirrorPush := by
    intro env rest cli parsed
    have option : (stripPrefix "mirror" "--base-dir=").isSome = false := by decide
    simp [listClap,positionals,option] at parsed
  baseDir := by
    intro env args cli parsed
    unfold listClap at parsed
    split at parsed
    · cases parsed
      rfl
    · cases parsed

theorem exec_closed_list : Closed listClap none (fun _ => true) ours (run plainWords (fun _ => true) ours ["quire repo list"]) := by
  apply (exec_closed_iff plainWords (fun _ => true) ours listClap none ["quire repo list"] listClap_documented).mpr
  intro args words _
  have split : plainWords (commandLine ["quire repo list"]) = .ok ["quire","repo","list"] :=
    congrArg Except.ok (by decide)
  rw [split] at words
  cases words
  decide

-- An option after the allowlisted words names another base directory.
theorem elsewhere_listed : ¬ ∀ (shellWords : String → Except String (List String)) (isDir : PathBuf → Bool) (quire : Quire) (clap : Clap)
    (env : Option String) (command : List String), Documented clap → Closed clap env isDir quire (run shellWords isDir quire command) := by
  intro claimed
  have closed := claimed plainWords (fun _ => true) ours listClap none ["quire repo list --base-dir /elsewhere"] listClap_documented
  have split : plainWords (commandLine ["quire repo list --base-dir /elsewhere"]) =
      .ok ["quire","repo","list","--base-dir","/elsewhere"] := congrArg Except.ok (by decide)
  rw [run_quire split rfl] at closed
  rcases closed with ⟨_,_,_,git,_⟩ | other
  · exact absurd (congrArg Command.program git) (by simp)
  · obtain ⟨_,same⟩ := (runsQuire_iff listClap_documented rfl).mp other
    exact absurd same (by decide)

end Quire.SshExec
