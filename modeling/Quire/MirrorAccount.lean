import Quire.Mirroring

namespace Quire.MirrorAccount
open PushEvents StepSystem Mirroring

-- One push of a ref to a remote of its config, and what came of it.
structure Attempt where
  refName : String
  remote : String × String
  result : Except PushError Sending

def Attempt.sending? (self : Attempt) : Option Sending :=
  match self.result with
  | .ok sending => some sending
  | .error _ => none

def Attempt.failure? (self : Attempt) : Option PushFailure :=
  match self.result with
  | .ok _ => none
  | .error cause => some ⟨self.remote.1,cause⟩

-- What an action learns that the state does not keep: the commit that
-- `resolve_ref` found, and the push that was tried.
inductive Note where
  | tip (refName : String) (sha : Option String)
  | tried (attempt : Attempt)

def Note.attempt? : Note → Option Attempt
  | .tip _ _ => none
  | .tried attempt => some attempt

def Task.note (forge : Forge) (refs : String → Option String) : Action → Task → Option Note
  | .resolve _ _,.pushRef refName => some (.tip refName (refs refName))
  | .push _ sources answer,.pushing mirror (remote :: _) _ _ =>
    (pushRemote forge refs sources answer mirror.refName remote.1 remote.2).map fun result => .tried ⟨mirror.refName,remote,result⟩
  | _,_ => none

abbrev Entry := Action × Option Note

def index? : Action → Option Nat
  | .resolve index _ | .read index _ | .push index _ _ | .finish index => some index
  | .move _ _ | .event _ | .command _ => none

def Host.note (forge : Forge) (s : Host) (action : Action) : Option Note :=
  (index? action).bind fun index => s.tasks[index]?.bind (Task.note forge s.refs action)

def Logged (forge : Forge) (before : Host) (entry : Entry) (after : Host) : Prop :=
  Acts forge before entry.1 after ∧ entry.2 = Host.note forge before entry.1

inductive Start where
  | event (event : PushEvent)
  | command (refName : String)

def Start.task : Start → Task
  | .event pushed => .trigger pushed.dispatched
  | .command refName => .pushRef refName

def start? : Entry → Option Start
  | (.event event,_) => some (.event event)
  | (.command refName,_) => some (.command refName)
  | _ => none

-- The handlers and commands of a transcript, each at the index of its task.
def begun (transcript : List Entry) : List Start := transcript.filterMap start?

def logOf (index : Nat) (transcript : List Entry) : List Entry := transcript.filter fun entry => index? entry.1 == some index

def attempts (transcript : List Entry) : List Attempt := transcript.filterMap fun entry => entry.2.bind Note.attempt?

-- `commands::mirror::push`: what it prints, a failure as the text before its
-- cause, and the error it ends with.
structure Printed where
  stdout : List String
  stderr : List (String × PushError)
  result : Except String Unit

def push (repo refName : String) (outcome : PushOutcome) : Printed :=
  if outcome.pushed.isEmpty && outcome.failed.isEmpty then ⟨["no mirrors configured for " ++ repo],[],.ok ()⟩
  else
    let stdout := outcome.pushed.map fun url => "pushed " ++ refName ++ " to " ++ url
    if !outcome.failed.isEmpty then
      let total := outcome.pushed.length + outcome.failed.length
      ⟨stdout,outcome.failed.map fun failure => ("failed to push " ++ refName ++ " to " ++ failure.url ++ ": ",failure.cause),
        .error (toString outcome.failed.length ++ " of " ++ toString total ++ " mirror(s) rejected " ++ refName)⟩
    else ⟨stdout,[],.ok ()⟩

-- What one entry of its log does to a task.
inductive Moves (forge : Forge) (index : Nat) : Task → Entry → Task → Prop where
  | unresolved : Moves forge index (.pushRef refName) (.resolve index answer,some (.tip refName tip)) (.done (.error error))
  | resolved : Moves forge index (.pushRef refName) (.resolve index (.ok ()),some (.tip refName (some sha))) (.resolved refName sha)
  | skipped (made : Mirror.new forge update.refName update.newSha answer = some (.error error)) :
      Moves forge index (.trigger (update :: rest)) (.read index answer,none) (.trigger rest)
  | planned (made : Mirror.new forge update.refName update.newSha answer = some (.ok mirror)) :
      Moves forge index (.trigger (update :: rest)) (.read index answer,none) (.pushing mirror mirror.mirrors [] (some rest))
  | unread : Moves forge index (.resolved refName sha) (.read index answer,none) (.done (.error error))
  | read (made : Mirror.new forge refName sha answer = some (.ok mirror)) :
      Moves forge index (.resolved refName sha) (.read index answer,none) (.pushing mirror mirror.mirrors [] none)
  | tried {attempt : Attempt} (refName : attempt.refName = mirror.refName) :
      Moves forge index (.pushing mirror (attempt.remote :: left) failures after) (.push index sources answer,some (.tried attempt))
        (.pushing mirror left (failures ++ attempt.failure?.toList) after)
  | handled : Moves forge index (.pushing mirror [] failures (some rest)) (.finish index,none) (.trigger rest)
  | finished : Moves forge index (.pushing mirror [] failures none) (.finish index,none) (.done (.ok (mirror.outcome failures)))

-- The pushes to these remotes, in their order.
def Tries (index : Nat) (refName : String) : List (String × String) → List Entry → Prop :=
  List.Forall₂ fun remote entry => ∃ sources answer result,
    entry = (.push index sources answer,some (.tried ⟨refName,remote,result⟩))

-- What a handler does for one update: it reads the config of the new commit,
-- and if it can it tries each remote of it once.
inductive Serves (forge : Forge) (index : Nat) (update : PushRef) : List Entry → Prop where
  | skipped (made : Mirror.new forge update.refName update.newSha answer = some (.error error)) :
      Serves forge index update [(.read index answer,none)]
  | pushed (made : Mirror.new forge update.refName update.newSha answer = some (.ok mirror))
      (tries : Tries index update.refName mirror.mirrors entries) :
      Serves forge index update ((.read index answer,none) :: entries ++ [(.finish index,none)])

-- A command that ends well has tried each remote of the config at the commit it
-- found, once, and reports each try as it went. Any other has tried none.
def Accounts (forge : Forge) (refName : String) (log : List Entry) : Except MirrorError PushOutcome → Prop
  | .error _ => attempts log = []
  | .ok outcome => ∃ sha config, log.head?.bind Prod.snd = some (.tip refName (some sha)) ∧ repoConfig forge sha = .ok config ∧
      (∀ attempt ∈ attempts log, attempt.refName = refName) ∧ ((attempts log).map Attempt.remote).Perm config.mirrors ∧
      outcome.pushed = ((attempts log).filter fun attempt => attempt.sending?.isSome).map (·.remote.1) ∧
      outcome.failed = (attempts log).filterMap Attempt.failure?

-- What the operator is told of the pushes that were tried.
structure Reported (repo refName : String) (tries : List Attempt) (printed : Printed) : Prop where
  stdout : printed.stdout = if tries = [] then ["no mirrors configured for " ++ repo] else
    (tries.filter fun attempt => attempt.sending?.isSome).map fun attempt => "pushed " ++ refName ++ " to " ++ attempt.remote.1
  stderr : printed.stderr = (tries.filterMap Attempt.failure?).map fun failure =>
    ("failed to push " ++ refName ++ " to " ++ failure.url ++ ": ",failure.cause)
  result : printed.result = .ok () ↔ ∀ attempt ∈ tries, attempt.sending?.isSome = true

-- A push that a remote takes carries the secret that the config names for it.
structure Sends (forge : Forge) (attempt : Attempt) (sending : Sending) : Prop where
  url : sending.url = attempt.remote.1
  refName : sending.refName = attempt.refName
  token : ∃ held sources, forge.secrets.lookup attempt.remote.2 = some held ∧ (held.reveal sources).1 = .ok sending.token

section Steps
variable {forge : Forge} {refs : String → Option String} {task next : Task}

theorem resolve_moves (index : Nat) (stepped : task.resolve refs answer = some next) :
    Moves forge index task (.resolve index answer,Task.note forge refs (.resolve index answer) task) next := by
  unfold Task.resolve at stepped
  split at stepped
  · rename_i refName
    rw [Task.note]
    cases answer with
    | error source => cases stepped; exact .unresolved
    | ok =>
      cases tip : refs refName with
      | none => simp only [tip,Option.some.injEq] at stepped; rw [← stepped]; exact .unresolved
      | some sha => simp only [tip,Option.some.injEq] at stepped; rw [← stepped]; exact .resolved
  · cases stepped

theorem read_moves (index : Nat) (stepped : task.read forge answer = some next) :
    Moves forge index task (.read index answer,Task.note forge refs (.read index answer) task) next := by
  unfold Task.read at stepped
  split at stepped
  · split at stepped
    · cases stepped
    · rename_i made; cases stepped; exact .skipped made
    · rename_i made; cases stepped; exact .planned made
  · split at stepped
    · cases stepped
    · cases stepped; exact .unread
    · rename_i made; cases stepped; exact .read made
  · cases stepped

theorem push_moves (index : Nat) {sources : Secret.Sources} {pushed : Task × Option Sending}
    (stepped : task.push forge refs sources answer = some pushed) :
    ∃ attempt, Task.note forge refs (.push index sources answer) task = some (.tried attempt) ∧ pushed.2 = attempt.sending? ∧
      Moves forge index task (.push index sources answer,some (.tried attempt)) pushed.1 := by
  unfold Task.push at stepped
  split at stepped
  · rename_i mirror remote left failures after
    split at stepped
    · cases stepped
    · rename_i cause refused
      cases stepped
      let attempt : Attempt := ⟨mirror.refName,remote,.error cause⟩
      have refName : attempt.refName = mirror.refName := rfl
      exact ⟨attempt,by simp [Task.note,refused,attempt],rfl,.tried refName⟩
    · rename_i sending taken
      cases stepped
      let attempt : Attempt := ⟨mirror.refName,remote,.ok sending⟩
      have refName : attempt.refName = mirror.refName := rfl
      have moves : Moves forge index (.pushing mirror (remote :: left) failures after) (.push index sources answer,some (.tried attempt))
        (.pushing mirror left (failures ++ []) after) := .tried refName
      rw [List.append_nil] at moves
      exact ⟨attempt,by simp [Task.note,taken,attempt],rfl,moves⟩
  · cases stepped

theorem finish_moves (index : Nat) (stepped : task.finish = some next) :
    Moves forge index task (.finish index,Task.note forge refs (.finish index) task) next := by
  unfold Task.finish at stepped
  split at stepped
  · cases stepped; exact .handled
  · cases stepped; exact .finished
  · cases stepped

end Steps

-- An entry begins a task, moves a ref, or takes one task a step further.
inductive Change (forge : Forge) (before : Host) (entry : Entry) (after : Host) : Prop where
  | begins (starts : start? entry = some start) (idle : index? entry.1 = none) (tasks : after.tasks = before.tasks ++ [start.task])
      (sent : after.sent = before.sent) (silent : entry.2 = none)
  | moves (starts : start? entry = none) (idle : index? entry.1 = none) (tasks : after.tasks = before.tasks)
      (sent : after.sent = before.sent) (silent : entry.2 = none)
  | steps (starts : start? entry = none) (mine : index? entry.1 = some index) (held : before.tasks[index]? = some task)
      (step : Moves forge index task entry next) (tasks : after.tasks = before.tasks.set index next)
      (sent : after.sent = before.sent ++ ((entry.2.bind Note.attempt?).bind Attempt.sending?).toList)

-- A step that sends nothing.
theorem quiet_change {forge : Forge} {before after : Host} {action : Action} {index : Nat} {step : Task → Option Task}
    (mine : index? action = some index) (starts : start? (action,Host.note forge before action) = none)
    (moves : ∀ task next, step task = some next → Moves forge index task (action,Task.note forge before.refs action task) next)
    (silent : ∀ task, (Task.note forge before.refs action task).bind Note.attempt? = none)
    (advanced : (before.advance index fun task => (step task).map (·,none)) = some after) :
    Change forge before (action,Host.note forge before action) after := by
  obtain ⟨task,moved,held,stepped,rfl⟩ := advance_ok advanced
  obtain ⟨next,mapped,rfl⟩ := Option.map_eq_some_iff.mp stepped
  have note : Host.note forge before action = Task.note forge before.refs action task := by simp [Host.note,mine,held]
  refine .steps starts mine held (by rw [note]; exact moves task next mapped) rfl ?_
  simp [note,silent]

theorem logged_change {forge : Forge} {before after : Host} {entry : Entry} (logged : Logged forge before entry after) :
    Change forge before entry after := by
  obtain ⟨action,noted⟩ := entry
  obtain ⟨step,seen⟩ := logged
  dsimp only at step seen
  subst seen
  cases action with
  | move refName tip => cases step; exact .moves rfl rfl rfl rfl rfl
  | event event => cases step; exact .begins rfl rfl rfl rfl rfl
  | command refName => cases step; exact .begins rfl rfl rfl rfl rfl
  | resolve index answer =>
    exact quiet_change rfl rfl (fun task next => resolve_moves index) (fun task => by cases task <;> rfl) step
  | read index answer => exact quiet_change rfl rfl (fun task next => read_moves index) (fun task => by cases task <;> rfl) step
  | finish index => exact quiet_change rfl rfl (fun task next => finish_moves index) (fun task => by cases task <;> rfl) step
  | push index sources answer =>
    obtain ⟨task,pushed,held,stepped,rfl⟩ := advance_ok step
    obtain ⟨attempt,tried,sends,moves⟩ := push_moves index stepped
    have note : Host.note forge before (.push index sources answer) = some (.tried attempt) := by
      simpa [Host.note,index?,held] using tried
    refine .steps rfl rfl held (by rw [note]; exact moves) rfl ?_
    simp [note,Note.attempt?,sends]

section Logs
variable {forge : Forge} {before after : Host} {transcript : List Entry} {entry : Entry}

theorem logOf_mine (mine : index? entry.1 = some index) : logOf index (transcript ++ [entry]) = logOf index transcript ++ [entry] := by
  simp [logOf,List.filter_append,mine]

theorem logOf_other (other : index? entry.1 ≠ some index) : logOf index (transcript ++ [entry]) = logOf index transcript := by
  simp [logOf,List.filter_append,other]

theorem begun_snoc : begun (transcript ++ [entry]) = begun transcript ++ (start? entry).toList := by
  unfold begun
  rw [List.filterMap_append]
  cases starts : start? entry <;> simp [starts]

-- The tasks of a host are those begun, each where its own log has brought it.
structure Kept (forge : Forge) (transcript : List Entry) (s : Host) : Prop where
  size : s.tasks.length = (begun transcript).length
  inside : ∀ index, s.tasks.length ≤ index → logOf index transcript = []
  follows : ∀ index start, (begun transcript)[index]? = some start →
    ∃ task, s.tasks[index]? = some task ∧ Runs (Moves forge index) start.task (logOf index transcript) task
  sent : s.sent = (attempts transcript).filterMap Attempt.sending?

theorem attempts_snoc : attempts (transcript ++ [entry]) = attempts transcript ++ (entry.2.bind Note.attempt?).toList := by
  unfold attempts
  rw [List.filterMap_append]
  cases noted : entry.2.bind Note.attempt? <;> simp [noted]

theorem attempts_silent (silent : entry.2.bind Note.attempt? = none) : attempts (transcript ++ [entry]) = attempts transcript := by
  rw [attempts_snoc,silent]
  exact List.append_nil _

theorem sent_snoc (sent : before.sent = (attempts transcript).filterMap Attempt.sending?)
    (grown : after.sent = before.sent ++ ((entry.2.bind Note.attempt?).bind Attempt.sending?).toList) :
    after.sent = (attempts (transcript ++ [entry])).filterMap Attempt.sending? := by
  rw [grown,sent,attempts_snoc,List.filterMap_append]
  cases entry.2.bind Note.attempt? with
  | none => rfl
  | some attempt => cases sends : attempt.sending? <;> simp [sends]

theorem change_kept (kept : Kept forge transcript before) (change : Change forge before entry after) :
    Kept forge (transcript ++ [entry]) after := by
  cases change with
  | @begins start starts idle tasks sent silent =>
    have logs : ∀ index, logOf index (transcript ++ [entry]) = logOf index transcript :=
      fun index => logOf_other (by rw [idle]; exact nofun)
    constructor
    · rw [tasks,begun_snoc,starts]
      simp [kept.size]
    · intro index behind
      rw [logs]
      exact kept.inside index (Nat.le_trans (by simp [tasks]) behind)
    · intro index other found
      rw [logs,tasks]
      rw [begun_snoc,starts,Option.toList_some] at found
      by_cases old : index < (begun transcript).length
      · rw [List.getElem?_append_left old] at found
        rw [List.getElem?_append_left (by rw [kept.size]; exact old)]
        exact kept.follows index other found
      · have new : index = before.tasks.length := by
          have bound := (List.getElem?_eq_some_iff.mp found).1
          simp only [List.length_append,List.length_singleton,← kept.size] at bound old
          omega
        subst new
        rw [kept.size,List.getElem?_concat_length] at found
        cases found
        exact ⟨start.task,by simp,by rw [kept.inside _ (Nat.le_refl _)]; exact .nil⟩
    · exact sent_snoc kept.sent (by simp [sent,silent])
  | moves starts idle tasks sent silent =>
    have logs : ∀ index, logOf index (transcript ++ [entry]) = logOf index transcript :=
      fun index => logOf_other (by rw [idle]; exact nofun)
    constructor
    · rw [tasks,begun_snoc,starts]
      simpa using kept.size
    · intro index behind
      rw [logs]
      exact kept.inside index (by rwa [tasks] at behind)
    · intro index start found
      rw [logs,tasks]
      rw [begun_snoc,starts] at found
      exact kept.follows index start (by simpa using found)
    · exact sent_snoc kept.sent (by simp [sent,silent])
  | @steps index task next starts mine held step tasks sent =>
    have same : after.tasks.length = before.tasks.length := by rw [tasks,List.length_set]
    have bound := (List.getElem?_eq_some_iff.mp held).1
    constructor
    · rw [same,begun_snoc,starts]
      simpa using kept.size
    · intro other behind
      rw [logOf_other (by rw [mine]; rintro ⟨⟩; omega)]
      exact kept.inside other (by rwa [same] at behind)
    · intro other start found
      rw [begun_snoc,starts] at found
      obtain ⟨last,there,path⟩ := kept.follows other start (by simpa using found)
      by_cases equal : other = index
      · subst equal
        cases held.symm.trans there
        exact ⟨next,by simp [tasks,bound],by rw [logOf_mine mine]; exact path.step step⟩
      · refine ⟨last,by rw [tasks,List.getElem?_set_ne (Ne.symm equal)]; exact there,?_⟩
        rwa [logOf_other (by rw [mine]; rintro ⟨⟩; exact equal rfl)]
    · exact sent_snoc kept.sent sent

theorem runs_kept (run : Runs (Logged forge) Host.start transcript s) : Kept forge transcript s := by
  generalize origin : Host.start = first at run
  induction run with
  | nil =>
    subst origin
    exact ⟨rfl,fun _ _ => rfl,fun _ _ => nofun,rfl⟩
  | step prior step ih => exact change_kept ih (logged_change step)

end Logs

section Handlers
variable {forge : Forge} {index : Nat} {updates : List PushRef} {log : List Entry} {task next : Task} {entry : Entry}

theorem new_config (made : Mirror.new forge refName sha answer = some (.ok mirror)) :
    mirror.refName = refName ∧ ∃ config, repoConfig forge sha = .ok config ∧ mirror.mirrors.Perm config.mirrors := by
  unfold Mirror.new at made
  split at made
  · cases made
  · split at made
    · cases made
    · rename_i config read
      split at made
      · rename_i walked
        cases made
        exact ⟨rfl,config,read,walked⟩
      · cases made

-- Some updates are served, and the next one may be half way.
def HandlerAt (forge : Forge) (index : Nat) (updates : List PushRef) (log : List Entry) : Task → Prop
  | .trigger rest => ∃ served blocks, updates = served ++ rest ∧ List.Forall₂ (Serves forge index) served blocks ∧ log = blocks.flatten
  | .pushing mirror left _ (some rest) => ∃ served blocks update answer tried entries, updates = served ++ update :: rest ∧
      List.Forall₂ (Serves forge index) served blocks ∧ Mirror.new forge update.refName update.newSha answer = some (.ok mirror) ∧
      mirror.mirrors = tried ++ left ∧ Tries index update.refName tried entries ∧
      log = blocks.flatten ++ (.read index answer,none) :: entries
  | _ => False

theorem served_snoc {served : List PushRef} {blocks : List (List Entry)} (before : List.Forall₂ (Serves forge index) served blocks)
    (serves : Serves forge index update block) : List.Forall₂ (Serves forge index) (served ++ [update]) (blocks ++ [block]) :=
  List.rel_append before (.cons serves .nil)

theorem handlerAt_step (at_ : HandlerAt forge index updates log task) (step : Moves forge index task entry next) :
    HandlerAt forge index updates (log ++ [entry]) next := by
  cases step with
  | unresolved | resolved | unread | read | finished => exact at_.elim
  | skipped made =>
    obtain ⟨served,blocks,rfl,before,rfl⟩ := at_
    exact ⟨_,_,by simp,served_snoc before (.skipped made),by simp⟩
  | planned made =>
    obtain ⟨served,blocks,rfl,before,rfl⟩ := at_
    exact ⟨served,blocks,_,_,[],[],rfl,before,made,rfl,.nil,rfl⟩
  | @tried mirror left failures after sources answer attempt refName =>
    cases after with
    | none => exact at_.elim
    | some rest =>
      obtain ⟨served,blocks,update,config,tried,entries,rfl,before,made,walked,tries,rfl⟩ := at_
      obtain ⟨name,remote,result⟩ := attempt
      have same : name = update.refName := refName.trans (new_config made).1
      subst same
      let entry : Entry := (.push index sources answer,some (.tried ⟨update.refName,remote,result⟩))
      have whole : Tries index update.refName (tried ++ [remote]) (entries ++ [entry]) :=
        List.rel_append tries (.cons ⟨sources,answer,result,rfl⟩ .nil)
      exact ⟨served,blocks,update,config,_,_,rfl,before,made,by simpa using walked,whole,by simp [entry]⟩
  | handled =>
    obtain ⟨served,blocks,update,config,tried,entries,rfl,before,made,walked,tries,rfl⟩ := at_
    rw [List.append_nil] at walked
    rw [← walked] at tries
    exact ⟨_,_,by simp,served_snoc before (.pushed made tries),by simp⟩

theorem handlerAt_run (path : Runs (Moves forge index) (.trigger updates) log task) : HandlerAt forge index updates log task := by
  generalize origin : Task.trigger updates = first at path
  induction path with
  | nil => subst origin; exact ⟨[],[],rfl,.nil,rfl⟩
  | step prior step ih => exact handlerAt_step ih step

end Handlers

section Commands
variable {forge : Forge} {index : Nat} {refName : String} {log : List Entry} {task next : Task} {entry : Entry}

-- With every URL tried once, the ones that did not fail are the ones that were
-- pushed.
theorem outcome_pushed {tries : List Attempt} (once : (tries.map (·.remote.1)).Nodup) :
    (tries.map (·.remote.1)).filter (fun url => !(tries.filterMap Attempt.failure?).any fun failure => failure.url == url) =
      (tries.filter fun attempt => attempt.sending?.isSome).map (·.remote.1) := by
  rw [List.filter_map]
  refine congrArg (List.map _) (List.filter_congr fun attempt tried => ?_)
  have failed : (tries.filterMap Attempt.failure?).any (fun failure => failure.url == attempt.remote.1) = true ↔
      attempt.sending?.isSome = false := by
    rw [List.any_eq_true]
    constructor
    · rintro ⟨failure,member,url⟩
      obtain ⟨other,inside,fails⟩ := List.mem_filterMap.mp member
      have same : other.remote.1 = attempt.remote.1 := by
        cases result : other.result with
        | ok sending => simp [Attempt.failure?,result] at fails
        | error cause =>
          simp only [Attempt.failure?,result,Option.some.injEq] at fails
          simpa [← fails] using url
      cases List.inj_on_of_nodup_map once inside tried same
      cases result : attempt.result <;> simp_all [Attempt.failure?,Attempt.sending?]
    · intro refused
      cases result : attempt.result with
      | ok sending => simp [Attempt.sending?,result] at refused
      | error cause =>
        exact ⟨⟨attempt.remote.1,cause⟩,List.mem_filterMap.mpr ⟨attempt,tried,by simp [Attempt.failure?,result]⟩,by simp⟩
  cases taken : attempt.sending?.isSome with
  | false => simpa using failed.mpr taken
  | true =>
    have none : ¬ (tries.filterMap Attempt.failure?).any (fun failure => failure.url == attempt.remote.1) = true := fun any => by
      rw [failed.mp any] at taken
      cases taken
    simpa using none

-- A command before and behind the reading of its config.
def CommandAt (forge : Forge) (refName : String) (log : List Entry) : Task → Prop
  | .pushRef name => name = refName ∧ log = []
  | .resolved name sha => name = refName ∧ log.head?.bind Prod.snd = some (.tip refName (some sha)) ∧ attempts log = []
  | .pushing mirror left failures none => ∃ sha answer, log.head?.bind Prod.snd = some (.tip refName (some sha)) ∧
      Mirror.new forge refName sha answer = some (.ok mirror) ∧ (attempts log).map Attempt.remote ++ left = mirror.mirrors ∧
      (∀ attempt ∈ attempts log, attempt.refName = refName) ∧ failures = (attempts log).filterMap Attempt.failure?
  | .done result => Accounts forge refName log result
  | _ => False

theorem head_snoc {log : List Entry} (first : log.head?.bind Prod.snd = some note) :
    (log ++ [entry]).head?.bind Prod.snd = some note := by
  cases log with
  | nil => cases first
  | cons head rest => exact first

theorem finished_accounts (first : log.head?.bind Prod.snd = some (.tip refName (some sha)))
    (made : Mirror.new forge refName sha answer = some (.ok mirror)) (walked : (attempts log).map Attempt.remote = mirror.mirrors)
    (named : ∀ attempt ∈ attempts log, attempt.refName = refName) :
    Accounts forge refName log (.ok (mirror.outcome ((attempts log).filterMap Attempt.failure?))) := by
  obtain ⟨_,config,read,perm⟩ := new_config made
  rw [← walked] at perm
  have urls : mirror.mirrors.map Prod.fst = (attempts log).map (·.remote.1) := by
    rw [← walked,List.map_map]
    rfl
  have once : ((attempts log).map (·.remote.1)).Nodup := by
    have distinct := (perm.map Prod.fst).nodup_iff.mpr config.distinct
    rwa [walked,urls] at distinct
  refine ⟨sha,config,first,read,named,perm,?_,rfl⟩
  rw [Mirror.outcome,urls]
  exact outcome_pushed once

theorem commandAt_step (at_ : CommandAt forge refName log task) (step : Moves forge index task entry next) :
    CommandAt forge refName (log ++ [entry]) next := by
  cases step with
  | skipped | planned | handled => exact at_.elim
  | unresolved =>
    obtain ⟨rfl,rfl⟩ := at_
    rfl
  | resolved =>
    obtain ⟨rfl,rfl⟩ := at_
    exact ⟨rfl,rfl,rfl⟩
  | unread =>
    obtain ⟨rfl,first,none⟩ := at_
    exact (attempts_silent rfl).trans none
  | @read name sha answer mirror made =>
    obtain ⟨rfl,first,none⟩ := at_
    have silent : attempts (log ++ [(.read index answer,Option.none)]) = [] := (attempts_silent rfl).trans none
    refine ⟨sha,answer,head_snoc first,made,?_,?_,?_⟩ <;> rw [silent]
    · rfl
    · simp
    · rfl
  | @tried mirror left failures after sources answer attempt name =>
    cases after with
    | some rest => exact at_.elim
    | none =>
      obtain ⟨sha,config,first,made,walked,named,rfl⟩ := at_
      have more : attempts (log ++ [(.push index sources answer,some (.tried attempt))]) = attempts log ++ [attempt] := attempts_snoc
      refine ⟨sha,config,head_snoc first,made,?_,?_,?_⟩
      · rw [more]
        simpa using walked
      · intro other member
        rw [more] at member
        rcases List.mem_append.mp member with old | new
        · exact named other old
        · rw [List.mem_singleton.mp new,name,(new_config made).1]
      · rw [more,List.filterMap_append]
        cases fails : attempt.failure? <;> simp [fails]
  | finished =>
    obtain ⟨sha,config,first,made,walked,named,rfl⟩ := at_
    have same : attempts (log ++ [(.finish index,none)]) = attempts log := attempts_silent rfl
    rw [List.append_nil] at walked
    rw [← same] at walked named ⊢
    exact finished_accounts (head_snoc first) made walked named

theorem commandAt_run (path : Runs (Moves forge index) (.pushRef refName) log task) : CommandAt forge refName log task := by
  generalize origin : Task.pushRef refName = first at path
  induction path with
  | nil => subst origin; exact ⟨rfl,rfl⟩
  | step prior step ih => exact commandAt_step ih step

end Commands

section Accounts
variable {forge : Forge} {refName : String} {log transcript : List Entry} {s : Host}

theorem failure_iff (attempt : Attempt) : attempt.failure? = none ↔ attempt.sending?.isSome = true := by
  cases result : attempt.result <;> simp [Attempt.failure?,Attempt.sending?,result]

theorem push_reported (accounts : Accounts forge refName log (.ok outcome)) (repo : String) :
    Reported repo refName (attempts log) (push repo refName outcome) := by
  obtain ⟨sha,config,_,_,_,_,pushed,failed⟩ := accounts
  generalize attempts log = tries at pushed failed ⊢
  have refusals : outcome.failed = [] ↔ ∀ attempt ∈ tries, attempt.sending?.isSome = true := by
    rw [failed,List.filterMap_eq_nil_iff]
    exact forall₂_congr fun attempt _ => failure_iff attempt
  have untried : outcome.pushed = [] ∧ outcome.failed = [] ↔ tries = [] := by
    rw [refusals,pushed,List.map_eq_nil_iff,List.filter_eq_nil_iff]
    constructor
    · intro both
      exact List.eq_nil_iff_forall_not_mem.mpr fun attempt tried => both.1 attempt tried (both.2 attempt tried)
    · rintro rfl
      exact ⟨nofun,nofun⟩
  unfold push
  by_cases none : tries = []
  · obtain ⟨noPush,noFailure⟩ := untried.mpr none
    rw [if_pos (by simp [noPush,noFailure])]
    exact ⟨by simp [none],by simp [none],by simp [none]⟩
  · rw [if_neg (by simpa using mt untried.mp none)]
    by_cases fine : outcome.failed = []
    · rw [if_neg (by simp [fine])]
      refine ⟨by simp [none,pushed],?_,by simpa using refusals.mp fine⟩
      rw [← failed,fine]
      rfl
    · rw [if_pos (by simpa using fine)]
      exact ⟨by simp [none,pushed],by rw [← failed],by simpa using mt refusals.mpr fine⟩

theorem note_sends {action : Action} {attempt : Attempt} (noted : Host.note forge s action = some (.tried attempt))
    (taken : attempt.result = .ok sending) : Sends forge attempt sending := by
  obtain ⟨index,mine,noted⟩ := Option.bind_eq_some_iff.mp noted
  obtain ⟨task,held,noted⟩ := Option.bind_eq_some_iff.mp noted
  unfold Task.note at noted
  split at noted
  · cases noted
  · obtain ⟨result,pushed,same⟩ := Option.map_eq_some_iff.mp noted
    cases same
    dsimp only at taken
    subst taken
    obtain ⟨url,name,_⟩ := pushRemote_sends pushed
    refine ⟨url,name,?_⟩
    unfold pushRemote at pushed
    split at pushed
    · cases pushed
    · rename_i held stored
      split at pushed
      · cases pushed
      · rename_i token revealed
        split at pushed
        · cases pushed
        · obtain ⟨sha,_,rest⟩ := Option.map_eq_some_iff.mp pushed
          cases rest
          exact ⟨held,_,stored,revealed⟩
  · cases noted

theorem runs_send (run : Runs (Logged forge) Host.start transcript s) :
    ∀ attempt ∈ attempts transcript, ∀ sending, attempt.result = .ok sending → Sends forge attempt sending := by
  induction run with
  | nil => exact fun _ => nofun
  | @step earlier middle entry after prior step ih =>
    intro attempt member sending taken
    rw [attempts_snoc] at member
    rcases List.mem_append.mp member with old | new
    · exact ih attempt old sending taken
    · obtain ⟨note,noted,tried⟩ := Option.bind_eq_some_iff.mp (Option.mem_toList.mp new)
      cases note with
      | tip => cases tried
      | tried other =>
        cases tried
        exact note_sends (step.2.symm.trans noted) taken

end Accounts

-- A command pushes to the one remote of the config, which takes the ref.
def sampleTranscript : List Entry := [
  (.move "refs/heads/main" (some "c1"),none),
  (.command "refs/heads/main",none),
  (.resolve 0 (.ok ()),some (.tip "refs/heads/main" (some "c1"))),
  (.read 0 (.ok [("https://mirror.test","mirror")]),none),
  (.push 0 noSources (.ok ()),some (.tried ⟨"refs/heads/main",("https://mirror.test","mirror"),
    .ok ⟨"https://mirror.test","refs/heads/main","c1","push-token"⟩⟩)),
  (.finish 0,none)]

end Quire.MirrorAccount
