import Quire.PushEvents
import Quire.Secret
import Quire.StepSystem

namespace Quire.Mirroring
open PushEvents StepSystem

-- `:mirrors` of a `.quire/config.fnl`: the URL of each remote, with the name of
-- the global secret that holds its push token.
structure RepoConfig where
  mirrors : List (String × String)
  distinct : (mirrors.map Prod.fst).Nodup

def RepoConfig.default : RepoConfig := ⟨[],List.nodup_nil⟩

-- What stands still while refs move: the config file of every commit, how
-- Fennel reads one, and the global secrets.
structure Forge where
  configFile : String → Option String
  loadConfigStr : String → Except String RepoConfig
  secrets : AList (fun _ : String => Secret.SecretString)

-- `Repo::repo_config`
def repoConfig (forge : Forge) (sha : String) : Except String RepoConfig :=
  match forge.configFile sha with
  | none => .ok .default
  | some source => forge.loadConfigStr source

def Lists (forge : Forge) (sha url : String) : Prop :=
  ∃ config, repoConfig forge sha = .ok config ∧ url ∈ config.mirrors.map Prod.fst

inductive PushError where
  | rejected (stderr : String)
  | secret (error : Secret.Error)
  | spawn (source : String)
  deriving DecidableEq, Repr

structure PushFailure where
  url : String
  cause : PushError
  deriving DecidableEq, Repr

structure PushOutcome where
  pushed : List String
  failed : List PushFailure
  deriving DecidableEq, Repr

-- The part of the crate's error that `push_ref` can return.
inductive MirrorError where
  | io (source : String)
  | refNotFound (refName : String)
  | config (error : String)
  deriving DecidableEq, Repr

-- The plan for one ref, with its remotes in the order the HashMap is walked in.
structure Mirror where
  refName : String
  mirrors : List (String × String)
  deriving DecidableEq, Repr

-- A handler in `mirror::trigger` or a `quire mirror push`, by the command of git
-- it is about to run. `after` holds the refs a handler goes on with.
inductive Task where
  | trigger (refs : List PushRef)
  | pushRef (refName : String)
  | resolved (refName sha : String)
  | pushing (mirror : Mirror) (left : List (String × String)) (failures : List PushFailure) (after : Option (List PushRef))
  | done (result : Except MirrorError PushOutcome)

-- One ref tip that a remote has taken, and the token it was sent with.
structure Sending where
  url : String
  refName : String
  sha : String
  token : String
  deriving DecidableEq, Repr

structure Host where
  refs : String → Option String
  tasks : List Task
  sent : List Sending

def Host.start : Host := ⟨fun _ => none,[],[]⟩

-- The answer is the failure to run git, or the order of the HashMap.
def Mirror.new (forge : Forge) (refName sha : String) (answer : Except String (List (String × String))) :
    Option (Except MirrorError Mirror) :=
  match answer with
  | .error source => some (.error (.io source))
  | .ok order =>
    match repoConfig forge sha with
    | .error error => some (.error (.config error))
    | .ok config => if order.Perm config.mirrors then some (.ok ⟨refName,order⟩) else none

def Task.resolve (refs : String → Option String) (answer : Except String Unit) : Task → Option Task
  | .pushRef refName =>
    match answer with
    | .error source => some (.done (.error (.io source)))
    | .ok () =>
      match refs refName with
      | none => some (.done (.error (.refNotFound refName)))
      | some sha => some (.resolved refName sha)
  | _ => none

-- A handler logs a config it cannot read and goes on with its next ref.
def Task.read (forge : Forge) (answer : Except String (List (String × String))) : Task → Option Task
  | .trigger (update :: rest) =>
    match Mirror.new forge update.refName update.newSha answer with
    | none => none
    | some (.error _) => some (.trigger rest)
    | some (.ok mirror) => some (.pushing mirror mirror.mirrors [] (some rest))
  | .resolved refName sha =>
    match Mirror.new forge refName sha answer with
    | none => none
    | some (.error error) => some (.done (.error error))
    | some (.ok mirror) => some (.pushing mirror mirror.mirrors [] none)
  | _ => none

-- git sends what the ref points at when it runs, and fails on a missing ref.
def pushRemote (forge : Forge) (refs : String → Option String) (sources : Secret.Sources) (answer : Except PushError Unit)
    (refName url secret : String) : Option (Except PushError Sending) :=
  match forge.secrets.lookup secret with
  | none => some (.error (.secret (.unknownSecret secret)))
  | some held =>
    match (held.reveal sources).1 with
    | .error error => some (.error (.secret error))
    | .ok token =>
      match answer with
      | .error cause => some (.error cause)
      | .ok () => (refs refName).map fun sha => .ok ⟨url,refName,sha,token⟩

def Task.push (forge : Forge) (refs : String → Option String) (sources : Secret.Sources) (answer : Except PushError Unit) :
    Task → Option (Task × Option Sending)
  | .pushing mirror (remote :: left) failures after =>
    match pushRemote forge refs sources answer mirror.refName remote.1 remote.2 with
    | none => none
    | some (.error cause) => some (.pushing mirror left (failures ++ [⟨remote.1,cause⟩]) after,none)
    | some (.ok sending) => some (.pushing mirror left failures after,some sending)
  | _ => none

def Mirror.outcome (mirror : Mirror) (failures : List PushFailure) : PushOutcome :=
  ⟨(mirror.mirrors.map Prod.fst).filter fun url => !failures.any fun failure => failure.url == url,failures⟩

-- All remotes have been tried. A handler has logged the failures by now.
def Task.finish : Task → Option Task
  | .pushing _ [] _ (some rest) => some (.trigger rest)
  | .pushing mirror [] failures none => some (.done (.ok (mirror.outcome failures)))
  | _ => none

-- A push to the repository moves a ref at any time. Handlers and commands begin
-- at any time, and any of them may be the next to run its command.
inductive Action where
  | move (refName : String) (tip : Option String)
  | event (event : PushEvent)
  | command (refName : String)
  | resolve (index : Nat) (answer : Except String Unit)
  | read (index : Nat) (answer : Except String (List (String × String)))
  | push (index : Nat) (sources : Secret.Sources) (answer : Except PushError Unit)
  | finish (index : Nat)

def Host.advance (s : Host) (index : Nat) (step : Task → Option (Task × Option Sending)) : Option Host :=
  (s.tasks[index]?.bind step).map fun next => ⟨s.refs,s.tasks.set index next.1,s.sent ++ next.2.toList⟩

def Host.act (forge : Forge) (s : Host) : Action → Option Host
  | .move refName tip => some { s with refs := Function.update s.refs refName tip }
  | .event event => some { s with tasks := s.tasks ++ [.trigger event.dispatched] }
  | .command refName => some { s with tasks := s.tasks ++ [.pushRef refName] }
  | .resolve index answer => s.advance index fun task => (task.resolve s.refs answer).map (·,none)
  | .read index answer => s.advance index fun task => (task.read forge answer).map (·,none)
  | .push index sources answer => s.advance index fun task => task.push forge s.refs sources answer
  | .finish index => s.advance index fun task => task.finish.map (·,none)

def Acts (forge : Forge) (before : Host) (action : Action) (after : Host) : Prop := before.act forge action = some after

-- The task has this remote of this ref still to push to.
def Task.Aims (refName url : String) : Task → Prop
  | .pushing mirror left _ _ => mirror.refName = refName ∧ url ∈ left.map Prod.fst
  | _ => False

-- The ref whose config the task reads next, and the commit it reads it from.
def Task.reads? : Task → Option (String × String)
  | .trigger (update :: _) => some (update.refName,update.newSha)
  | .resolved refName sha => some (refName,sha)
  | _ => none

-- The pushes leave the pending work alone: a ref moves to a commit that lists
-- every remote still to be pushed to, and a config is read only while the tip of
-- its ref lists every remote of that config.
def Undisturbed (forge : Forge) (s : Host) : Action → Prop
  | .move refName tip => ∀ task ∈ s.tasks, ∀ url, task.Aims refName url → ∀ sha ∈ tip, Lists forge sha url
  | .read index _ => ∀ task ∈ s.tasks[index]?, ∀ read ∈ task.reads?, ∀ sha ∈ s.refs read.1,
      ∀ url, Lists forge read.2 url → Lists forge sha url
  | _ => True

structure Sound (forge : Forge) (s : Host) : Prop where
  pending : ∀ task ∈ s.tasks, ∀ refName url, task.Aims refName url → ∀ sha ∈ s.refs refName, Lists forge sha url
  sent : ∀ sending ∈ s.sent, Lists forge sending.sha sending.url

theorem new_lists {forge : Forge} (made : Mirror.new forge refName sha answer = some (.ok mirror)) :
    mirror.refName = refName ∧ ∀ url ∈ mirror.mirrors.map Prod.fst, Lists forge sha url := by
  unfold Mirror.new at made
  split at made
  · cases made
  · split at made
    · cases made
    · rename_i config read
      split at made
      · rename_i walked
        cases made
        refine ⟨rfl,fun url listed => ⟨config,read,?_⟩⟩
        exact (walked.map Prod.fst).mem_iff.mp listed
      · cases made

theorem resolve_aims {refs : String → Option String} {task next : Task} (stepped : task.resolve refs answer = some next) :
    ¬ next.Aims refName url := by
  unfold Task.resolve at stepped
  split at stepped
  · split at stepped
    · cases stepped; exact fun aims => aims
    · split at stepped <;> cases stepped <;> exact fun aims => aims
  · cases stepped

theorem made_aims (made : Mirror.new forge name sha answer = some (.ok mirror))
    (aims : Task.Aims refName url (.pushing mirror mirror.mirrors refused rest)) : name = refName ∧ Lists forge sha url := by
  obtain ⟨same,listed⟩ := new_lists made
  exact ⟨same.symm.trans aims.1,listed url aims.2⟩

-- A plan aims only where the commit it was read from says.
theorem read_aims {task next : Task} (stepped : task.read forge answer = some next) (aims : next.Aims refName url) :
    ∃ read ∈ task.reads?, read.1 = refName ∧ Lists forge read.2 url := by
  unfold Task.read at stepped
  split at stepped
  · rename_i update rest
    split at stepped
    · cases stepped
    · cases stepped; exact aims.elim
    · rename_i mirror made
      cases stepped
      exact ⟨_,rfl,made_aims made aims⟩
  · rename_i name sha
    split at stepped
    · cases stepped
    · cases stepped; exact aims.elim
    · rename_i mirror made
      cases stepped
      exact ⟨_,rfl,made_aims made aims⟩
  · cases stepped

theorem pushRemote_sends {refs : String → Option String}
    (pushed : pushRemote forge refs sources answer refName url secret = some (.ok sending)) :
    sending.url = url ∧ sending.refName = refName ∧ refs refName = some sending.sha := by
  unfold pushRemote at pushed
  split at pushed
  · cases pushed
  · split at pushed
    · cases pushed
    · split at pushed
      · cases pushed
      · obtain ⟨sha,tip,same⟩ := Option.map_eq_some_iff.mp pushed
        cases same
        exact ⟨rfl,rfl,tip⟩

-- A push goes to a remote the task aims at, and carries the tip of the moment.
theorem push_aims {refs : String → Option String} {task : Task} (stepped : task.push forge refs sources answer = some next) :
    (∀ refName url, next.1.Aims refName url → task.Aims refName url) ∧
      ∀ sending ∈ next.2, task.Aims sending.refName sending.url ∧ refs sending.refName = some sending.sha := by
  unfold Task.push at stepped
  split at stepped
  · rename_i mirror remote left failures after
    have behind : ∀ refName url, mirror.refName = refName ∧ url ∈ left.map Prod.fst →
        mirror.refName = refName ∧ url ∈ (remote :: left).map Prod.fst :=
      fun _ _ aims => ⟨aims.1,List.mem_cons_of_mem _ aims.2⟩
    split at stepped
    · cases stepped
    · cases stepped
      exact ⟨behind,fun sending none => nomatch none⟩
    · rename_i sending pushed
      cases stepped
      refine ⟨behind,fun other same => ?_⟩
      cases same
      obtain ⟨url,refName,tip⟩ := pushRemote_sends pushed
      refine ⟨⟨refName.symm,?_⟩,by rw [refName]; exact tip⟩
      rw [url]
      exact List.mem_cons_self
  · cases stepped

theorem finish_aims {task next : Task} (stepped : task.finish = some next) : ¬ next.Aims refName url := by
  unfold Task.finish at stepped
  split at stepped <;> cases stepped <;> exact fun aims => aims

theorem advance_ok {s after : Host} (advanced : s.advance index step = some after) : ∃ task next,
    s.tasks[index]? = some task ∧ step task = some next ∧ after = ⟨s.refs,s.tasks.set index next.1,s.sent ++ next.2.toList⟩ := by
  obtain ⟨next,stepped,rfl⟩ := Option.map_eq_some_iff.mp advanced
  obtain ⟨task,held,stepped⟩ := Option.bind_eq_some_iff.mp stepped
  exact ⟨task,next,held,stepped,rfl⟩

theorem advance_sound {s after : Host} (sound : Sound forge s) (advanced : s.advance index step = some after)
    (pending : ∀ task next, s.tasks[index]? = some task → step task = some next →
      ∀ refName url, next.1.Aims refName url → ∀ sha ∈ s.refs refName, Lists forge sha url)
    (sent : ∀ task next, s.tasks[index]? = some task → step task = some next →
      ∀ sending ∈ next.2, Lists forge sending.sha sending.url) : Sound forge after := by
  obtain ⟨task,next,held,stepped,rfl⟩ := advance_ok advanced
  constructor
  · intro other member
    rcases List.mem_or_eq_of_mem_set member with old | rfl
    · exact sound.pending other old
    · exact pending task next held stepped
  · intro sending member
    rcases List.mem_append.mp member with old | new
    · exact sound.sent sending old
    · exact sent task next held stepped sending (Option.mem_toList.mp new)

theorem begin_sound {s : Host} (sound : Sound forge s) (idle : ∀ refName url, ¬ Task.Aims refName url task) :
    Sound forge { s with tasks := s.tasks ++ [task] } := by
  refine ⟨fun other member => ?_,sound.sent⟩
  rcases List.mem_append.mp member with old | new
  · exact sound.pending other old
  · rw [List.mem_singleton.mp new]
    exact fun refName url aims => absurd aims (idle refName url)

-- A step that sends nothing.
theorem silent_sound {s after : Host} {step : Task → Option Task} (sound : Sound forge s)
    (pending : ∀ task next, s.tasks[index]? = some task → step task = some next →
      ∀ refName url, next.Aims refName url → ∀ sha ∈ s.refs refName, Lists forge sha url)
    (advanced : (s.advance index fun task => (step task).map (·,none)) = some after) : Sound forge after := by
  refine advance_sound sound advanced ?_ ?_
  · intro task next held stepped
    obtain ⟨last,moved,rfl⟩ := Option.map_eq_some_iff.mp stepped
    exact pending task last held moved
  · intro task next _ stepped sending member
    obtain ⟨last,_,rfl⟩ := Option.map_eq_some_iff.mp stepped
    cases member

-- A step that neither plans nor pushes.
theorem quiet_sound {s after : Host} {step : Task → Option Task} (sound : Sound forge s)
    (idle : ∀ task next, step task = some next → ∀ refName url, ¬ next.Aims refName url)
    (advanced : (s.advance index fun task => (step task).map (·,none)) = some after) : Sound forge after :=
  silent_sound sound (fun task next _ moved refName url aims => absurd aims (idle task next moved refName url)) advanced

theorem acts_sound (sound : Sound forge before) (undisturbed : Undisturbed forge before action)
    (step : Acts forge before action after) : Sound forge after := by
  cases action with
  | move refName tip =>
    cases step
    refine ⟨fun task member other url aims sha held => ?_,sound.sent⟩
    by_cases same : other = refName
    · subst same
      simp only [Function.update_self] at held
      exact undisturbed task member url aims sha held
    · simp only [Function.update_of_ne same] at held
      exact sound.pending task member other url aims sha held
  | event event =>
    cases step
    exact begin_sound sound fun refName url aims => aims
  | command refName =>
    cases step
    exact begin_sound sound fun refName url aims => aims
  | resolve index answer => exact quiet_sound sound (fun _ _ moved _ _ => resolve_aims moved) step
  | read index answer =>
    refine silent_sound sound ?_ step
    intro task next held moved refName url aims sha tip
    obtain ⟨read,reads,rfl,listed⟩ := read_aims moved aims
    exact undisturbed task held read reads sha tip url listed
  | push index sources answer =>
    refine advance_sound sound step ?_ ?_
    · intro task next held stepped refName url aims
      exact sound.pending task (List.mem_of_getElem? held) refName url ((push_aims stepped).1 refName url aims)
    · intro task next held stepped sending member
      obtain ⟨aims,tip⟩ := (push_aims stepped).2 sending member
      exact sound.pending task (List.mem_of_getElem? held) sending.refName sending.url aims sending.sha tip
  | finish index => exact quiet_sound sound (fun _ _ moved _ _ => finish_aims moved) step

-- As long as the pushes leave the pending work alone, nothing is sent but where
-- the commit that is sent says.
theorem sends_listed (history : Runs (Guarded (Undisturbed forge) (Acts forge)) Host.start actions s) :
    ∀ sending ∈ s.sent, Lists forge sending.sha sending.url := by
  have start : Sound forge Host.start := ⟨by simp [Host.start],by simp [Host.start]⟩
  exact (history.invariant (Sound forge) (fun _ _ _ sound step => acts_sound sound step.1 step.2) start).sent

-- What is left of a plan is pushed at whatever the ref points at by then, so a
-- ref that leaves the config behind is enough for a wrong sending.
theorem plan_sends {forge : Forge} {mirror : Mirror} {index : Nat} {s : Host}
    (held : s.tasks[index]? = some (Task.pushing mirror left failures after))
    (planned : (url,secret) ∈ left) (stored : forge.secrets.lookup secret = some value)
    (revealed : (value.reveal sources).1 = .ok token) (tip : s.refs mirror.refName = some sha) :
    ∃ actions t, Runs (Acts forge) s actions t ∧ ⟨url,mirror.refName,sha,token⟩ ∈ t.sent := by
  induction left generalizing s failures with
  | nil => cases planned
  | cons remote left ih =>
    have bound : index < s.tasks.length := (List.getElem?_eq_some_iff.mp held).1
    by_cases first : (url,secret) = remote
    · subst first
      let sending : Sending := ⟨url,mirror.refName,sha,token⟩
      refine ⟨[.push index sources (.ok ())],
        ⟨s.refs,s.tasks.set index (.pushing mirror left failures after),s.sent ++ [sending]⟩,.single ?_,?_⟩
      · simp [Acts,Host.act,Host.advance,held,Task.push,pushRemote,stored,revealed,tip,sending]
      · exact List.mem_append_right _ List.mem_cons_self
    · have later : (url,secret) ∈ left := (List.mem_cons.mp planned).resolve_left first
      obtain ⟨cause,refused⟩ : ∃ cause, pushRemote forge s.refs sources (.error (.spawn "")) mirror.refName remote.1 remote.2 =
          some (.error cause) := by
        unfold pushRemote
        split
        · exact ⟨_,rfl⟩
        · split <;> exact ⟨_,rfl⟩
      let next : Host := ⟨s.refs,s.tasks.set index (.pushing mirror left (failures ++ [⟨remote.1,cause⟩]) after),s.sent⟩
      have step : Acts forge s (.push index sources (.error (.spawn ""))) next := by
        simp [Acts,Host.act,Host.advance,held,Task.push,refused,next]
      have stands : next.tasks[index]? = some (.pushing mirror left (failures ++ [⟨remote.1,cause⟩]) after) := by
        simp [next,bound]
      obtain ⟨actions,t,run,sent⟩ := ih stands later tip
      exact ⟨_,t,(Runs.single step).append run,sent⟩

-- c1 has a config with one remote, and c2 has none.
def sampleForge : Forge where
  configFile sha := if sha = "c1" then some "\x7b:mirrors \x7b:https://mirror.test :mirror\x7d\x7d" else none
  loadConfigStr _ := .ok ⟨[("https://mirror.test","mirror")],by simp⟩
  secrets := AList.insert "mirror" (.plain "push-token") ∅

def noSources : Secret.Sources := ⟨fun _ => .error "",fun name => .error (.unknownSecret name)⟩

def mainPush (sha : String) : PushEvent := ⟨"push","test.git",1,[⟨"refs/heads/main",zeroSha,sha⟩]⟩

def mainAt (sha : String) (tasks : List Task) (sent : List Sending) : Host :=
  ⟨Function.update (fun _ => none) "refs/heads/main" (some sha),tasks,sent⟩

theorem sends_listed_one_push : ∃ actions s, Runs (Guarded (Undisturbed sampleForge) (Acts sampleForge)) Host.start actions s ∧
    s.sent = [⟨"https://mirror.test","refs/heads/main","c1","push-token"⟩] ∧
    ∀ sending ∈ s.sent, Lists sampleForge sending.sha sending.url := by
  let remotes := [("https://mirror.test","mirror")]
  let planned : Task := .pushing ⟨"refs/heads/main",remotes⟩ remotes [] (some [])
  have moved : Acts sampleForge Host.start (.move "refs/heads/main" (some "c1")) (mainAt "c1" [] []) := rfl
  have told : Acts sampleForge (mainAt "c1" [] []) (.event (mainPush "c1"))
    (mainAt "c1" [.trigger (mainPush "c1").refs] []) := rfl
  have read : Acts sampleForge (mainAt "c1" [.trigger (mainPush "c1").refs] []) (.read 0 (.ok remotes))
    (mainAt "c1" [planned] []) := rfl
  have pushed : Acts sampleForge (mainAt "c1" [planned] []) (.push 0 noSources (.ok ()))
    (mainAt "c1" [.pushing ⟨"refs/heads/main",remotes⟩ [] [] (some [])]
      [⟨"https://mirror.test","refs/heads/main","c1","push-token"⟩]) := rfl
  have first : Undisturbed sampleForge Host.start (.move "refs/heads/main" (some "c1")) := fun task member => nomatch member
  have still : Undisturbed sampleForge (mainAt "c1" [.trigger (mainPush "c1").refs] []) (.read 0 (.ok remotes)) := by
    intro task held read reads sha tip url listed
    cases held
    cases reads
    cases tip
    exact listed
  have one : Runs (Guarded (Undisturbed sampleForge) (Acts sampleForge)) Host.start [_] (mainAt "c1" [] []) :=
    .single ⟨first,moved⟩
  have event : ∀ s event, Undisturbed sampleForge s (.event event) := fun _ _ => trivial
  have push : ∀ s index sources answer, Undisturbed sampleForge s (.push index sources answer) := fun _ _ _ _ => trivial
  have history := ((one.step ⟨event _ _,told⟩).step ⟨still,read⟩).step ⟨push _ _ _ _,pushed⟩
  exact ⟨_,_,history,rfl,sends_listed history⟩

-- The second push removes the mirror while the event of the first still waits.
theorem removed_mirror_gets_next_commit : ¬ ∀ (forge : Forge) (actions : List Action) (s : Host),
    Runs (Acts forge) Host.start actions s → ∀ sending ∈ s.sent, Lists forge sending.sha sending.url := by
  intro claimed
  let remotes := [("https://mirror.test","mirror")]
  let planned : Task := .pushing ⟨"refs/heads/main",remotes⟩ remotes [] (some [])
  let waiting : List Task := [.trigger (mainPush "c1").refs]
  have moved : Acts sampleForge Host.start (.move "refs/heads/main" (some "c1")) (mainAt "c1" [] []) := rfl
  have told : Acts sampleForge (mainAt "c1" [] []) (.event (mainPush "c1")) (mainAt "c1" waiting []) := rfl
  have next : mainAt "c2" waiting [] =
      { mainAt "c1" waiting [] with refs := Function.update (mainAt "c1" waiting []).refs "refs/heads/main" (some "c2") } := by
    simp [mainAt]
  have again : Acts sampleForge (mainAt "c1" waiting []) (.move "refs/heads/main" (some "c2")) (mainAt "c2" waiting []) := by
    rw [next]
    rfl
  have read : Acts sampleForge (mainAt "c2" waiting []) (.read 0 (.ok remotes)) (mainAt "c2" [planned] []) := rfl
  have pushed : Acts sampleForge (mainAt "c2" [planned] []) (.push 0 noSources (.ok ()))
    (mainAt "c2" [.pushing ⟨"refs/heads/main",remotes⟩ [] [] (some [])]
      [⟨"https://mirror.test","refs/heads/main","c2","push-token"⟩]) := rfl
  have history := ((((Runs.single moved).step told).step again).step read).step pushed
  obtain ⟨config,found,listed⟩ := claimed _ _ _ history _ List.mem_cons_self
  cases found
  cases listed

end Quire.Mirroring
