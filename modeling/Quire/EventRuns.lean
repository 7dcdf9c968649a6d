import Quire.RepoPaths
import Quire.RunCreation
import Quire.RunTrigger

namespace Quire.EventRuns
open PushEvents KeyedTable RunsTable RunLifecycle RunsCalls CiRuntime RunEvents Ingest EventFile RunExecute RunTrigger RepoNames RepoPaths
open RunCreation (Unresolved CreatesExactly create_changes)

-- The part of the global configuration that a trigger reads. `sentry` is what
-- `reveal` answers for the DSN.
structure GlobalConfig where
  port : UInt16
  executor : Executor
  sentry : Option (Except String String)

structure TriggerContext where
  run : RunContext
  eventRepo : String
  port : UInt16
  sentryDsn : Option String

-- What one ref of the event meets: the token of its session, the traceparent of
-- its span, what the other connections do while git reads its pipeline, and the
-- answers to the rest. Nobody deletes a row or takes back a stamp.
structure Turn where
  runToken : String
  traceparent : Option String
  before : Db → Db
  beforeForward : ∀ db, Evolves Forward db.runs (before db).runs
  answers : Answers

inductive Logged where
  | repo (repo : String) (error : QuireError)
  | sentry (error : String)
  | ciTrigger (repo sha : String) (error : TriggerError)
  deriving DecidableEq, Repr

-- `ApiSession::new`
def apiSession (port : UInt16) (runToken : String) : ApiSession := ⟨"http://127.0.0.1:" ++ toString port,runToken⟩

-- `run_ref`
def runRef (codec : Codec) (ctx : TriggerContext) (pushedAt : Int) (pushRef : PushRef) (turn : Turn) (db : Db) :
    Db × List Logged :=
  match runRefInner codec ctx.run pushedAt pushRef (apiSession ctx.port turn.runToken) turn.traceparent ctx.sentryDsn
    turn.answers (turn.before db) with
  | (db,.error error) => (db,[.ciTrigger ctx.eventRepo pushRef.newSha error])
  | (db,.ok ()) => (db,[])

abbrev Turn.session (turn : Turn) (ctx : TriggerContext) : ApiSession := apiSession ctx.port turn.runToken

abbrev Turn.newRun (turn : Turn) (ctx : TriggerContext) (pushedAt : Int) (pushRef : PushRef) : NewRun :=
  RunTrigger.newRun ctx.run pushedAt pushRef (turn.session ctx) turn.answers

abbrev Turn.executes (turn : Turn) (ctx : TriggerContext) : Execution :=
  execution ctx.run (turn.session ctx) turn.traceparent ctx.sentryDsn turn.answers

abbrev Turn.inner (turn : Turn) (codec : Codec) (ctx : TriggerContext) (pushedAt : Int) (pushRef : PushRef) (db : Db) :
    Db × Except TriggerError Unit :=
  runRefInner codec ctx.run pushedAt pushRef (turn.session ctx) turn.traceparent ctx.sentryDsn turn.answers db

def runRefs (codec : Codec) (ctx : TriggerContext) (pushedAt : Int) : List (PushRef × Turn) → Db → Db × List Logged
  | [],db => (db,[])
  | (pushRef,turn) :: rest,db =>
    let (db,logged) := runRef codec ctx pushedAt pushRef turn db
    let (db,more) := runRefs codec ctx pushedAt rest db
    (db,logged ++ more)

-- The refs of the event in turn.
def served (event : PushEvent) (turns : Nat → Turn) : List (PushRef × Turn) :=
  event.updatedRefs.zipIdx.map fun (pushRef,index) => (pushRef,turns index)

-- A DSN that cannot be revealed is left out of the runs.
def sentryDsn (config : GlobalConfig) : Option String × List Logged :=
  match config.sentry with
  | none => (none,[])
  | some (.ok dsn) => (some dsn,[])
  | some (.error error) => (none,[.sentry error])

def context (config : GlobalConfig) (event : PushEvent) (repo : Repo) : TriggerContext where
  run := ⟨repo.name.text,PathBuf.display repo.path,PathBuf.display (Repo.runsBase repo),config.executor⟩
  eventRepo := event.repo
  port := config.port
  sentryDsn := (sentryDsn config).1

-- `ci::trigger`
def trigger (codec : Codec) (isDir : PathBuf → Bool) (quire : Quire) (config : GlobalConfig) (event : PushEvent)
    (turns : Nat → Turn) (db : Db) : Db × List Logged :=
  match quire.repo isDir event.repo with
  | .error error => (db,[.repo event.repo error])
  | .ok repo =>
    let (db,logged) := runRefs codec (context config event repo) event.pushedAt (served event turns) db
    (db,(sentryDsn config).2 ++ logged)

-- The commit has a pipeline that git reads.
def Piped (pushRef : PushRef) (turn : Turn) : Prop := ∃ text, source turn.answers pushRef.newSha = .ok (some text)

instance : Decidable (Piped pushRef turn) :=
  match answered : source turn.answers pushRef.newSha with
  | .ok (some text) => .isTrue ⟨text,answered⟩
  | .ok none => .isFalse fun ⟨_,read⟩ => by cases answered.symm.trans read
  | .error _ => .isFalse fun ⟨_,read⟩ => by cases answered.symm.trans read

-- The runs of the event, in the order of its refs.
def ran (served : List (PushRef × Turn)) : List String :=
  (served.filter fun (pushRef,turn) => Piped pushRef turn).map fun (_,turn) => turn.answers.id

-- Nobody else inserts a run in the meantime.
structure Quiet (turn : Turn) : Prop where
  before : ∀ db, (turn.before db).runs.keys = db.runs.keys
  meanwhile : ∀ db, (turn.answers.meanwhile db).runs.keys = db.runs.keys
  quireCi : ∀ command child, turn.answers.quireCi command = .ok child → ∀ db, (child db).db.runs.keys = db.runs.keys

-- Everything up to the start of quire-ci works.
structure Starts (ctx : TriggerContext) (pushRef : PushRef) (turn : Turn) : Prop where
  runDirectory : turn.answers.runDirectory = true
  workspace : Materializes turn.answers ctx.run.repoPath pushRef.newSha (workspacePath ctx.run turn.answers.id)
  launches : Launches ctx.run (turn.session ctx) turn.traceparent ctx.sentryDsn turn.answers

structure Records (ctx : TriggerContext) (pushedAt : Int) (pushRef : PushRef) (turn : Turn) (row : RunRow) : Prop where
  repo : row.repo = ctx.run.repo
  refName : row.refName = pushRef.refName
  sha : row.sha = pushRef.newSha
  pushedAtMs : row.pushedAtMs = asMillisecond pushedAt
  runToken : row.runToken = some turn.runToken

-- What the refs of an event leave in the database and in the log. A run that is
-- not over is one that the log tells of, and only the event's own runs of its
-- refs can be open.
structure Handled (ctx : TriggerContext) (pushedAt : Int) (served : List (PushRef × Turn)) (before after : Db)
    (logged : List Logged) : Prop where
  forward : Evolves Forward before.runs after.runs
  runs : ∀ pushRef turn, (pushRef,turn) ∈ served → Piped pushRef turn → before.runs.row? turn.answers.id = none ∧
    ∃ row, after.runs.row? turn.answers.id = some row ∧ Records ctx pushedAt pushRef turn row ∧
      (Starts ctx pushRef turn → Finished row) ∧
      (Finished row ∨ ∃ error, .ciTrigger ctx.eventRepo pushRef.newSha error ∈ logged)
  only : (∀ pair ∈ served, Quiet pair.2) → after.runs.keys = before.runs.keys ++ ran served
  latest : (∀ pair ∈ served, Quiet pair.2) → ∀ pushRef turn, (pushRef,turn) ∈ served → Piped pushRef turn →
    ∀ row ∈ after.runs.rows, Unresolved ctx.run.repo pushRef.refName row → row.id ∈ ran served

-- Forward, and no run added unless somebody else does.
structure Follows (quiet : Prop) (before after : Db) : Prop where
  forward : Evolves Forward before.runs after.runs
  keys : quiet → after.runs.keys = before.runs.keys

theorem Follows.refl (db : Db) : Follows quiet db db := ⟨.refl Forward.refl db.runs,fun _ => rfl⟩

theorem Follows.trans (first : Follows quiet before middle) (second : Follows quiet middle after) : Follows quiet before after :=
  ⟨RunsServer.evolves_trans first.forward second.forward,fun still => (second.keys still).trans (first.keys still)⟩

theorem same_follows {before after : Db} (same : after.runs = before.runs) : Follows quiet before after :=
  ⟨same ▸ .refl Forward.refl before.runs,fun _ => congrArg Table.keys same⟩

theorem Forward.finished (forward : Forward row later) (finished : Finished row) : Finished later :=
  ⟨by rw [forward.resolvedAt finished.1]; exact finished.1,by rw [forward.outcome finished.2]; exact finished.2⟩

theorem Forward.unresolved (forward : Forward row later) (unresolved : Unresolved repo refName later) :
    Unresolved repo refName row := by
  refine ⟨forward.repo ▸ unresolved.1,forward.refName ▸ unresolved.2.1,Classical.byContradiction fun resolved => ?_⟩
  rw [← forward.resolvedAt resolved] at resolved
  exact resolved unresolved.2.2

theorem Forward.records (forward : Forward row later) (records : Records ctx pushedAt pushRef turn row) :
    Records ctx pushedAt pushRef turn later where
  repo := forward.repo.trans records.repo
  refName := forward.refName.trans records.refName
  sha := forward.sha.trans records.sha
  pushedAtMs := forward.pushedAtMs.trans records.pushedAtMs
  runToken := forward.runToken.trans records.runToken

theorem row_was {before after : Db} (forward : Evolves Forward before.runs after.runs) (member : row ∈ after.runs.rows)
    (present : row.id ∈ before.runs.keys) : ∃ old ∈ before.runs.rows, old.id = row.id ∧ Forward old row := by
  obtain ⟨old,held,same⟩ := List.mem_map.mp present
  have same : old.id = row.id := same
  obtain ⟨next,found,kept⟩ := forward row.id old (same ▸ row?_of_mem held)
  have own : after.runs.row? row.id = some row := row?_of_mem member
  obtain rfl := Option.some.inj (found.symm.trans own)
  exact ⟨old,held,same,kept⟩

section Execute
variable {run : Execution}

theorem launch_follows (dispatched : run.session.isSome = true) (self : Run) (db : Db) :
    Follows quiet db (launch self run db).1 := by
  cases logged : run.log with
  | false => exact same_follows (by simp [launch,markDispatched,dispatched,logged])
  | true =>
    cases stored : (RunsStmt.storeBootstrapData run.traceparent self.id).exec db.runs with
    | error error =>
      exact same_follows (by simp [launch,markDispatched,dispatched,logged,Db.call,Run.storeBootstrapData,stored])
    | ok next =>
      have after : (launch self run db).1.runs = next := by
        simp [launch,markDispatched,dispatched,logged,Db.call,Run.storeBootstrapData,stored]
      exact ⟨after ▸ exec_forward stored,fun _ => after ▸ exec_keys rfl stored⟩

theorem resolveWith_follows (self : Run) (outcome : String) (now : Int) (result : Except ExecuteError Unit) (db : Db) :
    Follows quiet db (resolveWith self outcome now result db).1 := by
  have after : (resolveWith self outcome now result db).1.runs = (self.resolve outcome now db.runs).1 := by
    unfold resolveWith
    split <;> rename_i called <;> exact congrArg (fun answered => answered.1.runs) called.symm
  refine ⟨after ▸ ?_,fun _ => after ▸ resolve_keys self outcome now db.runs⟩
  unfold Run.resolve
  split
  · exact .refl Forward.refl db.runs
  · split
    · rename_i accepted
      exact exec_forward accepted
    · exact .refl Forward.refl db.runs

theorem settle_follows (codec : Codec) (self : Run) (now : Int) (child : Child) :
    Follows quiet child.db (settle codec self now child).1 := by
  obtain ⟨outcome,result,settled⟩ := settle_resolves codec self now child
  rw [settled]
  exact (same_follows (ingestEvents_runs codec self.id child.events child.db)).trans (resolveWith_follows ..)

end Execute

section Turns
variable {codec : Codec} {ctx : TriggerContext} {pushedAt : Int} {pushRef : PushRef} {turn : Turn} {db created : Db} {text : String}

theorem execute_follows (codec : Codec) (ctx : TriggerContext) (calm : quiet → Quiet turn) (self : Run) (db : Db) :
    Follows quiet db (execute codec self (turn.executes ctx) db).1 := by
  have launches : Follows quiet db (launch self (turn.executes ctx) db).1 := launch_follows rfl self db
  unfold execute
  split <;> rename_i launched <;> rw [launched] at launches
  · exact launches
  · rename_i before handed
    split
    · exact launches
    · rename_i child spawned
      cases started : turn.answers.quireCi (command handed (turn.executes ctx)) with
      | error source =>
        rw [spawn_answers started] at spawned
        cases spawned
      | ok works =>
        rw [spawn_answers started] at spawned
        cases spawned
        have worked : Follows quiet before (works before).db :=
          ⟨turn.answers.quireCiForward _ _ started before,fun still => (calm still).quireCi _ _ started before⟩
        exact (launches.trans worked).trans (settle_follows codec handed _ (works before))

-- An `execute` that ends well has started quire-ci.
theorem execute_launches (ended : (execute codec ⟨turn.answers.id,false,false⟩ (turn.executes ctx) db).2 = .ok ()) :
    Launches ctx.run (turn.session ctx) turn.traceparent ctx.sentryDsn turn.answers := by
  have fine : ∀ error, (launch ⟨turn.answers.id,false,false⟩ (turn.executes ctx) db).2 ≠ .error (.sql error) :=
    launch_fine fun error refused => by cases ended.symm.trans refused
  rcases launch_session _ rfl db fine with ⟨_,launched⟩ | ⟨there,before,launched,_⟩
  · rw [execute,launched] at ended
    cases ended
  · refine ⟨there,?_⟩
    cases started : turn.answers.quireCi (command ⟨turn.answers.id,true,false⟩ (turn.executes ctx)) with
    | ok child => exact ⟨child,rfl⟩
    | error source =>
      have spawned : (turn.executes ctx).spawn _ before = .error source := spawn_answers started before
      simp only [execute,launched,spawned] at ended
      cases ended

-- Whatever follows the INSERT.
theorem rest_follows (codec : Codec) (ctx : TriggerContext) (pushedAt : Int) (calm : quiet → Quiet turn)
    (read : source turn.answers pushRef.newSha = .ok (some text)) (db : Db) :
    Follows quiet
      (Db.create (turn.newRun ctx pushedAt pushRef) turn.answers.cancelNow turn.answers.insertNow turn.answers.runDirectory db).1
      (turn.inner codec ctx pushedAt pushRef db).1 := by
  simp only [runRefInner,read]
  split <;> rename_i made <;> rw [made]
  · exact .refl _
  · rename_i created self
    have others : Follows quiet created (turn.answers.meanwhile created) :=
      ⟨turn.answers.meanwhileForward created,fun still => (calm still).meanwhile created⟩
    split
    · exact others
    · have executes := others.trans (execute_follows codec ctx calm self (turn.answers.meanwhile created))
      split <;> rename_i ended <;> rw [ended] at executes <;> exact executes

theorem run_starts (read : source turn.answers pushRef.newSha = .ok (some text))
    (ended : (turn.inner codec ctx pushedAt pushRef db).2 = .ok ()) : Starts ctx pushRef turn := by
  have inserts : ∀ error, (Db.create (turn.newRun ctx pushedAt pushRef) turn.answers.cancelNow turn.answers.insertNow
      turn.answers.runDirectory db).2 ≠ .error error := by
    intro error refused
    rw [Turn.inner,runRefInner_refused read (Prod.ext rfl refused)] at ended
    cases ended
  obtain ⟨created,made,_⟩ := create_leaves fun error => inserts (.sql error)
  have directory : turn.answers.runDirectory = true := by
    cases there : turn.answers.runDirectory with
    | true => rfl
    | false => exact absurd (by rw [made,there]; rfl) (inserts .io)
  rw [if_pos directory] at made
  cases materialized : materializeWorkspace turn.answers ctx.run.repoPath pushRef.newSha (workspacePath ctx.run turn.answers.id) with
  | error error =>
    rw [Turn.inner,runRefInner_stops read made materialized] at ended
    cases ended
  | ok done =>
    rcases executed : execute codec ⟨turn.answers.id,false,false⟩ (turn.executes ctx) (turn.answers.meanwhile created) with ⟨last,outcome⟩
    rw [Turn.inner,runRefInner_executes read made materialized executed,mapError_ok_iff] at ended
    exact ⟨directory,materializeWorkspace_ok_iff.mp materialized,execute_launches (congrArg Prod.snd executed |>.trans ended)⟩

-- A `create` that no statement refuses supersedes as one that succeeds does,
-- with the run directory or without it.
theorem create_closes {runs : RunsTable} {run : NewRun}
    (fine : ∀ error, (RunsCalls.create run cancelNow insertNow directory runs).2 ≠ .error (.sql error)) :
    CreatesExactly run cancelNow runs (RunsCalls.create run cancelNow insertNow directory runs).1 := by
  have same : RunsCalls.create run cancelNow insertNow true runs =
      ((RunsCalls.create run cancelNow insertNow directory runs).1,.ok ⟨run.id,false,false⟩) := by
    unfold RunsCalls.create at fine ⊢
    split at fine
    · exact absurd rfl (fine _)
    · split at fine
      · exact absurd rfl (fine _)
      · cases directory <;> rfl
  exact create_changes run cancelNow insertNow true runs _ _ same

theorem unpiped_inner (bare : ¬ Piped pushRef turn) (db : Db) : (turn.inner codec ctx pushedAt pushRef db).1 = db := by
  rcases read : source turn.answers pushRef.newSha with _ | _ | text
  · simp only [runRefInner,read]
  · simp only [runRefInner,read]
  · exact absurd ⟨text,read⟩ bare

-- What a pipeline's ref leaves: its own run and no other open one of the ref.
theorem piped_inner (read : source turn.answers pushRef.newSha = .ok (some text))
    (sql : ¬ SqlFails (turn.inner codec ctx pushedAt pushRef db).2) :
    Evolves Forward db.runs (turn.inner codec ctx pushedAt pushRef db).1.runs ∧ db.runs.row? turn.answers.id = none ∧
      (∃ row, (turn.inner codec ctx pushedAt pushRef db).1.runs.row? turn.answers.id = some row ∧
        Records ctx pushedAt pushRef turn row ∧ (Starts ctx pushRef turn → Finished row) ∧
        (Finished row ∨ (turn.inner codec ctx pushedAt pushRef db).2 ≠ .ok ())) ∧
      (Quiet turn → (turn.inner codec ctx pushedAt pushRef db).1.runs.keys = db.runs.keys ++ [turn.answers.id] ∧
        ∀ row ∈ (turn.inner codec ctx pushedAt pushRef db).1.runs.rows, Unresolved ctx.run.repo pushRef.refName row →
          row.id = turn.answers.id) := by
  have inserts : ∀ error, (Db.create (turn.newRun ctx pushedAt pushRef) turn.answers.cancelNow turn.answers.insertNow
      turn.answers.runDirectory db).2 ≠ .error (.sql error) := by
    intro error refused
    apply sql
    rw [Turn.inner,runRefInner_refused read (Prod.ext rfl refused)]
    trivial
  obtain ⟨created,made,fresh,inserted⟩ := create_leaves inserts
  obtain ⟨_,last,stands,finished⟩ := created_row read sql
  have same : (RunsCalls.create (turn.newRun ctx pushedAt pushRef) turn.answers.cancelNow turn.answers.insertNow
    turn.answers.runDirectory db.runs).1 = created.runs := congrArg (fun answered => answered.1.runs) made
  have creates := same ▸ create_forward (turn.newRun ctx pushedAt pushRef) turn.answers.cancelNow turn.answers.insertNow
    turn.answers.runDirectory db.runs
  have closes := same ▸ create_closes inserts
  have rest : ∀ quiet : Prop, (quiet → Quiet turn) → Follows quiet created (turn.inner codec ctx pushedAt pushRef db).1 := by
    intro quiet calm
    have follows := rest_follows codec ctx pushedAt calm read db
    rw [made] at follows
    exact follows
  have concludes : Starts ctx pushRef turn → Finished last := fun starts =>
    finished.mpr ⟨starts.runDirectory,.inl ⟨starts.workspace,starts.launches⟩⟩
  refine ⟨?_,fresh,⟨last,stands,?_,concludes,?_⟩,fun calm => ?_⟩
  · exact RunsServer.evolves_trans creates (rest False False.elim).forward
  · obtain ⟨row,found,kept⟩ := (rest False False.elim).forward _ _ inserted
    obtain rfl := Option.some.inj (found.symm.trans stands)
    exact Forward.records kept ⟨rfl,rfl,rfl,rfl,rfl⟩
  · by_cases ended : (turn.inner codec ctx pushedAt pushRef db).2 = .ok ()
    · exact .inl (concludes (run_starts read ended))
    · exact .inr ended
  · have follows := rest True fun _ => calm
    refine ⟨(follows.keys trivial).trans closes.added,fun row member unresolved => ?_⟩
    have present : row.id ∈ created.runs.keys := follows.keys trivial ▸ List.mem_map_of_mem member
    obtain ⟨old,held,same,kept⟩ := row_was follows.forward member present
    rw [← same]
    exact (closes.only old held).mp (Forward.unresolved kept unresolved)

end Turns

section Events
variable {codec : Codec} {ctx : TriggerContext} {pushedAt : Int} {before middle after : Db} {first second : List (PushRef × Turn)}
  {logged more : List Logged}

theorem ran_append (first second : List (PushRef × Turn)) : ran (first ++ second) = ran first ++ ran second := by
  simp [ran]

theorem nothing_handled (db : Db) : Handled ctx pushedAt [] db db [] where
  forward := .refl Forward.refl db.runs
  runs := nofun
  only := fun _ => by simp [ran]
  latest := nofun

-- One ref, with its error logged and no more.
theorem runRef_handled (pushRef : PushRef) (turn : Turn)
    (sql : ∀ repo sha error, .ciTrigger repo sha error ∈ (runRef codec ctx pushedAt pushRef turn before).2 →
      ¬ SqlFails (.error error)) :
    Handled ctx pushedAt [(pushRef,turn)] before (runRef codec ctx pushedAt pushRef turn before).1
      (runRef codec ctx pushedAt pushRef turn before).2 := by
  have left : (runRef codec ctx pushedAt pushRef turn before).1 = (turn.inner codec ctx pushedAt pushRef (turn.before before)).1 := by
    unfold runRef
    split <;> rename_i ended <;> exact congrArg Prod.fst ended.symm
  have told : ∀ error, (turn.inner codec ctx pushedAt pushRef (turn.before before)).2 = .error error →
      .ciTrigger ctx.eventRepo pushRef.newSha error ∈ (runRef codec ctx pushedAt pushRef turn before).2 := by
    intro error failed
    unfold runRef
    split <;> rename_i ended <;> cases (congrArg Prod.snd ended).symm.trans failed
    exact List.mem_singleton_self _
  have others := turn.beforeForward before
  by_cases piped : Piped pushRef turn
  · have fine : ¬ SqlFails (turn.inner codec ctx pushedAt pushRef (turn.before before)).2 := by
      cases ended : (turn.inner codec ctx pushedAt pushRef (turn.before before)).2 with
      | ok done => exact fun fails => fails
      | error error => exact sql _ _ error (told error ended)
    obtain ⟨text,read⟩ := piped
    obtain ⟨forward,fresh,⟨row,stands,records,starts,ends⟩,alone⟩ := piped_inner read fine
    have own : ran [(pushRef,turn)] = [turn.answers.id] := by simp [ran,show Piped pushRef turn from ⟨text,read⟩]
    rw [left]
    refine ⟨RunsServer.evolves_trans others forward,?_,fun calm => ?_,fun calm => ?_⟩
    · intro other held member _
      cases List.mem_singleton.mp member
      have unused : before.runs.row? turn.answers.id = none :=
        row?_none_iff.mpr fun present => row?_none_iff.mp fresh (forward_keys others present)
      refine ⟨unused,row,stands,records,starts,ends.imp_right fun failed => ?_⟩
      cases ended : (turn.inner codec ctx pushedAt pushRef (turn.before before)).2 with
      | ok done => exact absurd ended failed
      | error error => exact ⟨error,told error ended⟩
    · have quiet := calm _ (List.mem_singleton_self _)
      rw [(alone quiet).1,own,quiet.before]
    · have quiet := calm _ (List.mem_singleton_self _)
      intro other held member _ row present unresolved
      cases List.mem_singleton.mp member
      rw [own,(alone quiet).2 row present unresolved]
      exact List.mem_singleton_self _
  · have none : ran [(pushRef,turn)] = [] := by simp [ran,piped]
    rw [left,unpiped_inner piped]
    refine ⟨others,?_,fun calm => ?_,fun _ => ?_⟩
    · intro other held member text
      cases List.mem_singleton.mp member
      exact absurd text piped
    · rw [none,List.append_nil]
      exact (calm _ (List.mem_singleton_self _)).before before
    · intro other held member text
      cases List.mem_singleton.mp member
      exact absurd text piped

-- Some refs and then others.
theorem Handled.append (left : Handled ctx pushedAt first before middle logged)
    (right : Handled ctx pushedAt second middle after more) :
    Handled ctx pushedAt (first ++ second) before after (logged ++ more) where
  forward := RunsServer.evolves_trans left.forward right.forward
  runs := by
    intro pushRef turn member piped
    rcases List.mem_append.mp member with earlier | later
    · obtain ⟨fresh,row,found,records,starts,ends⟩ := left.runs pushRef turn earlier piped
      obtain ⟨last,stands,kept⟩ := right.forward _ row found
      refine ⟨fresh,last,stands,Forward.records kept records,fun whole => Forward.finished kept (starts whole),?_⟩
      rcases ends with finished | ⟨error,told⟩
      · exact .inl (Forward.finished kept finished)
      · exact .inr ⟨error,List.mem_append_left _ told⟩
    · obtain ⟨fresh,row,found,records,starts,ends⟩ := right.runs pushRef turn later piped
      have unused : before.runs.row? turn.answers.id = none :=
        row?_none_iff.mpr fun present => row?_none_iff.mp fresh (forward_keys left.forward present)
      refine ⟨unused,row,found,records,starts,ends.imp_right fun ⟨error,told⟩ => ?_⟩
      exact ⟨error,List.mem_append_right _ told⟩
  only := by
    intro calm
    rw [right.only fun pair member => calm pair (List.mem_append_right _ member),
      left.only fun pair member => calm pair (List.mem_append_left _ member),ran_append,List.append_assoc]
  latest := by
    intro calm pushRef turn member piped row present unresolved
    have calmLeft : ∀ pair ∈ first, Quiet pair.2 := fun pair member => calm pair (List.mem_append_left _ member)
    have calmRight : ∀ pair ∈ second, Quiet pair.2 := fun pair member => calm pair (List.mem_append_right _ member)
    rw [ran_append]
    rcases List.mem_append.mp member with earlier | later
    · have key : row.id ∈ middle.runs.keys ++ ran second := right.only calmRight ▸ List.mem_map_of_mem present
      rcases List.mem_append.mp key with old | new
      · -- It was there before the second refs, and open then.
        obtain ⟨was,held,same,kept⟩ := row_was right.forward present old
        rw [← same]
        exact List.mem_append_left _ (left.latest calmLeft pushRef turn earlier piped was held (Forward.unresolved kept unresolved))
      · exact List.mem_append_right _ new
    · exact List.mem_append_right _ (right.latest calmRight pushRef turn later piped row present unresolved)

theorem runRefs_handled (served : List (PushRef × Turn)) (before : Db)
    (sql : ∀ repo sha error, .ciTrigger repo sha error ∈ (runRefs codec ctx pushedAt served before).2 → ¬ SqlFails (.error error)) :
    Handled ctx pushedAt served before (runRefs codec ctx pushedAt served before).1 (runRefs codec ctx pushedAt served before).2 := by
  induction served generalizing before with
  | nil => exact nothing_handled before
  | cons pair rest ih =>
    obtain ⟨pushRef,turn⟩ := pair
    have one := runRef_handled pushRef turn fun repo sha error told => sql repo sha error (List.mem_append_left _ told)
    have others := ih (runRef codec ctx pushedAt pushRef turn before).1 fun repo sha error told =>
      sql repo sha error (List.mem_append_right _ told)
    exact one.append others

end Events

-- Only the first of the two commits has a pipeline.
def sampleEvent : PushEvent :=
  ⟨"push","event.git",5000000,[⟨"refs/heads/main",zeroSha,"e1"⟩,⟨"refs/heads/gone","e0",zeroSha⟩,⟨"refs/heads/docs",zeroSha,"e2"⟩]⟩

def sampleOutput (command : Command) : Except String Output :=
  .ok (if command.args = ["show","e1:.quire/ci.fnl"] then ⟨some 0,some "(ci.job :build [:quire/push] (fn []))",""⟩
    else ⟨some 128,some "","fatal: path '.quire/ci.fnl' does not exist in 'e2'"⟩)

theorem unmoved (db : Db) : Evolves Forward db.runs db.runs := .refl Forward.refl db.runs

def sampleTurn : Turn where
  runToken := "token-2"
  traceparent := none
  before db := db
  beforeForward := unmoved
  answers := { sampleAnswers 0 with output := sampleOutput }

def sampleConfig : GlobalConfig := ⟨3000,.process,none⟩

theorem sample_quiet : Quiet sampleTurn := ⟨fun _ => rfl,fun _ => rfl,fun _ _ started _ => by cases started; rfl⟩

end Quire.EventRuns
