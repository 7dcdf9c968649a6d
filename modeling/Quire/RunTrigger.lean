import Quire.PushEvents
import Quire.RunExecute
import Quire.RunsServer

namespace Quire.RunTrigger
open PushEvents KeyedTable RunsTable RunLifecycle RunsCalls JobsTable CiRuntime RunEvents Ingest EventFile RunExecute

def ciFnl : String := ".quire/ci.fnl"

inductive Executor where
  | process
  deriving DecidableEq, Repr

-- The repository of a push event, with the directory of its runs.
structure RunContext where
  repo : String
  repoPath : String
  baseDir : String
  executor : Executor

-- The part of `ci::error::Error` that a trigger can return.
inductive TriggerError where
  | io (source : String)
  | git (message : String)
  | utf8
  | run (error : RunsError)
  | workspaceMaterializationFailed (archive tar : Option Int)
  | execute (error : ExecuteError)
  deriving DecidableEq, Repr

-- A finished command: its exit code, none after a signal, its stdout when that
-- is UTF-8, and its stderr.
structure Output where
  status : Option Int
  stdout : Option String
  stderr : String
  deriving DecidableEq, Repr

-- What the steps that are no SQL answer, and what the other connections do to
-- the database while git and tar run and while quire-ci does. Nobody deletes a
-- row or takes back a stamp.
structure Answers where
  output : Command → Except String Output
  id : String
  cancelNow : Int
  insertNow : Int
  runDirectory : Bool
  createDirAll : String → Except String Unit
  spawn : Command → Except String (Except String (Option Int))
  meanwhile : Db → Db
  meanwhileForward : ∀ db, Evolves Forward db.runs (meanwhile db).runs
  log : Bool
  quireCi : Command → Except String (Db → Child)
  quireCiForward : ∀ command child, quireCi command = .ok child →
    ∀ db : Db, Evolves Forward db.runs (child db).db.runs
  resolveNow : Int

-- `Ci::source`
def source (answers : Answers) (sha : String) : Except TriggerError (Option String) :=
  match answers.output ⟨"git",["show",sha ++ ":" ++ ciFnl],[]⟩ with
  | .error source => .error (.io source)
  | .ok output =>
    if output.status ≠ some 0 then
      if Text.contains output.stderr "does not exist" || Text.contains output.stderr "not found" then .ok none
      else .error (.git ("failed to read " ++ ciFnl ++ " at " ++ sha ++ ": " ++ output.stderr))
    else match output.stdout with
      | none => .error .utf8
      | some text => .ok (some text)

def archiveCommand (gitDir sha : String) : Command := ⟨"git",["--git-dir",gitDir,"archive",sha],[]⟩
def tarCommand (workspace : String) : Command := ⟨"tar",["-x","-C",workspace],[]⟩

-- Both commands are spawned before either is waited for, and tar is waited for first.
def materializeWorkspace (answers : Answers) (gitDir sha workspace : String) : Except TriggerError Unit := do
  (answers.createDirAll workspace).mapError .io
  let archive ← (answers.spawn (archiveCommand gitDir sha)).mapError .io
  let tar ← (answers.spawn (tarCommand workspace)).mapError .io
  let tarStatus ← tar.mapError .io
  let archiveStatus ← archive.mapError .io
  if archiveStatus = some 0 ∧ tarStatus = some 0 then .ok ()
  else .error (.workspaceMaterializationFailed archiveStatus tarStatus)

theorem cancelActiveRuns_forward (now : Int) (active : List String) (runs : RunsTable) :
    Evolves Forward runs (cancelActiveRuns now active runs).1 := by
  induction active generalizing runs with
  | nil => exact .refl Forward.refl runs
  | cons runId rest ih =>
    unfold cancelActiveRuns
    split
    · rename_i next accepted
      exact RunsServer.evolves_trans (exec_forward accepted) (ih next)
    · exact .refl Forward.refl runs

theorem cancelExisting_forward (repo refName : String) (now : Int) (runs : RunsTable) :
    Evolves Forward runs (cancelExisting repo refName now runs).1 := by
  have active := cancelActiveRuns_forward now (activeIds runs repo refName) runs
  unfold cancelExisting
  split <;> rename_i cancelled <;> rw [cancelled] at active
  · exact active
  · split
    · rename_i accepted
      exact RunsServer.evolves_trans active (exec_forward accepted)
    · exact active

theorem create_forward (run : NewRun) (cancelNow insertNow : Int) (directory : Bool) (runs : RunsTable) :
    Evolves Forward runs (create run cancelNow insertNow directory runs).1 := by
  have cancelled := cancelExisting_forward run.repo run.refName cancelNow runs
  unfold create
  split <;> rename_i ran <;> rw [ran] at cancelled
  · exact cancelled
  · split
    · exact cancelled
    · rename_i accepted
      have inserted := RunsServer.evolves_trans cancelled (exec_forward accepted)
      cases directory <;> exact inserted

theorem forward_keys {runs later : RunsTable} (evolves : Evolves Forward runs later) (present : runId ∈ runs.keys) :
    runId ∈ later.keys := by
  obtain ⟨row,member,rfl⟩ := List.mem_map.mp present
  obtain ⟨after,found,_⟩ := evolves _ row (row?_of_mem member)
  exact List.mem_map.mpr ⟨after,row?_mem found,row?_key found⟩

-- `Runs::create` on the whole database.
def Db.create (run : NewRun) (cancelNow insertNow : Int) (directory : Bool) (db : Db) : Db × Except RunsError Run :=
  let called := RunsCalls.create run cancelNow insertNow directory db.runs
  (⟨called.1,db.jobs,db.sh,
    fun row member => forward_keys (create_forward run cancelNow insertNow directory db.runs) (db.jobsRun row member),
    db.shJob⟩,called.2)

def newRun (ctx : RunContext) (pushedAt : Int) (pushRef : PushRef) (session : ApiSession) (answers : Answers) : NewRun :=
  ⟨answers.id,ctx.repo,pushRef.refName,pushRef.newSha,asMillisecond pushedAt,some session.runToken⟩

def workspacePath (ctx : RunContext) (runId : String) : String := joinPath (joinPath ctx.baseDir runId) "workspace"

def execution (ctx : RunContext) (session : ApiSession) (traceparent sentryDsn : Option String) (answers : Answers) :
    Execution where
  baseDir := ctx.baseDir
  gitDir := ctx.repoPath
  workspace := workspacePath ctx answers.id
  traceparent := traceparent
  sentryDsn := sentryDsn
  session := some session
  dispatchNow := answers.insertNow
  log := answers.log
  spawn command db := (answers.quireCi command).map fun child => child db
  resolveNow := answers.resolveNow

-- `run_ref_inner`
def runRefInner (codec : Codec) (ctx : RunContext) (pushedAt : Int) (pushRef : PushRef) (session : ApiSession)
    (traceparent sentryDsn : Option String) (answers : Answers) (db : Db) : Db × Except TriggerError Unit :=
  match source answers pushRef.newSha with
  | .error error => (db,.error error)
  | .ok none => (db,.ok ())
  | .ok (some _) =>
    match Db.create (newRun ctx pushedAt pushRef session answers) answers.cancelNow answers.insertNow answers.runDirectory db with
    | (db,.error error) => (db,.error (.run error))
    | (db,.ok self) =>
      match materializeWorkspace answers ctx.repoPath pushRef.newSha (workspacePath ctx self.id) with
      | .error error => (answers.meanwhile db,.error error)
      | .ok () =>
        match ctx.executor with
        | .process =>
          match execute codec self (execution ctx session traceparent sentryDsn answers) (answers.meanwhile db) with
          | (db,.error error) => (db,.error (.execute error))
          | (db,.ok ()) => (db,.ok ())

def Finished (row : RunRow) : Prop := row.resolvedAt ≠ none ∧ row.outcome ≠ none

-- A statement outside the ingest, whose errors are only logged, was refused.
def SqlFails : Except TriggerError Unit → Prop
  | .error (.run (.sql _)) | .error (.execute (.run (.sql _))) => True
  | _ => False

structure Materializes (answers : Answers) (gitDir sha workspace : String) : Prop where
  createDirAll : answers.createDirAll workspace = .ok ()
  archive : answers.spawn (archiveCommand gitDir sha) = .ok (.ok (some 0))
  tar : answers.spawn (tarCommand workspace) = .ok (.ok (some 0))

-- The log is there and quire-ci runs. How it ends does not matter.
structure Launches (ctx : RunContext) (session : ApiSession) (traceparent sentryDsn : Option String) (answers : Answers) :
    Prop where
  log : answers.log = true
  quireCi : ∃ child, answers.quireCi
    (command ⟨answers.id,true,false⟩ (execution ctx session traceparent sentryDsn answers)) = .ok child

-- Another connection resolves the run while its workspace is made.
def Overtaken (answers : Answers) (created : Db) : Prop :=
  ∃ row, (answers.meanwhile created).runs.row? answers.id = some row ∧ row.resolvedAt ≠ none

-- The run directory is there, and quire-ci is started in a whole workspace
-- unless the run is over before.
structure Concludes (ctx : RunContext) (pushRef : PushRef) (session : ApiSession) (traceparent sentryDsn : Option String)
    (answers : Answers) (created : Db) : Prop where
  runDirectory : answers.runDirectory = true
  reaches : (Materializes answers ctx.repoPath pushRef.newSha (workspacePath ctx answers.id) ∧
    Launches ctx session traceparent sentryDsn answers) ∨ Overtaken answers created

theorem finished_iff (valid : row.Checks) : Finished row ↔ row.resolvedAt ≠ none := by
  refine ⟨And.left,fun resolved => ⟨resolved,fun blank => resolved ?_⟩⟩
  exact valid.together.mpr blank

theorem bind_ok_iff {first : Except ε α} {next : α → Except ε β} :
    first >>= next = .ok result ↔ ∃ value, first = .ok value ∧ next value = .ok result := by
  cases first <;> simp [Bind.bind,Except.bind]

theorem mapError_ok_iff {first : Except ε α} {wrap : ε → δ} : first.mapError wrap = .ok value ↔ first = .ok value := by
  cases first <;> simp [Except.mapError]

theorem materializeWorkspace_ok_iff {answers : Answers} :
    materializeWorkspace answers gitDir sha workspace = .ok () ↔ Materializes answers gitDir sha workspace := by
  unfold materializeWorkspace
  simp only [bind_ok_iff,mapError_ok_iff]
  constructor
  · intro materialized
    obtain ⟨_,made,_,archived,_,extracted,tarStatus,rfl,archiveStatus,rfl,clean⟩ := materialized
    split at clean
    · rename_i exited
      rw [exited.1] at archived
      rw [exited.2] at extracted
      exact ⟨made,archived,extracted⟩
    · cases clean
  · intro fine
    exact ⟨(),fine.createDirAll,_,fine.archive,_,fine.tar,some 0,rfl,some 0,rfl,rfl⟩

-- What `create` leaves when no statement of it is refused.
theorem create_inserts {runs : RunsTable}
    (fine : ∀ error, (create run cancelNow insertNow directory runs).2 ≠ .error (.sql error)) :
    runs.row? run.id = none ∧ (create run cancelNow insertNow directory runs).1.row? run.id = some (run.row insertNow) ∧
      (create run cancelNow insertNow directory runs).2 = if directory then .ok ⟨run.id,false,false⟩ else .error .io := by
  have cancelled := cancelExisting_forward run.repo run.refName cancelNow runs
  rcases ran : cancelExisting run.repo run.refName cancelNow runs with ⟨next,error | done⟩
  · exact absurd (by simp [create,ran]) (fine error)
  · rw [ran] at cancelled
    cases accepted : (RunsStmt.insertRun run insertNow).exec next with
    | error error => exact absurd (by simp [create,ran,accepted]) (fine error)
    | ok last =>
      have unused : run.id ∉ next.keys := (insert_ok_iff.mp ⟨last,accepted⟩).1
      have fresh : run.id ∉ runs.keys := fun present => unused (forward_keys cancelled present)
      have inserted : last.row? run.id = some (run.row insertNow) := by
        rw [exec_insert_row? accepted,if_pos rfl]
      simp only [create,ran,accepted]
      cases directory <;> exact ⟨row?_none_iff.mpr fresh,inserted,rfl⟩

theorem ingestJobs_runs (runId : String) (events : List Event) (inflight : Inflight Int) (runOutcome : Option RunOutcome)
    (db : Db) :
    (ingestJobs runId inflight runOutcome events db).2.runs = db.runs := by
  induction events generalizing inflight runOutcome db with
  | nil => rfl
  | cons event rest ih =>
    obtain ⟨atMs,kind⟩ := event
    cases kind with
    | jobStarted jobId => exact ih _ _ db
    | jobFinished jobId outcome =>
      unfold ingestJobs
      dsimp only
      split
      · rfl
      · rename_i next inserted
        rw [ih]
        exact (IngestRows.insertJob_ok inserted).1
    | runFinished outcome => exact ih _ _ db
    | shStarted jobId cmd => exact ih _ _ db
    | shFinished jobId exitCode => exact ih _ _ db

theorem ingestSh_runs (runId : String) (events : List Event) (inflight : Inflight (Int × String)) (db : Db) :
    (ingestSh runId inflight events db).2.runs = db.runs := by
  induction events generalizing inflight db with
  | nil => rfl
  | cons event rest ih =>
    obtain ⟨atMs,kind⟩ := event
    cases kind with
    | jobStarted jobId => exact ih _ db
    | jobFinished jobId outcome => exact ih _ db
    | runFinished outcome => exact ih _ db
    | shStarted jobId cmd => exact ih _ db
    | shFinished jobId exitCode =>
      unfold ingestSh
      split
      · exact ih _ db
      · split
        · rfl
        · rename_i next inserted
          rw [ih]
          exact (IngestRows.insertSh_ok inserted).1

theorem ingestEvents_runs (codec : Codec) (runId : String) (file : Except ReadError (List UInt8)) (db : Db) :
    (ingestEvents codec runId file db).2.runs = db.runs := by
  unfold ingestEvents
  split
  · rfl
  · rfl
  · split
    · rfl
    · rename_i events _
      have jobs := ingestJobs_runs runId events (fun _ => none) none db
      split <;> rename_i passed <;> rw [passed] at jobs
      · exact jobs
      · rename_i middle
        have sh := ingestSh_runs runId events (fun _ => none) middle
        split <;> rename_i again <;> rw [again] at sh <;> exact sh.trans jobs

-- A `resolve` that no CHECK refuses leaves the row with both columns set.
theorem resolveWith_finishes {db : Db} (handle : self.resolved = false) (found : db.runs.row? self.id = some row)
    (fine : ∀ error, (resolveWith self outcome now result db).2 ≠ .error (.run (.sql error))) :
    ∃ after, (resolveWith self outcome now result db).1.runs.row? self.id = some after ∧ Finished after := by
  cases executed : (RunsStmt.resolve now outcome self.id).exec db.runs with
  | error error => exact absurd (by simp [resolveWith,Db.call,Run.resolve,handle,executed]) (fine error)
  | ok next =>
    refine ⟨row.stamp now outcome,?_,?_⟩
    · have moved : next.row? self.id = _ := exec_update_row? rfl executed
      have own : row.id = self.id := row?_key found
      simpa [resolveWith,Db.call,Run.resolve,handle,executed,found,RunsStmt.selects,RunsStmt.sets,own] using moved
    · exact ⟨coalesce_ne_none _ _,coalesce_ne_none _ _⟩

-- Whatever the child did, its run is resolved once.
theorem settle_resolves (codec : Codec) (self : Run) (now : Int) (child : Child) : ∃ outcome result,
    settle codec self now child =
      resolveWith self outcome now result (ingestEvents codec self.id child.events child.db).2 := by
  unfold settle
  dsimp only
  split
  · exact ⟨_,_,rfl⟩
  · split <;> exact ⟨_,_,rfl⟩

theorem settle_finishes {child : Child} (handle : self.resolved = false) (found : child.db.runs.row? self.id = some row)
    (fine : ∀ error, (settle codec self now child).2 ≠ .error (.run (.sql error))) :
    ∃ after, (settle codec self now child).1.runs.row? self.id = some after ∧ Finished after := by
  obtain ⟨outcome,result,settled⟩ := settle_resolves codec self now child
  rw [settled] at fine ⊢
  rw [← ingestEvents_runs codec self.id child.events child.db] at found
  exact resolveWith_finishes handle found fine

-- With a session, nothing but the log and one UPDATE stands before the child.
theorem launch_session (run : Execution) (dispatched : run.session.isSome = true) (db : Db)
    (fine : ∀ error, (launch self run db).2 ≠ .error (.sql error)) :
    (run.log = false ∧ launch self run db = (db,.error .io)) ∨
      (run.log = true ∧ ∃ before, launch self run db = (before,.ok { self with dispatched := true }) ∧
        (RunsStmt.storeBootstrapData run.traceparent self.id).exec db.runs = .ok before.runs) := by
  cases logged : run.log with
  | false => exact .inl ⟨rfl,by simp [launch,markDispatched,dispatched,logged]⟩
  | true =>
    refine .inr ⟨rfl,?_⟩
    cases stored : (RunsStmt.storeBootstrapData run.traceparent self.id).exec db.runs with
    | error error =>
      refine absurd ?_ (fine error)
      simp [launch,markDispatched,dispatched,logged,Db.call,Run.storeBootstrapData,stored]
    | ok next =>
      refine ⟨(launch self run db).1,?_,?_⟩ <;>
        simp [launch,markDispatched,dispatched,logged,Db.call,Run.storeBootstrapData,stored]

theorem stored_row {runs next : RunsTable} (stored : (RunsStmt.storeBootstrapData traceparent runId).exec runs = .ok next)
    (found : runs.row? runId = some row) : next.row? runId = some { row with traceparent := traceparent } := by
  have own : row.id = runId := row?_key found
  rw [exec_update_row? rfl stored,found]
  simp [RunsStmt.selects,RunsStmt.sets,own]

theorem launch_fine {db : Db} {run : Execution} (fine : ∀ error, (execute codec self run db).2 ≠ .error (.run (.sql error))) :
    ∀ error, (launch self run db).2 ≠ .error (.sql error) := by
  intro error refused
  apply fine error
  rcases launched : launch self run db with ⟨before,_ | handed⟩
  · rw [launched] at refused
    cases refused
    simp [execute,launched]
  · rw [launched] at refused
    cases refused

theorem execute_settles {db : Db} {run : Execution} (codec : Codec) (launched : launch self run db = (before,.ok handed))
    (spawned : run.spawn (command handed run) before = .ok child) :
    execute codec self run db = settle codec handed run.resolveNow child := by
  simp only [execute,launched,spawned]

theorem spawn_answers {ctx : RunContext} {session : ApiSession} {answers : Answers} (ran : answers.quireCi cmd = answer) (db : Db) :
    (execution ctx session traceparent sentryDsn answers).spawn cmd db = answer.map fun child => child db := by
  rw [← ran]
  rfl

theorem execute_finishes_iff {db : Db} (codec : Codec) (ctx : RunContext) (session : ApiSession)
    (traceparent sentryDsn : Option String) (answers : Answers) (found : db.runs.row? answers.id = some row)
    (fine : ∀ error, (execute codec ⟨answers.id,false,false⟩ (execution ctx session traceparent sentryDsn answers) db).2 ≠
      .error (.run (.sql error))) :
    ∃ after, (execute codec ⟨answers.id,false,false⟩ (execution ctx session traceparent sentryDsn answers) db).1.runs.row?
        answers.id = some after ∧
      (Finished after ↔ Launches ctx session traceparent sentryDsn answers ∨ Finished row) := by
  rcases launch_session _ rfl db (launch_fine fine) with ⟨missing,launched⟩ | ⟨there,before,launched,stored⟩
  · refine ⟨row,by simpa [execute,launched] using found,?_⟩
    have idle : ¬ Launches ctx session traceparent sentryDsn answers := fun launches => by
      cases missing.symm.trans launches.log
    simp [idle]
  · have kept := stored_row stored found
    cases ran : answers.quireCi (command ⟨answers.id,true,false⟩ (execution ctx session traceparent sentryDsn answers)) with
    | error source =>
      have spawned : (execution ctx session traceparent sentryDsn answers).spawn _ before = .error source := spawn_answers ran before
      refine ⟨_,by simpa [execute,launched,spawned] using kept,?_⟩
      have idle : ¬ Launches ctx session traceparent sentryDsn answers := fun launches => by
        obtain ⟨child,started⟩ := launches.quireCi
        cases ran.symm.trans started
      simp [idle,Finished]
    | ok child =>
      obtain ⟨last,present,_⟩ := answers.quireCiForward _ _ ran before answers.id _ kept
      rw [execute_settles codec launched (spawn_answers ran before)] at fine ⊢
      obtain ⟨after,stands,finished⟩ := settle_finishes rfl present fine
      exact ⟨after,stands,iff_of_true finished (.inl ⟨there,child,ran⟩)⟩

theorem overtaken_iff {answers : Answers} {created : Db} (found : (answers.meanwhile created).runs.row? answers.id = some row) :
    Overtaken answers created ↔ Finished row := by
  rw [finished_iff (row_checks found)]
  constructor
  · intro overtaken
    obtain ⟨other,same,resolved⟩ := overtaken
    cases found.symm.trans same
    exact resolved
  · exact fun resolved => ⟨row,found,resolved⟩

section created
variable {codec : Codec} {ctx : RunContext} {pushedAt : Int} {pushRef : PushRef} {session : ApiSession}
  {traceparent sentryDsn : Option String} {answers : Answers} {db created : Db} {text : String}

-- `run_ref_inner` with a pipeline, by the answer of `create` and then of the
-- workspace.
theorem runRefInner_refused (read : source answers pushRef.newSha = .ok (some text))
    (made : Db.create (newRun ctx pushedAt pushRef session answers) answers.cancelNow answers.insertNow answers.runDirectory db =
      (created,.error error)) :
    runRefInner codec ctx pushedAt pushRef session traceparent sentryDsn answers db = (created,.error (.run error)) := by
  simp only [runRefInner,read,made]

theorem runRefInner_stops (read : source answers pushRef.newSha = .ok (some text))
    (made : Db.create (newRun ctx pushedAt pushRef session answers) answers.cancelNow answers.insertNow answers.runDirectory db =
      (created,.ok ⟨answers.id,false,false⟩))
    (stopped : materializeWorkspace answers ctx.repoPath pushRef.newSha (workspacePath ctx answers.id) = .error error) :
    runRefInner codec ctx pushedAt pushRef session traceparent sentryDsn answers db = (answers.meanwhile created,.error error) := by
  simp only [runRefInner,read,made,stopped]

theorem runRefInner_executes (read : source answers pushRef.newSha = .ok (some text))
    (made : Db.create (newRun ctx pushedAt pushRef session answers) answers.cancelNow answers.insertNow answers.runDirectory db =
      (created,.ok ⟨answers.id,false,false⟩))
    (whole : materializeWorkspace answers ctx.repoPath pushRef.newSha (workspacePath ctx answers.id) = .ok ())
    (ended : execute codec ⟨answers.id,false,false⟩ (execution ctx session traceparent sentryDsn answers)
      (answers.meanwhile created) = (last,outcome)) :
    runRefInner codec ctx pushedAt pushRef session traceparent sentryDsn answers db = (last,outcome.mapError .execute) := by
  cases outcome with
  | error error => simp only [runRefInner,read,made,whole,ended,Except.mapError]
  | ok done => simp only [runRefInner,read,made,whole,ended,Except.mapError]

-- `create` on the whole database: the row is new and there, unless a statement
-- is refused.
theorem create_leaves (fine : ∀ error, (Db.create new cancelNow insertNow directory db).2 ≠ .error (.sql error)) :
    ∃ created, Db.create new cancelNow insertNow directory db =
        (created,if directory then .ok ⟨new.id,false,false⟩ else .error .io) ∧
      db.runs.row? new.id = none ∧ created.runs.row? new.id = some (new.row insertNow) := by
  obtain ⟨fresh,inserted,answered⟩ := create_inserts fine
  exact ⟨_,Prod.ext rfl answered,fresh,inserted⟩

-- The row of the run once its workspace has been tried.
theorem tried_row (read : source answers pushRef.newSha = .ok (some text)) (directory : answers.runDirectory = true)
    (sql : ¬ SqlFails (runRefInner codec ctx pushedAt pushRef session traceparent sentryDsn answers db).2)
    (made : Db.create (newRun ctx pushedAt pushRef session answers) answers.cancelNow answers.insertNow answers.runDirectory db =
      (created,.ok ⟨answers.id,false,false⟩))
    (present : (answers.meanwhile created).runs.row? answers.id = some row) :
    ∃ last, (runRefInner codec ctx pushedAt pushRef session traceparent sentryDsn answers db).1.runs.row? answers.id = some last ∧
      (Finished last ↔ Concludes ctx pushRef session traceparent sentryDsn answers created) := by
  have others := overtaken_iff present
  cases materialized : materializeWorkspace answers ctx.repoPath pushRef.newSha (workspacePath ctx answers.id) with
  | error error =>
    have stops : ¬ Materializes answers ctx.repoPath pushRef.newSha (workspacePath ctx answers.id) := fun whole => by
      cases materialized.symm.trans (materializeWorkspace_ok_iff.mpr whole)
    rw [runRefInner_stops read made materialized]
    refine ⟨row,present,?_⟩
    rw [← others]
    refine ⟨fun overtaken => ⟨directory,.inr overtaken⟩,fun concludes => ?_⟩
    exact concludes.reaches.elim (fun reached => absurd reached.1 stops) fun overtaken => overtaken
  | ok done =>
    have whole := materializeWorkspace_ok_iff.mp materialized
    rcases ended : execute codec ⟨answers.id,false,false⟩ (execution ctx session traceparent sentryDsn answers)
      (answers.meanwhile created) with ⟨final,outcome⟩
    rw [runRefInner_executes read made materialized ended] at sql ⊢
    have fine : ∀ error, outcome ≠ .error (.run (.sql error)) := by
      intro error refused
      rw [refused] at sql
      exact sql trivial
    obtain ⟨last,stands,finished⟩ := execute_finishes_iff codec ctx session traceparent sentryDsn answers present
      (by rw [ended]; exact fine)
    rw [ended] at stands
    refine ⟨last,stands,?_⟩
    rw [finished,← others]
    exact ⟨fun reached => ⟨directory,reached.imp (fun launches => ⟨whole,launches⟩) fun overtaken => overtaken⟩,
      fun concludes => concludes.reaches.imp And.right fun overtaken => overtaken⟩

-- The row of the run after the INSERT and all that followed it.
theorem created_row (read : source answers pushRef.newSha = .ok (some text))
    (sql : ¬ SqlFails (runRefInner codec ctx pushedAt pushRef session traceparent sentryDsn answers db).2) :
    db.runs.row? answers.id = none ∧ ∃ last,
      (runRefInner codec ctx pushedAt pushRef session traceparent sentryDsn answers db).1.runs.row? answers.id = some last ∧
      (Finished last ↔ Concludes ctx pushRef session traceparent sentryDsn answers
        (Db.create (newRun ctx pushedAt pushRef session answers) answers.cancelNow answers.insertNow answers.runDirectory db).1) := by
  have inserts : ∀ error, (Db.create (newRun ctx pushedAt pushRef session answers) answers.cancelNow answers.insertNow
      answers.runDirectory db).2 ≠ .error (.sql error) := by
    intro error refused
    apply sql
    rw [runRefInner_refused read (Prod.ext rfl refused)]
    trivial
  obtain ⟨created,made,fresh,inserted⟩ := create_leaves inserts
  refine ⟨fresh,?_⟩
  rw [made]
  cases directory : answers.runDirectory with
  | false =>
    have refused := made
    rw [directory,if_neg Bool.false_ne_true] at refused
    have stays : runRefInner codec ctx pushedAt pushRef session traceparent sentryDsn answers db = (created,.error (.run .io)) :=
      runRefInner_refused read (by rw [directory]; exact refused)
    rw [stays]
    refine ⟨_,inserted,iff_of_false (fun finished => finished.1 rfl) fun concludes => ?_⟩
    cases directory.symm.trans concludes.runDirectory
  | true =>
    rw [directory,if_pos rfl] at made
    obtain ⟨row,present,_⟩ := answers.meanwhileForward created answers.id _ inserted
    exact tried_row read directory sql (by rw [directory]; exact made) present

end created

-- Past the INSERT, only `execute` resolves the run, and only when it gets to
-- the exit of quire-ci.
theorem run_concludes_iff (codec : Codec) (ctx : RunContext) (pushedAt : Int) (pushRef : PushRef) (session : ApiSession)
    (traceparent sentryDsn : Option String) (answers : Answers) (db : Db)
    (sql : ¬ SqlFails (runRefInner codec ctx pushedAt pushRef session traceparent sentryDsn answers db).2) :
    (∀ row, db.runs.row? answers.id = none →
        (runRefInner codec ctx pushedAt pushRef session traceparent sentryDsn answers db).1.runs.row? answers.id = some row →
        Finished row) ↔
      ∀ text, source answers pushRef.newSha = .ok (some text) →
        Concludes ctx pushRef session traceparent sentryDsn answers
          (Db.create (newRun ctx pushedAt pushRef session answers) answers.cancelNow answers.insertNow answers.runDirectory db).1 := by
  by_cases pipeline : ∃ text, source answers pushRef.newSha = .ok (some text)
  · obtain ⟨text,read⟩ := pipeline
    obtain ⟨fresh,last,stands,finished⟩ := created_row read sql
    rw [stands]
    constructor
    · exact fun holds _ _ => finished.mp (holds last fresh rfl)
    · intro concludes row _ same
      cases same
      exact finished.mpr (concludes text read)
  · refine iff_of_true (fun row absent present => ?_) fun text read => absurd ⟨text,read⟩ pipeline
    -- Without a pipeline there is no INSERT.
    have same : (runRefInner codec ctx pushedAt pushRef session traceparent sentryDsn answers db).1 = db := by
      rcases read : source answers pushRef.newSha with _ | _ | text
      · simp only [runRefInner,read]
      · simp only [runRefInner,read]
      · exact absurd ⟨text,read⟩ pipeline
    rw [same,absent] at present
    cases present

def sampleContext : RunContext := ⟨"test.git","/repos/test.git","/runs/test.git",.process⟩

def samplePush : PushRef := ⟨"refs/heads/main",zeroSha,"abc123"⟩

def sampleSession : ApiSession := ⟨"http://localhost:3000","token-1"⟩

-- Everything works but for the exit code of tar, and quire-ci crashes.
def sampleAnswers (tarExit : Int) : Answers where
  output _ := .ok ⟨some 0,some "(ci.job :build [:quire/push] (fn []))",""⟩
  id := "run-2"
  cancelNow := 10
  insertNow := 10
  runDirectory := true
  createDirAll _ := .ok ()
  spawn command := .ok (.ok (some (if command.program = "tar" then tarExit else 0)))
  meanwhile db := db
  meanwhileForward db := .refl Forward.refl db.runs
  log := true
  quireCi _ := .ok fun db => ⟨some 1,db,.error .notFound⟩
  quireCiForward _ _ ran db := by cases ran; exact .refl Forward.refl db.runs
  resolveNow := 20

def sampleRunRef (tarExit : Int) : Db × Except TriggerError Unit :=
  runRefInner (plainCodec []) sampleContext 5000000 samplePush sampleSession none none (sampleAnswers tarExit) sampleDb

theorem run_concludes_crashed_child : ∃ row, (sampleRunRef 0).1.runs.row? "run-2" = some row ∧ Finished row := by
  have ended : (sampleRunRef 0).2 = .error (.execute (.processFailed (some 1))) := by decide
  have concludes := run_concludes_iff (plainCodec []) sampleContext 5000000 samplePush sampleSession none none
    (sampleAnswers 0) sampleDb (by change ¬ SqlFails (sampleRunRef 0).2; rw [ended]; exact fun failed => failed)
  obtain ⟨row,found⟩ := Option.isSome_iff_exists.mp
    (show ((sampleRunRef 0).1.runs.row? "run-2").isSome = true by decide)
  refine ⟨row,found,concludes.mpr (fun text read => ⟨rfl,.inl ⟨⟨rfl,rfl,rfl⟩,⟨rfl,?_⟩⟩⟩) row rfl found⟩
  exact ⟨_,rfl⟩

-- tar runs out of disk space. The run stays queued.
theorem tar_fails_and_run_hangs : ¬ ∀ (codec : Codec) (ctx : RunContext) (pushedAt : Int) (pushRef : PushRef)
    (session : ApiSession) (traceparent sentryDsn : Option String) (answers : Answers) (db : Db),
    ¬ SqlFails (runRefInner codec ctx pushedAt pushRef session traceparent sentryDsn answers db).2 →
    ∀ row, db.runs.row? answers.id = none →
      (runRefInner codec ctx pushedAt pushRef session traceparent sentryDsn answers db).1.runs.row? answers.id = some row →
      Finished row := by
  intro claimed
  have ended : (sampleRunRef 2).2 = .error (.workspaceMaterializationFailed (some 0) (some 2)) := by decide
  have left : (sampleRunRef 2).1.runs.row? "run-2" = some
      ⟨"run-2","test.git","refs/heads/main","abc123",5,10,none,none,none,some "token-1",none⟩ := by decide
  have finished := claimed (plainCodec []) sampleContext 5000000 samplePush sampleSession none none (sampleAnswers 2) sampleDb
    (by change ¬ SqlFails (sampleRunRef 2).2; rw [ended]; exact fun failed => failed) _ rfl left
  exact finished.1 rfl

end Quire.RunTrigger
