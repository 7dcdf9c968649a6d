import Quire.EventFile
import Quire.IngestRows

namespace Quire.RunExecute
open KeyedTable RunsTable RunsCalls JobsTable Secret RunEvents RunStreams CiRuntime RunPipeline RunProtocol RunProgress Ingest IngestRows EventFile

-- A call that rewrites rows of `runs` but neither adds nor removes one, on the
-- whole database.
def Db.call (call : RunsTable → Outcome ε α) (keeps : ∀ runs, (call runs).1.keys = runs.keys) (db : Db) : Db × Except ε α :=
  (⟨(call db.runs).1,db.jobs,db.sh,by rw [keeps]; exact db.jobsRun,db.shJob⟩,(call db.runs).2)

theorem dispatch_keys (self : Run) (now : Int) (runs : RunsTable) : (self.dispatch now runs).1.keys = runs.keys := by
  unfold Run.dispatch
  split
  · rfl
  · split
    · rename_i accepted; exact exec_keys rfl accepted
    · rfl

theorem storeBootstrapData_keys (self : Run) (traceparent : Option String) (runs : RunsTable) :
    (self.storeBootstrapData traceparent runs).1.keys = runs.keys := by
  unfold Run.storeBootstrapData
  split
  · rename_i accepted; exact exec_keys rfl accepted
  · rfl

theorem resolve_keys (self : Run) (outcome : String) (now : Int) (runs : RunsTable) :
    (self.resolve outcome now runs).1.keys = runs.keys := by
  unfold Run.resolve
  split
  · rfl
  · split
    · rename_i accepted; exact exec_keys rfl accepted
    · rfl

structure ApiSession where
  serverUrl : String
  runToken : String
  deriving DecidableEq, Repr

structure Command where
  program : String
  args : List String
  env : List (String × String)
  deriving DecidableEq, Repr

-- What is there once the child has exited: its exit code, none after a signal,
-- its event file, and the database, which others have used meanwhile.
structure Child where
  status : Option Int
  db : Db
  events : Except ReadError (List UInt8)

-- The arguments of `execute` and the answers it meets on its way.
structure Execution where
  baseDir : String
  gitDir : String
  workspace : String
  traceparent : Option String
  sentryDsn : Option String
  session : Option ApiSession
  dispatchNow : Int
  log : Bool
  spawn : Command → Db → Except String Child
  resolveNow : Int

inductive ExecuteError where
  | run (error : RunsError)
  | commandSpawnFailed (program cwd source : String)
  | processFailed (exit : Option Int)
  deriving DecidableEq, Repr

def command (self : Run) (run : Execution) : Command :=
  let runDir := joinPath run.baseDir self.id
  let transport := match run.session with
    | none => (["--local","--git-dir",run.gitDir],[])
    | some session => ([],[("QUIRE__SERVER_URL",session.serverUrl),("QUIRE__RUN_TOKEN",session.runToken)])
  let sentry := match run.sentryDsn with
    | none => []
    | some dsn => [("QUIRE__SENTRY_DSN",dsn)]
  ⟨"quire-ci",["run","--workspace",run.workspace,"--out-dir",runDir,"--events",joinPath runDir "events.jsonl"] ++ transport.1,
    transport.2 ++ sentry⟩

-- With a session the bootstrap endpoint owns the dispatch, and only the flag of
-- the handle is set.
def markDispatched (self : Run) (run : Execution) (db : Db) : Db × Except RunsError Run :=
  if run.session.isSome then (db,.ok { self with dispatched := true })
  else Db.call (self.dispatch run.dispatchNow) (dispatch_keys self run.dispatchNow) db

def launch (self : Run) (run : Execution) (db : Db) : Db × Except RunsError Run :=
  match markDispatched self run db with
  | (db,.error error) => (db,.error error)
  | (db,.ok self) =>
    if run.log = false then (db,.error .io)
    else if run.session.isSome then
      match Db.call (self.storeBootstrapData run.traceparent) (storeBootstrapData_keys self run.traceparent) db with
      | (db,.error error) => (db,.error error)
      | (db,.ok ()) => (db,.ok self)
    else (db,.ok self)

def resolveWith (self : Run) (outcome : String) (now : Int) (result : Except ExecuteError Unit) (db : Db) :
    Db × Except ExecuteError Unit :=
  match Db.call (self.resolve outcome now) (resolve_keys self outcome now) db with
  | (db,.error error) => (db,.error (.run error))
  | (db,.ok _) => (db,result)

-- After the child has exited. What goes wrong at the ingest is only logged.
def settle (codec : Codec) (self : Run) (now : Int) (child : Child) : Db × Except ExecuteError Unit :=
  let (ingested,db) := ingestEvents codec self.id child.events child.db
  let runOutcome := match ingested with
    | .ok outcome => outcome
    | .error _ => none
  if child.status ≠ some 0 then resolveWith self "failed-internal" now (.error (.processFailed child.status)) db
  else match runOutcome with
    | some .succeeded => resolveWith self "succeeded" now (.ok ()) db
    | some .pipelineFailure => resolveWith self "failed-pipeline" now (.ok ()) db
    | none => resolveWith self "failed-internal" now (.error (.processFailed child.status)) db

def execute (codec : Codec) (self : Run) (run : Execution) (db : Db) : Db × Except ExecuteError Unit :=
  match launch self run db with
  | (db,.error error) => (db,.error (.run error))
  | (db,.ok self) =>
    match run.spawn (command self run) db with
    | .error source => (db,.error (.commandSpawnFailed "quire-ci" run.workspace source))
    | .ok child => settle codec self run.resolveNow child

-- The outcome that a stream's RunFinished stands for.
def verdict : RunOutcome → String
  | .succeeded => "succeeded"
  | .pipelineFailure => "failed-pipeline"

-- The clock has not stepped back behind the stamps of the row.
def Timely (now : Int) (row : RunRow) : Prop := row.createdAt ≤ now ∧ ∀ stamp ∈ row.dispatchedAt, stamp ≤ now

theorem stamp_checks_iff (valid : row.Checks) (unresolved : row.resolvedAt = none) (allowed : outcome ∈ outcomes) :
    (row.stamp now outcome).Checks ↔ Timely now row := by
  obtain ⟨_,_,_,_,_,created,dispatched,resolved,recorded,_,_⟩ := row
  obtain ⟨afterCreation,resolvedAfter,ordered,together,known⟩ := valid
  cases dispatched <;> cases resolved <;> cases recorded <;> simp_all [RunRow.checks_iff,RunRow.stamp,Timely]

theorem resolve_row {runs : RunsTable} (self : Run) (handle : self.resolved = false)
    (found : runs.row? self.id = some row) (unresolved : row.resolvedAt = none) (allowed : outcome ∈ outcomes) :
    ∃ after, (self.resolve outcome now runs).1.row? self.id = some after ∧
      ((Timely now row ∧ after.outcome = some outcome) ∨ (¬ Timely now row ∧ after.outcome = none)) := by
  have valid := runs.checked row (row?_mem found)
  have blank : row.outcome = none := valid.together.mp unresolved
  have fits : ∀ other, runs.row? self.id = some other → (((RunsStmt.resolve now outcome self.id).sets other).Checks ↔ Timely now other) := by
    intro other same
    cases found.symm.trans same
    exact stamp_checks_iff valid unresolved allowed
  have verdict := accepts_row_iff (.resolve now outcome self.id) rfl (by simp [RunsStmt.selects]) fits
  cases executed : (RunsStmt.resolve now outcome self.id).exec runs with
  | ok next =>
    have timely := verdict.mp ⟨next,executed⟩ row found
    refine ⟨row.stamp now outcome,?_,.inl ⟨timely,by simp [RunRow.stamp,blank]⟩⟩
    have own : row.id = self.id := row?_key found
    have moved : next.row? self.id = _ := exec_update_row? rfl executed
    simpa [Run.resolve,handle,executed,found,RunsStmt.selects,RunsStmt.sets,own] using moved
  | error error =>
    refine ⟨row,by simpa [Run.resolve,handle,executed] using found,.inr ⟨fun timely => ?_,blank⟩⟩
    have accepted := verdict.mpr fun other same => by cases found.symm.trans same; exact timely
    simp [executed] at accepted

-- What the row of the run says when `resolveWith` has returned.
theorem resolveWith_row {db : Db} (self : Run) (result : Except ExecuteError Unit) (handle : self.resolved = false)
    (found : db.runs.row? self.id = some row) (unresolved : row.resolvedAt = none) (allowed : outcome ∈ outcomes) :
    ∃ after, (resolveWith self outcome now result db).1.runs.row? self.id = some after ∧
      ((Timely now row ∧ after.outcome = some outcome) ∨ (¬ Timely now row ∧ after.outcome = none)) := by
  have runs : (resolveWith self outcome now result db).1.runs = (self.resolve outcome now db.runs).1 := by
    unfold resolveWith
    split <;> rename_i called <;> exact congrArg (fun pair => Database.runs (Prod.fst pair)) called.symm
  rw [runs]
  exact resolve_row self handle found unresolved allowed

theorem markDispatched_handle {db : Db} (marked : markDispatched self run db = (before,.ok handed)) :
    handed.id = self.id ∧ handed.resolved = self.resolved := by
  unfold markDispatched at marked
  split at marked
  · cases marked
    exact ⟨rfl,rfl⟩
  · have called := congrArg Prod.snd marked
    simp only [Db.call,Run.dispatch] at called
    split at called
    · cases called
    · split at called
      · cases called
        exact ⟨rfl,rfl⟩
      · cases called

theorem launch_handle {db : Db} (launched : launch self run db = (before,.ok handed)) :
    handed.id = self.id ∧ handed.resolved = self.resolved := by
  unfold launch at launched
  split at launched
  · cases launched
  · rename_i middle marked dispatched
    have same : marked = handed := by
      split at launched
      · cases launched
      · split at launched
        · split at launched
          · cases launched
          · cases launched; rfl
        · cases launched; rfl
    exact markDispatched_handle (same ▸ dispatched)

-- What a clean exit is recorded as.
def recorded : Except IngestError (Option RunOutcome) → String
  | .ok (some outcome) => verdict outcome
  | .ok none | .error _ => "failed-internal"

theorem recorded_allowed (ingested : Except IngestError (Option RunOutcome)) : recorded ingested ∈ outcomes := by
  rcases ingested with error | _ | ⟨_ | _⟩ <;> simp [recorded,verdict,outcomes]

theorem settle_exited (codec : Codec) (self : Run) (now : Int) {child : Child} (status : child.status = some 0) :
    ∃ result, settle codec self now child =
      resolveWith self (recorded (ingestEvents codec self.id child.events child.db).1) now result
        (ingestEvents codec self.id child.events child.db).2 := by
  unfold settle
  rcases ingestEvents codec self.id child.events child.db with ⟨error | _ | ⟨_ | _⟩,db⟩
  · exact ⟨.error (.processFailed child.status),by simp [status,recorded]⟩
  · exact ⟨.error (.processFailed child.status),by simp [status,recorded]⟩
  · exact ⟨.ok (),by simp [status,recorded,verdict]⟩
  · exact ⟨.ok (),by simp [status,recorded,verdict]⟩

-- What the row of the run says after a child that has exited with 0.
theorem execute_row {db : Db} (handle : self.resolved = false) (launched : launch self run db = (before,.ok handed))
    (spawned : run.spawn (command handed run) before = .ok child) (status : child.status = some 0)
    (found : child.db.runs.row? self.id = some row) (unresolved : row.resolvedAt = none)
    (kept : (ingestEvents codec self.id child.events child.db).2.runs = child.db.runs) :
    ∃ after, (execute codec self run db).1.runs.row? self.id = some after ∧
      ((Timely run.resolveNow row ∧ after.outcome = some (recorded (ingestEvents codec self.id child.events child.db).1)) ∨
        (¬ Timely run.resolveNow row ∧ after.outcome = none)) := by
  obtain ⟨same,flag⟩ := launch_handle launched
  obtain ⟨result,settled⟩ := settle_exited codec handed run.resolveNow status
  have ran : execute codec self run db = settle codec handed run.resolveNow child := by
    simp only [execute,launched,spawned]
  rw [ran,settled,same]
  rw [← kept,← same] at found
  rw [← same]
  exact resolveWith_row handed result (flag.trans handle) found unresolved (recorded_allowed _)

variable {World Vm : Type} {env : Env World Vm}

-- A run that ends well has shown a whole stream.
theorem runPipeline_stream (registry : SecretRegistry) (documented : DocumentedAt env world)
    (ended : (runPipeline env registry world).1 = .ok ()) : ∃ stream : RunStream,
      (runPipeline env registry world).2 = stream.events := by
  obtain ⟨⟨done,standing⟩,shown,_,closed⟩ := runPipeline_progress registry documented
  obtain ⟨finishedAt,outcome,rfl⟩ := closed ended
  exact ⟨⟨done,outcome,finishedAt⟩,shown⟩

theorem verdict_recorded_iff (env : Env World Vm) (registry : SecretRegistry) (world : World) (codec : Codec) (self : Run)
    (run : Execution) (db before : Db) (handed : Run) (child : Child) (row : RunRow)
    (documented : DocumentedAt env world) (faithful : Faithful codec (runPipeline env registry world).2)
    (handle : self.resolved = false) (launched : launch self run db = (before,.ok handed))
    (spawned : run.spawn (command handed run) before = .ok child)
    (ended : (runPipeline env registry world).1 = .ok ()) (status : child.status = some 0)
    (file : child.events = .ok (codec.jsonl (runPipeline env registry world).2))
    (found : child.db.runs.row? self.id = some row) (unresolved : row.resolvedAt = none)
    (fresh : ∀ job ∈ child.db.jobs.rows, job.runId ≠ self.id) :
    (∃ stream : RunStream, (runPipeline env registry world).2 = stream.events) ∧
      ∀ stream : RunStream, (runPipeline env registry world).2 = stream.events →
        ((∃ after, (execute codec self run db).1.runs.row? self.id = some after ∧ after.outcome = some (verdict stream.outcome)) ↔
          (∀ job ∈ stream.jobs, JobRun.Storable job) ∧ Timely run.resolveNow row) := by
  refine ⟨runPipeline_stream registry documented ended,fun stream shown => ?_⟩
  have distinct : (RunStream.progress stream).ids.Nodup := ids_nodup (runPipeline_started registry documented) shown
  rw [shown] at faithful file
  have present : self.id ∈ child.db.runs.keys := row?_key found ▸ List.mem_map_of_mem (row?_mem found)
  have parsed : codec.parse (codec.jsonl stream.events) = some (RunStream.progress stream).events := parse_jsonl faithful
  obtain ⟨kept,ingested⟩ := ingest_progress parsed present fresh distinct
  rw [← file] at kept ingested
  obtain ⟨after,stored,outcome⟩ := execute_row handle launched spawned status found unresolved kept
  have storable : Progress.Storable (RunStream.progress stream) ↔ ∀ job ∈ stream.jobs, JobRun.Storable job :=
    ⟨fun whole => whole.done,fun done => ⟨done,fun job inside => nomatch inside⟩⟩
  rw [stored,← storable]
  generalize (ingestEvents codec self.id child.events child.db).1 = result at ingested outcome
  cases ingested with
  | stored whole jobs sh =>
    rcases outcome with ⟨timely,said⟩ | ⟨late,silent⟩
    · exact iff_of_true ⟨after,rfl,said⟩ ⟨whole,timely⟩
    · exact iff_of_false (by simp [silent]) fun fine => late fine.2
  | refused error jobs sh unstorable =>
    refine iff_of_false ?_ fun fine => unstorable fine.1
    rcases outcome with ⟨timely,said⟩ | ⟨late,silent⟩
    · cases stream.outcome <;> simp [said,recorded,verdict]
    · simp [silent]

def sampleRun : Run := ⟨"run-1",false,false⟩

def sampleExecution (twice : Bool) : Execution where
  baseDir := "/runs"
  gitDir := "/repos/test.git"
  workspace := "/runs/run-1/workspace"
  traceparent := none
  sentryDsn := none
  session := none
  dispatchNow := 0
  log := true
  spawn _ db := .ok ⟨some 0,db,.ok ((plainCodec (sampleEvents twice)).jsonl (sampleEvents twice))⟩
  resolveNow := 0

-- The run is launched, and its child finds it dispatched.
theorem sample_launches (twice : Bool) : ∃ before, launch sampleRun (sampleExecution twice) sampleDb = (before,.ok ⟨"run-1",true,false⟩) ∧
    before.runs.row? "run-1" = some { sampleRow with dispatchedAt := some 0 } ∧ before.jobs.rows = [] := by
  have handed : (launch sampleRun (sampleExecution twice) sampleDb).2 = .ok ⟨"run-1",true,false⟩ := by
    cases twice <;> decide +kernel
  refine ⟨(launch sampleRun (sampleExecution twice) sampleDb).1,by rw [← handed],?_,?_⟩
  · cases twice <;> decide +kernel
  · cases twice <;> decide +kernel

theorem verdict_recorded_one_call : ∃ after, (execute (plainCodec (sampleEvents false)) sampleRun (sampleExecution false)
    sampleDb).1.runs.row? "run-1" = some after ∧ after.outcome = some "succeeded" := by
  obtain ⟨before,launched,found,empty⟩ := sample_launches false
  have ⟨_,recorded⟩ := verdict_recorded_iff (twoJobsEnv true false) SecretRegistry.new () (plainCodec (sampleEvents false))
    sampleRun (sampleExecution false) sampleDb before _ _ _ (twoJobs_documented true false) (sample_faithful false) rfl
    launched rfl (twoJobs_end false) rfl rfl found rfl (by simp [empty])
  refine (recorded (sampleStream false) (sample_shown false)).mpr ⟨?_,by decide,by decide⟩
  simp only [sampleStream,List.forall_mem_cons]
  exact ⟨⟨by decide,by decide⟩,⟨by decide,by decide⟩,⟨by decide,by decide⟩,by simp⟩

-- Two calls of job a start in one millisecond. The second row is refused, and
-- with it the verdict is gone.
theorem calls_in_one_millisecond : ¬ ∀ (env : Env Unit Bool) (registry : SecretRegistry) (world : Unit) (codec : Codec)
    (self : Run) (run : Execution) (db before : Db) (handed : Run) (child : Child) (row : RunRow) (stream : RunStream),
    DocumentedAt env world → Faithful codec (runPipeline env registry world).2 → self.resolved = false →
    launch self run db = (before,.ok handed) → run.spawn (command handed run) before = .ok child →
    (runPipeline env registry world).1 = .ok () → child.status = some 0 →
    child.events = .ok (codec.jsonl (runPipeline env registry world).2) → child.db.runs.row? self.id = some row →
    row.resolvedAt = none → (∀ job ∈ child.db.jobs.rows, job.runId ≠ self.id) →
    (runPipeline env registry world).2 = stream.events → ∃ after, (execute codec self run db).1.runs.row? self.id = some after ∧
      after.outcome = some (verdict stream.outcome) := by
  intro claimed
  obtain ⟨before,launched,found,empty⟩ := sample_launches true
  obtain ⟨after,stored,outcome⟩ := claimed (twoJobsEnv true true) SecretRegistry.new () (plainCodec (sampleEvents true))
    sampleRun (sampleExecution true) sampleDb before _ _ _ (sampleStream true) (twoJobs_documented true true) (sample_faithful true)
    rfl launched rfl (twoJobs_end true) rfl rfl found rfl (by simp [empty]) (sample_shown true)
  have lost : ((execute (plainCodec (sampleEvents true)) sampleRun (sampleExecution true) sampleDb).1.runs.row? "run-1").bind
      RunRow.outcome = some "failed-internal" := by decide +kernel
  have same : sampleRun.id = "run-1" := rfl
  rw [same] at stored
  rw [stored,Option.bind_some,outcome] at lost
  simp [sampleStream,verdict] at lost

end Quire.RunExecute
