import Quire.DisplayIds
import Quire.RunCreation
import Quire.RunDelivery
import Quire.ValidateCommand

namespace Quire.LocalRun
open KeyedTable RunsTable RunLifecycle JobsTable JobPipeline RunEvents Ingest IngestRows RunPipeline RunProgress RunExecute RunTrigger
open ByteOffsets (Straddled)
open CiRuntime (joinPath asMillisecond)
open DisplayIds (slice start_some)
open JobOrder (Documented jobs_order)
open PushWire (Stamps)
open RunDelivery (Machine child codec openLogs inFile localMeta Ends)
open RunsCalls (Run RunsError)
open ValidateCommand (Shown showJobs)
variable {World Vm : Type}

structure CommitRef where
  sha : String
  display : String
  deriving DecidableEq, Repr

-- What a command in a working copy can return.
inductive LocalError where
  | io (source : String)
  | utf8
  | report (message : String)
  | trigger (error : TriggerError)
  | compile (error : CompileError)
  deriving DecidableEq, Repr

-- What the commands meet: the answers of jj, git, tar and quire-ci, the clock
-- and the temporary directory. The database of a local run is in that directory,
-- where nobody else uses it.
structure WorkingCopy (Vm : Type) where
  answers : Answers
  lua : Primitives.Lua Vm
  petgraph : Petgraph
  tempDir : Except String String
  openDb : Except String Unit
  pushedAt : Int
  dispatchNow : Int
  readLog : String → Except String String

-- A jj command whose output is a line of text.
def jj (answers : Answers) (args : List String) (failed : String) : Except LocalError String :=
  match answers.output ⟨"jj",args,[]⟩ with
  | .error source => .error (.io source)
  | .ok output =>
    if output.status ≠ some 0 then .error (.report (failed ++ output.stderr))
    else match output.stdout with
      | none => .error .utf8
      | some line => .ok (Text.trim line)

def discoverRepo (answers : Answers) : Except LocalError String := jj answers ["root"] "not in a jj repo: "

def currentCommit (answers : Answers) : Except LocalError String :=
  jj answers ["log","--limit","1","--no-graph","--revisions","@","--template","commit_id"] "failed to get current commit: "

def resolveCommit (answers : Answers) (maybeSha : Option String) : Except LocalError CommitRef :=
  match maybeSha with
  | some s => .ok ⟨s,s⟩
  | none => (currentCommit answers).map fun sha => ⟨sha,"@"⟩

-- `Ci::pipeline`
def ciPipeline (copy : WorkingCopy Vm) (commit : CommitRef) : Except LocalError (Option (Pipeline copy.petgraph Vm)) :=
  match source copy.answers commit.sha with
  | .error error => .error (.trigger error)
  | .ok none => .ok none
  | .ok (some text) =>
    match compile copy.petgraph copy.lua text ciFnl with
    | .error error => .error (.compile error)
    | .ok pipeline => .ok (some pipeline)

def noScript (commit : CommitRef) : Shown LocalError := ⟨["No ci.fnl found at " ++ commit.display ++ "."],.ok (.ok ())⟩

-- Both commands find the working copy, the commit and its pipeline first.
def withPipeline (copy : WorkingCopy Vm) (maybeSha : Option String)
    (next : String → CommitRef → Pipeline copy.petgraph Vm → Shown LocalError) : Shown LocalError :=
  match discoverRepo copy.answers with
  | .error error => ⟨[],.ok (.error error)⟩
  | .ok repoPath =>
    match resolveCommit copy.answers maybeSha with
    | .error error => ⟨[],.ok (.error error)⟩
    | .ok commit =>
      match ciPipeline copy commit with
      | .error error => ⟨[],.ok (.error error)⟩
      | .ok none => noScript commit
      | .ok (some pipeline) => next repoPath commit pipeline

-- `quire ci validate`
def validate (copy : WorkingCopy Vm) (maybeSha : Option String) : Shown LocalError :=
  withPipeline copy maybeSha fun _ _ pipeline =>
    if pipeline.graph.jobs.length = 0 then ⟨["No jobs registered."],.ok (.ok ())⟩
    else showJobs "←" ["Jobs:"] pipeline

theorem empty_jobsRun : ∀ row ∈ (Table.empty : Table jobsSchema).rows, row.runId ∈ (Table.empty : RunsTable).keys := by
  simp [Table.empty]

theorem empty_shJob : ∀ row ∈ (Table.empty : Table shSchema).rows, row.job ∈ (Table.empty : Table jobsSchema).rows.map JobRow.key := by
  simp [Table.empty]

def emptyDb : Db := ⟨.empty,.empty,.empty,empty_jobsRun,empty_shJob⟩

def newRun (copy : WorkingCopy Vm) (commit : CommitRef) : NewRun :=
  ⟨copy.answers.id,"local","@",commit.sha,asMillisecond copy.pushedAt,none⟩

def gitDir (repoPath : String) : String := joinPath repoPath ".git"
def workspace (tmp : String) : String := joinPath tmp "workspace"
def runDir (copy : WorkingCopy Vm) (tmp : String) : String := joinPath tmp copy.answers.id
def eventsPath (copy : WorkingCopy Vm) (tmp : String) : String := joinPath (runDir copy tmp) "events.jsonl"

def execution (copy : WorkingCopy Vm) (repoPath tmp : String) : Execution where
  baseDir := tmp
  gitDir := gitDir repoPath
  workspace := workspace tmp
  traceparent := none
  sentryDsn := none
  session := none
  dispatchNow := copy.dispatchNow
  log := copy.answers.log
  spawn command db := (copy.answers.quireCi command).map fun child => child db
  resolveNow := copy.answers.resolveNow

-- From the printed header on: what is still printed, and what is returned.
def finish (copy : WorkingCopy Vm) (repoPath tmp : String) (commit : CommitRef) (self : Run) (db : Db) :
    List String × Except LocalError Unit :=
  match materializeWorkspace copy.answers (gitDir repoPath) commit.sha (workspace tmp) with
  | .error error => ([],.error (.trigger error))
  | .ok () =>
    let log := (copy.readLog (joinPath (runDir copy tmp) "quire-ci.log")).toOption.toList
    match (execute codec self (execution copy repoPath tmp) db).2 with
    | .ok () => (log ++ ["\nRun complete."],.ok ())
    | .error error => (log ++ ["\nRun failed."],.error (.trigger (.execute error)))

def header (copy : WorkingCopy Vm) (commit : CommitRef) (short : String) : String :=
  "Run " ++ copy.answers.id ++ ": executing at " ++ commit.display ++ " (" ++ short ++ ")"

-- `&commit.sha[..commit.sha.len().min(12)]`
def shortSha (commit : CommitRef) : Option String := slice commit.sha 0 (min commit.sha.utf8ByteSize 12)

def runCommit (copy : WorkingCopy Vm) (repoPath : String) (commit : CommitRef) : Shown LocalError :=
  match copy.tempDir with
  | .error source => ⟨[],.ok (.error (.io source))⟩
  | .ok tmp =>
    match copy.openDb with
    | .error message => ⟨[],.ok (.error (.report message))⟩
    | .ok () =>
      match Db.create (newRun copy commit) copy.answers.cancelNow copy.answers.insertNow copy.answers.runDirectory emptyDb with
      | (_,.error error) => ⟨[],.ok (.error (.trigger (.run error)))⟩
      | (db,.ok self) =>
        match shortSha commit with
        | none => ⟨[],.error "byte index 12 is not a char boundary"⟩
        | some short =>
          let finished := finish copy repoPath tmp commit self db
          ⟨header copy commit short :: finished.1,.ok finished.2⟩

-- `quire ci run`. The compiled pipeline is dropped: quire-ci compiles the script
-- of the workspace.
def run (copy : WorkingCopy Vm) (maybeSha : Option String) : Shown LocalError :=
  withPipeline copy maybeSha fun repoPath commit _ => runCommit copy repoPath commit

-- The commit of a command has a pipeline.
structure Piped (copy : WorkingCopy Vm) (maybeSha : Option String) (repoPath : String) (commit : CommitRef) : Prop where
  root : discoverRepo copy.answers = .ok repoPath
  resolved : resolveCommit copy.answers maybeSha = .ok commit
  pipeline : ∃ pipeline, ciPipeline copy commit = .ok (some pipeline)

-- Its run is created in a directory of its own.
structure Created (copy : WorkingCopy Vm) (tmp : String) : Prop where
  tempDir : copy.tempDir = .ok tmp
  openDb : copy.openDb = .ok ()
  runDirectory : copy.answers.runDirectory = true

-- quire-ci gets as far as the commit of the working copy, which is HEAD whatever
-- commit the command was given.
structure Opens (machine : Machine World Vm) (gitDir eventsPath outDir sha : String) : Prop where
  file : machine.createFile eventsPath = .ok ()
  logs : machine.createDirAll outDir = .ok ()
  setup : machine.setup = .ok ()
  head : machine.revParse gitDir = .ok sha

-- The environment of the pipeline in a local run.
def localEnv (machine : Machine World Vm) (copy : WorkingCopy Vm) (repoPath tmp sha : String) : Env World Vm :=
  machine.env (workspace tmp) (runDir copy tmp) ⟨sha,(machine.symbolicRef (gitDir repoPath)).toOption.getD "@",machine.now⟩

-- The clock has not gone back since the run was created.
def Steady (copy : WorkingCopy Vm) : Prop :=
  copy.answers.insertNow ≤ copy.dispatchNow ∧ copy.dispatchNow ≤ copy.answers.resolveNow

-- The workspace is there, quire-ci runs its pipeline to an end, and the rows of
-- the run can be stored.
structure Completes (machine : Machine World Vm) (copy : WorkingCopy Vm) (repoPath tmp : String) (commit : CommitRef) : Prop where
  materialized : Materializes copy.answers (gitDir repoPath) commit.sha (workspace tmp)
  log : copy.answers.log = true
  steady : Steady copy
  ends : ∃ sha, Opens machine (gitDir repoPath) (eventsPath copy tmp) (runDir copy tmp) sha ∧
    ∃ outcome, Ends (runPipeline (localEnv machine copy repoPath tmp sha) machine.registry machine.world) outcome

section Database
variable {db : Db} {row : RunRow} {new : NewRun} {cancelNow insertNow now : Int}

theorem cancel_empty (repo refName : String) (cancelNow : Int) :
    ∃ next : RunsTable, RunsCalls.cancelExisting repo refName cancelNow .empty = (next,.ok ()) ∧ next.keys = [] := by
  have accepts : ∃ next, (RunsStmt.cancelQueued cancelNow repo refName).exec .empty = .ok next :=
    (accepts_iff rfl).mpr (by simp [Table.empty])
  obtain ⟨next,accepted⟩ := accepts
  have active : activeIds .empty repo refName = [] := rfl
  exact ⟨next,by simp [RunsCalls.cancelExisting,active,RunsCalls.cancelActiveRuns,accepted],exec_keys rfl accepted⟩

-- Nothing is refused in a database that has just been made.
theorem create_empty (new : NewRun) (cancelNow insertNow : Int) (directory : Bool) : ∃ db,
    Db.create new cancelNow insertNow directory emptyDb = (db,if directory then .ok ⟨new.id,false,false⟩ else .error .io) ∧
    db.runs.row? new.id = some (new.row insertNow) ∧ db.jobs.rows = [] := by
  have fine : ∀ error, (Db.create new cancelNow insertNow directory emptyDb).2 ≠ .error (.sql error) := by
    intro error refused
    obtain ⟨next,cancelled,keys⟩ := cancel_empty new.repo new.refName cancelNow
    have inserts : ∃ last, (RunsStmt.insertRun new insertNow).exec next = .ok last := by
      refine insert_ok_iff.mpr ⟨?_,RunCreation.insert_checks new insertNow⟩
      have empty : next.rows.map runsSchema.key = [] := keys
      simp [empty]
    obtain ⟨last,inserted⟩ := inserts
    change (RunsCalls.create new cancelNow insertNow directory .empty).2 = _ at refused
    simp only [RunsCalls.create,cancelled,inserted] at refused
    cases directory <;> cases refused
  obtain ⟨db,made,_,inserted⟩ := create_leaves fine
  exact ⟨db,made,inserted,(congrArg (fun answered => answered.1.jobs.rows) made).symm⟩

-- A local run is dispatched here, before its log is made.
theorem launch_local (run : Execution) (here : run.session = none) (found : db.runs.row? runId = some row)
    (unresolved : row.resolvedAt = none) (waiting : row.dispatchedAt = none) :
    (row.createdAt ≤ run.dispatchNow ∧ run.log = true ∧ ∃ before, launch ⟨runId,false,false⟩ run db = (before,.ok ⟨runId,true,false⟩) ∧
      before.runs.row? runId = some { row with dispatchedAt := some run.dispatchNow } ∧ before.jobs = db.jobs) ∨
    (¬ (row.createdAt ≤ run.dispatchNow ∧ run.log = true) ∧ ∃ before error, launch ⟨runId,false,false⟩ run db = (before,.error error)) := by
  have accepts : (∃ next, (RunsStmt.dispatch run.dispatchNow runId).exec db.runs = .ok next) ↔ row.createdAt ≤ run.dispatchNow :=
    RunDelivery.marked_ok_iff rfl (by simp [RunsStmt.selects]) found unresolved (by simp [RunsStmt.sets,waiting])
  cases executed : (RunsStmt.dispatch run.dispatchNow runId).exec db.runs with
  | error error =>
    refine .inr ⟨fun timely => ?_,db,.sql error,?_⟩
    · obtain ⟨next,accepted⟩ := accepts.mpr timely.1
      cases executed.symm.trans accepted
    · simp [launch,markDispatched,here,Db.call,Run.dispatch,executed]
  | ok next =>
    have timely := accepts.mp ⟨next,executed⟩
    have own : row.id = runId := row?_key found
    have moved : next.row? runId = _ := exec_update_row? rfl executed
    cases logged : run.log with
    | false => exact .inr ⟨by simp,_,.io,by simp [launch,markDispatched,here,Db.call,Run.dispatch,executed,logged]; rfl⟩
    | true =>
      refine .inl ⟨timely,rfl,(Db.call (Run.dispatch ⟨runId,false,false⟩ run.dispatchNow) (dispatch_keys _ _) db).1,?_,?_,rfl⟩
      · simp [launch,markDispatched,here,Db.call,Run.dispatch,executed,logged]
      · simpa [Db.call,Run.dispatch,executed,found,RunsStmt.selects,RunsStmt.sets,own,waiting] using moved

theorem resolve_ok_iff (result : Except ExecuteError Unit) (found : db.runs.row? runId = some row)
    (unresolved : row.resolvedAt = none) (allowed : outcome ∈ outcomes) :
    (resolveWith ⟨runId,true,false⟩ outcome now result db).2 = .ok () ↔ result = .ok () ∧ Timely now row := by
  have fits : ∀ other, db.runs.row? runId = some other → (((RunsStmt.resolve now outcome runId).sets other).Checks ↔ Timely now other) := by
    intro other same
    cases found.symm.trans same
    exact stamp_checks_iff (row_checks found) unresolved allowed
  have accepts := accepts_row_iff (.resolve now outcome runId) rfl (by simp [RunsStmt.selects]) fits
  cases executed : (RunsStmt.resolve now outcome runId).exec db.runs with
  | ok next =>
    have timely := accepts.mp ⟨next,executed⟩ row found
    simp [resolveWith,Db.call,Run.resolve,executed,timely]
  | error error =>
    have late : ¬ Timely now row := fun timely => by
      obtain ⟨next,accepted⟩ := accepts.mpr fun other same => by cases found.symm.trans same; exact timely
      cases executed.symm.trans accepted
    simp [resolveWith,Db.call,Run.resolve,executed,late]

-- `execute` returns Ok for either verdict: what matters is that there is one.
theorem settle_ok_iff {child : Child} (found : child.db.runs.row? runId = some row) (unresolved : row.resolvedAt = none) :
    (settle codec ⟨runId,true,false⟩ now child).2 = .ok () ↔ child.status = some 0 ∧
      (∃ outcome, recorded (ingestEvents codec runId child.events child.db).1 = verdict outcome) ∧ Timely now row := by
  rw [← ingestEvents_runs codec runId child.events child.db] at found
  by_cases exited : child.status = some 0
  · rcases ingested : ingestEvents codec runId child.events child.db with ⟨error | _ | outcome,after⟩
    · rw [ingested] at found
      have internal : ¬ ∃ outcome, recorded (.error error) = verdict outcome := not_exists.mpr fun outcome same =>
        RunDelivery.verdict_internal outcome same.symm
      simp [settle,exited,ingested,internal,resolve_ok_iff _ found unresolved (show "failed-internal" ∈ outcomes by decide)]
    · rw [ingested] at found
      have internal : ¬ ∃ outcome, recorded (.ok none) = verdict outcome := not_exists.mpr fun outcome same =>
        RunDelivery.verdict_internal outcome same.symm
      simp [settle,exited,ingested,internal,resolve_ok_iff _ found unresolved (show "failed-internal" ∈ outcomes by decide)]
    · rw [ingested] at found
      have there : ∃ other, recorded (.ok (some outcome)) = verdict other := ⟨outcome,rfl⟩
      cases outcome with
      | succeeded =>
        simp [settle,exited,ingested,there,resolve_ok_iff _ found unresolved (show "succeeded" ∈ outcomes by decide)]
      | pipelineFailure =>
        simp [settle,exited,ingested,there,resolve_ok_iff _ found unresolved (show "failed-pipeline" ∈ outcomes by decide)]
  · simp [settle,exited,resolve_ok_iff _ found unresolved (show "failed-internal" ∈ outcomes by decide)]

end Database

section Main
variable {stamps : Stamps} {machine : Machine World Vm} {now : Int} {db : Db} {cmd : Command}
  {workspace serverUrl token events outDir repoGit sha : String} {sentryDsn : Option String}

-- The run of the pipeline that `main` begins in a local run.
def localRun (machine : Machine World Vm) (workspace outDir repoGit sha : String) : Except String Unit × List Event :=
  runPipeline (machine.env workspace outDir ⟨sha,(machine.symbolicRef repoGit).toOption.getD "@",machine.now⟩)
    machine.registry machine.world

-- How `main` ends there. It never asks the server, so the database is as it was.
inductive MainEnds (machine : Machine World Vm) (workspace outDir repoGit events : String) (db : Db) (ended : RunDelivery.Ended) : Prop where
  | ran (sha : String) (opens : Opens machine repoGit events outDir sha) (kept : ended.db = db)
      (written : ended.written = some (events,codec.jsonl (localRun machine workspace outDir repoGit sha).2))
      (clean : ended.status = 0 ↔ (localRun machine workspace outDir repoGit sha).1 = .ok ())
  | stopped (early : ∀ sha, ¬ Opens machine repoGit events outDir sha) (kept : ended.db = db) (failed : ended.status ≠ 0)

theorem main_local (stamps : Stamps) (machine : Machine World Vm) (now : Int) (db : Db)
    (parsed : machine.figue cmd = .ok ⟨workspace,serverUrl,token,sentryDsn,events,some outDir,true,some repoGit⟩)
    (named : events ≠ "null" ∧ events ≠ "stdout") :
    MainEnds machine workspace outDir repoGit events db (RunDelivery.main stamps machine now cmd db) := by
  have target : RunDelivery.EventsTarget.fromStr events = .file events := by simp [RunDelivery.EventsTarget.fromStr,named]
  have one : (1 : Int) ≠ 0 := by decide
  simp only [RunDelivery.main,parsed,target,RunDelivery.openSink,openLogs,if_true]
  cases file : machine.createFile events with
  | error error => exact .stopped (fun sha early => by cases file.symm.trans early.file) rfl one
  | ok done =>
    cases logs : machine.createDirAll outDir with
    | error error => exact .stopped (fun sha early => by cases logs.symm.trans early.logs) rfl one
    | ok done =>
      simp only [Except.map]
      cases setup : machine.setup with
      | error code => exact .stopped (fun sha early => by cases setup.symm.trans early.setup) rfl code.property
      | ok done =>
        dsimp only
        cases head : machine.revParse repoGit with
        | error error =>
          simp only [localMeta,Option.bind_eq_bind,Option.bind_some,head,Except.toOption,Option.bind_none]
          exact .stopped (fun sha early => by cases head.symm.trans early.head) rfl one
        | ok sha =>
          have told : localMeta machine ⟨workspace,serverUrl,token,sentryDsn,events,some outDir,true,some repoGit⟩ =
              some ⟨sha,(machine.symbolicRef repoGit).toOption.getD "@",machine.now⟩ := by
            simp [localMeta,head,Except.toOption]
          simp only [told]
          have opens : Opens machine repoGit events outDir sha := ⟨file,logs,setup,head⟩
          have run : runPipeline (machine.env workspace outDir ⟨sha,(machine.symbolicRef repoGit).toOption.getD "@",machine.now⟩)
              machine.registry machine.world = localRun machine workspace outDir repoGit sha := rfl
          rw [run]
          rcases ended : localRun machine workspace outDir repoGit sha with ⟨_ | _,shown⟩
          · exact .ran sha opens rfl (by simp [ended,inFile]) (by simp [ended])
          · exact .ran sha opens rfl (by simp [ended,inFile]) (by simp [ended])

end Main

section Finishing
variable {stamps : Stamps} {machine : Machine World Vm} {fetchNow : Int} {copy : WorkingCopy Vm} {repoPath tmp : String}
  {commit : CommitRef} {db : Db} {row : RunRow}

-- quire-ci can be started and reads its command line as it is meant. The
-- environment may hold anything.
structure Starts (stamps : Stamps) (machine : Machine World Vm) (fetchNow : Int) (copy : WorkingCopy Vm) : Prop where
  quireCi : ∀ tmp, copy.tempDir = .ok tmp → ∀ command,
    copy.answers.quireCi command = .ok (child stamps machine fetchNow (fun db => db) (eventsPath copy tmp) command)
  figue : ∀ repoPath tmp, ∃ serverUrl token sentryDsn,
    machine.figue (command ⟨copy.answers.id,true,false⟩ (execution copy repoPath tmp)) =
      .ok ⟨workspace tmp,serverUrl,token,sentryDsn,eventsPath copy tmp,some (runDir copy tmp),true,some (gitDir repoPath)⟩

-- Where a local run takes place.
structure Site (machine : Machine World Vm) (copy : WorkingCopy Vm) (repoPath tmp sha : String) : Prop where
  root : discoverRepo copy.answers = .ok repoPath
  tempDir : copy.tempDir = .ok tmp
  head : machine.revParse (gitDir repoPath) = .ok sha

-- petgraph does as it documents with the pipelines of the commit and of the
-- workspace, and the events of a run hold machine integers.
structure Sound (machine : Machine World Vm) (copy : WorkingCopy Vm) : Prop where
  compiled : ∀ commit pipeline, ciPipeline copy commit = .ok (some pipeline) → Documented copy.petgraph pipeline.graph.shape
  documented : ∀ repoPath tmp sha, Site machine copy repoPath tmp sha → DocumentedAt (localEnv machine copy repoPath tmp sha) machine.world
  typed : ∀ repoPath tmp sha, Site machine copy repoPath tmp sha →
    ∀ event ∈ (runPipeline (localEnv machine copy repoPath tmp sha) machine.registry machine.world).2, EventCodec.InRange event

-- After the child has exited: the result is Ok when its pipeline has ended.
theorem settle_local (sound : Sound machine copy) (root : discoverRepo copy.answers = .ok repoPath) (made : copy.tempDir = .ok tmp)
    (parsed : machine.figue cmd =
      .ok ⟨workspace tmp,serverUrl,token,sentryDsn,eventsPath copy tmp,some (runDir copy tmp),true,some (gitDir repoPath)⟩)
    (found : db.runs.row? runId = some row) (unresolved : row.resolvedAt = none) (empty : db.jobs.rows = []) :
    (settle codec ⟨runId,true,false⟩ now (child stamps machine fetchNow (fun db => db) (eventsPath copy tmp) cmd db)).2 = .ok () ↔
      (∃ sha, Opens machine (gitDir repoPath) (eventsPath copy tmp) (runDir copy tmp) sha ∧
        ∃ outcome, Ends (runPipeline (localEnv machine copy repoPath tmp sha) machine.registry machine.world) outcome) ∧
      Timely now row := by
  have ended := main_local stamps machine fetchNow db parsed (RunDelivery.events_named (runDir copy tmp))
  have present : runId ∈ db.runs.keys := row?_key found ▸ List.mem_map_of_mem (row?_mem found)
  have fresh : ∀ job ∈ db.jobs.rows, job.runId ≠ runId := by simp [empty]
  cases ended with
  | ran sha opens kept written clean =>
    have site : Site machine copy repoPath tmp sha := ⟨root,made,opens.head⟩
    have tells := RunDelivery.recorded_tells (sound.documented repoPath tmp sha site) present fresh
      (sound.typed repoPath tmp sha site)
    rw [settle_ok_iff (by simpa only [child,kept] using found) unresolved]
    simp only [child,kept,written,if_true]
    rw [← and_assoc]
    refine and_congr_left' ⟨fun whole => ⟨sha,opens,?_⟩,fun told => ?_⟩
    · obtain ⟨exited,outcome,said⟩ := whole
      exact ⟨outcome,(tells (clean.mp (Option.some.inj exited)) outcome).mp said⟩
    · obtain ⟨other,again,outcome,ends⟩ := told
      cases opens.head.symm.trans again.head
      exact ⟨congrArg some (clean.mpr ends.1),outcome,(tells ends.1 outcome).mpr ends⟩
  | stopped early kept failed =>
    rw [settle_ok_iff (by simpa only [child,kept] using found) unresolved]
    refine iff_of_false (fun whole => failed (Option.some.inj whole.1)) fun told => ?_
    obtain ⟨⟨sha,opens,_⟩,_⟩ := told
    exact early sha opens

theorem execute_local (sound : Sound machine copy) (starts : Starts stamps machine fetchNow copy)
    (root : discoverRepo copy.answers = .ok repoPath) (made : copy.tempDir = .ok tmp)
    (found : db.runs.row? copy.answers.id = some ((newRun copy commit).row copy.answers.insertNow)) (empty : db.jobs.rows = []) :
    (execute codec ⟨copy.answers.id,false,false⟩ (execution copy repoPath tmp) db).2 = .ok () ↔
      copy.answers.log = true ∧ Steady copy ∧
      ∃ sha, Opens machine (gitDir repoPath) (eventsPath copy tmp) (runDir copy tmp) sha ∧
        ∃ outcome, Ends (runPipeline (localEnv machine copy repoPath tmp sha) machine.registry machine.world) outcome := by
  rcases launch_local (execution copy repoPath tmp) rfl found rfl rfl with
    ⟨dispatched,logged,before,launched,marked,jobs⟩ | ⟨never,before,error,launched⟩
  · obtain ⟨serverUrl,token,sentryDsn,parsed⟩ := starts.figue repoPath tmp
    have spawned : (execution copy repoPath tmp).spawn (command ⟨copy.answers.id,true,false⟩ (execution copy repoPath tmp)) before =
        .ok (child stamps machine fetchNow (fun db => db) (eventsPath copy tmp)
          (command ⟨copy.answers.id,true,false⟩ (execution copy repoPath tmp)) before) := by
      simp only [execution,starts.quireCi tmp made,Except.map]
    have timely : Timely copy.answers.resolveNow
        { (newRun copy commit).row copy.answers.insertNow with dispatchedAt := some copy.dispatchNow } ↔ Steady copy := by
      refine ⟨fun late => ⟨dispatched,late.2 _ rfl⟩,fun steady => ⟨steady.1.trans steady.2,fun stamp same => ?_⟩⟩
      cases same
      exact steady.2
    have log : copy.answers.log = true := logged
    rw [execute_settles codec launched spawned,and_iff_right log]
    exact ((settle_local sound root made parsed marked rfl (by rw [jobs,empty])).trans (and_congr_right' timely)).trans and_comm
  · have refused : (RunExecute.execute codec ⟨copy.answers.id,false,false⟩ (execution copy repoPath tmp) db).2 = .error (.run error) := by
      simp only [RunExecute.execute,launched]
    rw [refused]
    exact iff_of_false (by simp) fun whole => never ⟨whole.2.1.1,whole.1⟩

theorem finish_ok_iff (sound : Sound machine copy) (starts : Starts stamps machine fetchNow copy)
    (root : discoverRepo copy.answers = .ok repoPath) (made : copy.tempDir = .ok tmp)
    (found : db.runs.row? copy.answers.id = some ((newRun copy commit).row copy.answers.insertNow)) (empty : db.jobs.rows = []) :
    (finish copy repoPath tmp commit ⟨copy.answers.id,false,false⟩ db).2 = .ok () ↔ Completes machine copy repoPath tmp commit := by
  cases tried : materializeWorkspace copy.answers (gitDir repoPath) commit.sha (workspace tmp) with
  | error error =>
    simp only [finish,tried]
    refine iff_of_false (fun same => nomatch same) fun completes => ?_
    cases tried.symm.trans (materializeWorkspace_ok_iff.mpr completes.materialized)
  | ok done =>
    have executes := execute_local sound starts root made found empty
    have same : (finish copy repoPath tmp commit ⟨copy.answers.id,false,false⟩ db).2 = .ok () ↔
        (RunExecute.execute codec ⟨copy.answers.id,false,false⟩ (execution copy repoPath tmp) db).2 = .ok () := by
      simp only [finish,tried]
      split <;> rename_i executed <;> simp [executed]
    rw [same,executes]
    exact ⟨fun whole => ⟨materializeWorkspace_ok_iff.mp tried,whole.1,whole.2.1,whole.2.2⟩,
      fun completes => ⟨completes.log,completes.steady,completes.ends⟩⟩

-- The last lines of a run that has got its workspace.
structure Reports (copy : WorkingCopy Vm) (tmp : String) (printed : List String) (returned : Except LocalError Unit) : Prop where
  lines : ∃ last, printed = (copy.readLog (joinPath (runDir copy tmp) "quire-ci.log")).toOption.toList ++ [last] ∧
    ((last = "\nRun complete." ∧ returned = .ok ()) ∨ (last = "\nRun failed." ∧ ∃ error, returned = .error error))

theorem finish_reports (materialized : Materializes copy.answers (gitDir repoPath) commit.sha (workspace tmp)) (self : Run) (db : Db) :
    Reports copy tmp (finish copy repoPath tmp commit self db).1 (finish copy repoPath tmp commit self db).2 := by
  simp only [finish,materializeWorkspace_ok_iff.mpr materialized]
  split
  · exact ⟨_,rfl,.inl ⟨rfl,rfl⟩⟩
  · exact ⟨_,rfl,.inr ⟨rfl,_,rfl⟩⟩

end Finishing

section Commands
variable {stamps : Stamps} {machine : Machine World Vm} {fetchNow : Int} {copy : WorkingCopy Vm} {maybeSha : Option String}
  {repoPath tmp : String} {commit : CommitRef}

-- The commit of the command has no pipeline.
def Unscripted (copy : WorkingCopy Vm) (maybeSha : Option String) : Prop :=
  ∃ repoPath commit, discoverRepo copy.answers = .ok repoPath ∧ resolveCommit copy.answers maybeSha = .ok commit ∧
    ciPipeline copy commit = .ok none

-- The three ways that both commands begin.
inductive Begins (copy : WorkingCopy Vm) (maybeSha : Option String)
    (next : String → CommitRef → Pipeline copy.petgraph Vm → Shown LocalError) : Shown LocalError → Prop where
  | failed (error : LocalError) (unscripted : ¬ Unscripted copy maybeSha)
      (unpiped : ∀ repoPath commit, ¬ Piped copy maybeSha repoPath commit) : Begins copy maybeSha next ⟨[],.ok (.error error)⟩
  | unscripted (commit : CommitRef) (unscripted : Unscripted copy maybeSha)
      (unpiped : ∀ repoPath commit, ¬ Piped copy maybeSha repoPath commit) : Begins copy maybeSha next (noScript commit)
  | piped (repoPath : String) (commit : CommitRef) (pipeline : Pipeline copy.petgraph Vm) (unscripted : ¬ Unscripted copy maybeSha)
      (piped : Piped copy maybeSha repoPath commit) (compiled : ciPipeline copy commit = .ok (some pipeline))
      (only : ∀ otherPath other, Piped copy maybeSha otherPath other → otherPath = repoPath ∧ other = commit) :
      Begins copy maybeSha next (next repoPath commit pipeline)

theorem withPipeline_begins (copy : WorkingCopy Vm) (maybeSha : Option String)
    (next : String → CommitRef → Pipeline copy.petgraph Vm → Shown LocalError) :
    Begins copy maybeSha next (withPipeline copy maybeSha next) := by
  unfold withPipeline
  cases root : discoverRepo copy.answers with
  | error error => exact .failed error (by simp [Unscripted,root]) fun repoPath commit piped => nomatch root.symm.trans piped.root
  | ok repoPath =>
    dsimp only
    cases resolved : resolveCommit copy.answers maybeSha with
    | error error =>
      exact .failed error (by simp [Unscripted,resolved]) fun repoPath commit piped => nomatch resolved.symm.trans piped.resolved
    | ok commit =>
      dsimp only
      have only : ∀ otherPath other, Piped copy maybeSha otherPath other → otherPath = repoPath ∧ other = commit := by
        intro otherPath other piped
        exact ⟨Except.ok.inj (piped.root.symm.trans root),Except.ok.inj (piped.resolved.symm.trans resolved)⟩
      have here : ∀ answer, ciPipeline copy commit ≠ .ok answer → ∀ other, resolveCommit copy.answers maybeSha = .ok other →
          ciPipeline copy other ≠ .ok answer := by
        intro answer differs other same
        cases resolved.symm.trans same
        exact differs
      cases compiled : ciPipeline copy commit with
      | error error =>
        rw [compiled] at here
        refine .failed error ?_ ?_
        · rintro ⟨_,other,_,same,none⟩
          exact here _ (by simp) other same none
        · intro _ other piped
          obtain ⟨pipeline,found⟩ := piped.pipeline
          exact here _ (by simp) other piped.resolved found
      | ok answer =>
        cases answer with
        | none =>
          refine .unscripted commit ⟨repoPath,commit,root,resolved,compiled⟩ fun _ other piped => ?_
          obtain ⟨pipeline,found⟩ := piped.pipeline
          exact here _ (by simp [compiled]) other piped.resolved found
        | some pipeline =>
          refine .piped repoPath commit pipeline ?_ ⟨root,resolved,pipeline,compiled⟩ compiled only
          rintro ⟨_,other,_,same,none⟩
          exact here _ (by simp [compiled]) other same none

-- The three ways that a run ends once its commit has a pipeline.
inductive Attempts (copy : WorkingCopy Vm) (repoPath : String) (commit : CommitRef) : Shown LocalError → Prop where
  | uncreated (error : LocalError) (never : ∀ tmp, ¬ Created copy tmp) : Attempts copy repoPath commit ⟨[],.ok (.error error)⟩
  | panicked (tmp message : String) (created : Created copy tmp) (straddled : Straddled 12 commit.sha.toList) :
      Attempts copy repoPath commit ⟨[],.error message⟩
  | finished (tmp short : String) (db : Db) (created : Created copy tmp) (clear : ¬ Straddled 12 commit.sha.toList)
      (cut : shortSha commit = some short)
      (found : db.runs.row? copy.answers.id = some ((newRun copy commit).row copy.answers.insertNow)) (empty : db.jobs.rows = []) :
      Attempts copy repoPath commit ⟨header copy commit short :: (finish copy repoPath tmp commit ⟨copy.answers.id,false,false⟩ db).1,
        .ok (finish copy repoPath tmp commit ⟨copy.answers.id,false,false⟩ db).2⟩

theorem runCommit_attempts (copy : WorkingCopy Vm) (repoPath : String) (commit : CommitRef) :
    Attempts copy repoPath commit (runCommit copy repoPath commit) := by
  unfold runCommit
  cases tempDir : copy.tempDir with
  | error source => exact .uncreated _ fun tmp created => nomatch tempDir.symm.trans created.tempDir
  | ok tmp =>
    dsimp only
    cases opened : copy.openDb with
    | error message => exact .uncreated _ fun tmp created => nomatch opened.symm.trans created.openDb
    | ok done =>
      obtain ⟨db,made,found,empty⟩ := create_empty (newRun copy commit) copy.answers.cancelNow copy.answers.insertNow
        copy.answers.runDirectory
      simp only [made]
      cases directory : copy.answers.runDirectory with
      | false => exact .uncreated _ fun tmp created => nomatch directory.symm.trans created.runDirectory
      | true =>
        have created : Created copy tmp := ⟨tempDir,opened,directory⟩
        have cuts : (∃ short, shortSha commit = some short) ↔ ¬ Straddled 12 commit.sha.toList := start_some commit.sha 12
        simp only [if_true]
        cases cut : shortSha commit with
        | none =>
          refine .panicked tmp _ created ?_
          by_contra clear
          obtain ⟨short,some⟩ := cuts.mpr clear
          cases cut.symm.trans some
        | some short => exact .finished tmp short db created (cuts.mp ⟨short,cut⟩) cut found empty

theorem Created.unique (first : Created copy tmp) (second : Created copy other) : tmp = other :=
  Except.ok.inj (first.tempDir.symm.trans second.tempDir)

-- `validate` passes a commit without a script, or with one that compiles.
theorem validate_passes_iff (documented : ∀ commit pipeline, ciPipeline copy commit = .ok (some pipeline) →
      Documented copy.petgraph pipeline.graph.shape) :
    (validate copy maybeSha).ended = .ok (.ok ()) ↔ Unscripted copy maybeSha ∨ ∃ repoPath commit, Piped copy maybeSha repoPath commit := by
  have begins := withPipeline_begins copy maybeSha fun _ _ pipeline =>
    if pipeline.graph.jobs.length = 0 then ⟨["No jobs registered."],.ok (.ok ())⟩ else showJobs "←" ["Jobs:"] pipeline
  rw [validate]
  generalize withPipeline copy maybeSha _ = shown at begins
  cases begins with
  | failed error unscripted unpiped =>
    refine iff_of_false (fun same => nomatch same) fun either => either.elim unscripted fun piped => ?_
    obtain ⟨repoPath,commit,piped⟩ := piped
    exact unpiped repoPath commit piped
  | unscripted commit unscripted unpiped => exact iff_of_true rfl (.inl unscripted)
  | piped repoPath commit pipeline unscripted piped compiled only =>
    refine iff_of_true ?_ (.inr ⟨repoPath,commit,piped⟩)
    obtain ⟨jobs,listed,_⟩ := jobs_order (documented commit pipeline compiled)
    split
    · rfl
    · simp [showJobs,listed]

-- `quire ci run` ends well when the pipeline of its workspace has ended, with
-- either verdict. That pipeline is told HEAD, and the given commit only says what
-- is in the workspace.
theorem local_run (stamps : Stamps) (machine : Machine World Vm) (fetchNow : Int) (copy : WorkingCopy Vm) (maybeSha : Option String)
    (sound : Sound machine copy) (starts : Starts stamps machine fetchNow copy) :
    ((validate copy maybeSha).ended = .ok (.ok ()) ↔
      Unscripted copy maybeSha ∨ ∃ repoPath commit, Piped copy maybeSha repoPath commit) ∧
    ((run copy maybeSha).ended = .ok (.ok ()) ↔ Unscripted copy maybeSha ∨ ∃ repoPath commit tmp,
      Piped copy maybeSha repoPath commit ∧ Created copy tmp ∧ ¬ Straddled 12 commit.sha.toList ∧
        Completes machine copy repoPath tmp commit) ∧
    ((∃ message, (run copy maybeSha).ended = .error message) ↔ ∃ repoPath commit tmp,
      Piped copy maybeSha repoPath commit ∧ Created copy tmp ∧ Straddled 12 commit.sha.toList) ∧
    ∀ repoPath commit tmp, Piped copy maybeSha repoPath commit → Created copy tmp → ¬ Straddled 12 commit.sha.toList →
      Materializes copy.answers (gitDir repoPath) commit.sha (workspace tmp) →
      ∃ short rest returned, shortSha commit = some short ∧ Reports copy tmp rest returned ∧
        run copy maybeSha = ⟨header copy commit short :: rest,.ok returned⟩ := by
  refine ⟨validate_passes_iff sound.compiled,?_⟩
  have begins := withPipeline_begins copy maybeSha fun repoPath commit _ => runCommit copy repoPath commit
  change Begins _ _ _ (run copy maybeSha) at begins
  generalize run copy maybeSha = shown at begins
  cases begins with
  | failed error unscripted unpiped =>
    refine ⟨iff_of_false (fun same => nomatch same) ?_,iff_of_false (fun same => nomatch same.choose_spec) ?_,?_⟩
    · rintro (bare | ⟨repoPath,commit,_,piped,_⟩)
      · exact unscripted bare
      · exact unpiped repoPath commit piped
    · rintro ⟨repoPath,commit,_,piped,_⟩
      exact unpiped repoPath commit piped
    · intro repoPath commit _ piped
      exact absurd piped (unpiped repoPath commit)
  | unscripted commit unscripted unpiped =>
    refine ⟨iff_of_true rfl (.inl unscripted),iff_of_false (fun same => nomatch same.choose_spec) ?_,?_⟩
    · rintro ⟨repoPath,commit,_,piped,_⟩
      exact unpiped repoPath commit piped
    · intro repoPath commit _ piped
      exact absurd piped (unpiped repoPath commit)
  | piped repoPath commit pipeline unscripted piped compiled only =>
    have attempts := runCommit_attempts copy repoPath commit
    generalize runCommit copy repoPath commit = shown at attempts
    cases attempts with
    | uncreated error never =>
      refine ⟨iff_of_false (fun same => nomatch same) ?_,iff_of_false (fun same => nomatch same.choose_spec) ?_,?_⟩
      · rintro (bare | ⟨_,_,tmp,_,created,_⟩)
        · exact unscripted bare
        · exact never tmp created
      · rintro ⟨_,_,tmp,_,created,_⟩
        exact never tmp created
      · intro _ _ tmp _ created
        exact absurd created (never tmp)
    | panicked tmp message created straddled =>
      refine ⟨iff_of_false (fun same => nomatch same) ?_,iff_of_true ⟨message,rfl⟩ ⟨repoPath,commit,tmp,piped,created,straddled⟩,?_⟩
      · rintro (bare | ⟨_,other,_,again,_,clear,_⟩)
        · exact unscripted bare
        · exact clear ((only _ other again).2 ▸ straddled)
      · intro _ other _ again _ clear
        exact absurd ((only _ other again).2 ▸ straddled) clear
    | finished tmp short db created clear cut found empty =>
      refine ⟨?_,iff_of_false (fun same => nomatch same.choose_spec) ?_,?_⟩
      · have finishes := finish_ok_iff sound starts piped.root created.tempDir found empty
        simp only [Except.ok.injEq,finishes]
        constructor
        · exact fun completes => .inr ⟨repoPath,commit,tmp,piped,created,clear,completes⟩
        · rintro (bare | ⟨otherPath,other,otherTmp,again,recreated,_,completes⟩)
          · exact absurd bare unscripted
          · obtain ⟨rfl,rfl⟩ := only otherPath other again
            cases created.unique recreated
            exact completes
      · rintro ⟨_,other,_,again,_,straddled⟩
        exact clear ((only _ other again).2 ▸ straddled)
      · intro otherPath other otherTmp again recreated _ materialized
        obtain ⟨rfl,rfl⟩ := only otherPath other again
        cases created.unique recreated
        exact ⟨short,_,_,cut,finish_reports materialized _ _,rfl⟩

end Commands

-- jj and git as they answer in a repository whose HEAD is detached.
def plainOutput (command : Command) : Except String Output :=
  match command.program,command.args with
  | "jj",["root"] => .ok ⟨some 0,some "/home/me/quire\n",""⟩
  | "jj",_ => .ok ⟨some 0,some "4b825dc642cb6eb9a060e54bf8d69288fbee4904",""⟩
  | _,_ => .ok ⟨some 0,some "",""⟩

def localFigue (command : Command) : Except Int RunDelivery.Cli :=
  match command.args with
  | ["run","--workspace",workspace,"--out-dir",outDir,"--events",events,"--local","--git-dir",gitDir] =>
    .ok ⟨workspace,"","",none,events,some outDir,true,some gitDir⟩
  | _ => .error 1

def localMachine : Machine Unit Bool :=
  { RunDelivery.sampleMachine with figue := localFigue, revParse := fun _ => .ok "0f1e2d3" }

def localChild (command : Command) (db : Db) : Child :=
  child PushWire.epoch localMachine 0 (fun db => db) "/tmp/quire/run-2/events.jsonl" command db

theorem localChild_forward (command : Command) (child : Db → Child) (ran : Except.ok (localChild command) = (.ok child : Except String _))
    (db : Db) : Evolves Forward db.runs (child db).db.runs := by
  cases ran
  exact RunDelivery.main_forward PushWire.epoch localMachine 0 command db

def localCopy : WorkingCopy Bool where
  answers := { sampleAnswers 0 with
    output := plainOutput, quireCi := fun command => .ok (localChild command), quireCiForward := localChild_forward }
  lua := RunProtocol.twoJobs true false
  petgraph := RunProtocol.chainPetgraph
  tempDir := .ok "/tmp/quire"
  openDb := .ok ()
  pushedAt := 0
  dispatchNow := 15
  readLog _ := .ok ""

theorem localCopy_site (site : Site localMachine localCopy repoPath tmp sha) :
    repoPath = "/home/me/quire" ∧ tmp = "/tmp/quire" ∧ sha = "0f1e2d3" := by
  have root : discoverRepo localCopy.answers = .ok "/home/me/quire" := by decide
  refine ⟨?_,?_,?_⟩
  · exact Except.ok.inj (site.root.symm.trans root)
  · exact (Except.ok.inj site.tempDir).symm
  · exact (Except.ok.inj site.head).symm

theorem localCopy_shape (commit : CommitRef) :
    (ciPipeline localCopy commit).toOption.join.map (·.graph.shape) = some RunProtocol.chain := by
  have read : source localCopy.answers commit.sha = .ok (some "") := rfl
  simp only [ciPipeline,read]
  decide +kernel

theorem localCopy_sound : Sound localMachine localCopy where
  compiled := by
    intro commit pipeline compiled
    have shape := localCopy_shape commit
    rw [compiled] at shape
    have same : pipeline.graph.shape = RunProtocol.chain := Option.some.inj shape
    rw [same]
    exact RunProtocol.chain_documented
  documented := by
    intro repoPath tmp sha site
    obtain ⟨rfl,rfl,rfl⟩ := localCopy_site site
    have shape : (compileAt (localEnv localMachine localCopy "/home/me/quire" "/tmp/quire" "0f1e2d3") ()).1.toOption.map
        (·.graph.shape) = some RunProtocol.chain := by decide +kernel
    intro pipeline started compiled
    change compileAt _ () = _ at compiled
    rw [compiled] at shape
    have same : pipeline.graph.shape = RunProtocol.chain := Option.some.inj shape
    rw [same]
    exact RunProtocol.chain_documented
  typed := by
    intro repoPath tmp sha site
    obtain ⟨rfl,rfl,rfl⟩ := localCopy_site site
    change ∀ event ∈ (runPipeline (localEnv localMachine localCopy "/home/me/quire" "/tmp/quire" "0f1e2d3")
      Secret.SecretRegistry.new ()).2,EventCodec.InRange event
    decide +kernel

theorem localCopy_starts : Starts PushWire.epoch localMachine 0 localCopy where
  quireCi tmp made command := by
    cases made
    rfl
  figue repoPath tmp := ⟨"","",none,rfl⟩

theorem local_run_completes : (run localCopy none).printed =
      ["Run run-2: executing at @ (4b825dc642cb)","","\nRun complete."] ∧ (validate localCopy none).ended = .ok (.ok ()) ∧
    ∃ outcome, Ends (runPipeline (localEnv localMachine localCopy "/home/me/quire" "/tmp/quire" "0f1e2d3")
      Secret.SecretRegistry.new ()) outcome := by
  obtain ⟨passes,completes,_,_⟩ := local_run PushWire.epoch localMachine 0 localCopy none localCopy_sound localCopy_starts
  have ended : (run localCopy none).ended = .ok (.ok ()) := by decide +kernel
  rcases completes.mp ended with bare | whole
  · obtain ⟨_,commit,_,_,none⟩ := bare
    have shape := localCopy_shape commit
    rw [none] at shape
    cases shape
  · obtain ⟨repoPath,commit,tmp,piped,created,_,completed⟩ := whole
    obtain ⟨sha,opens,outcome,ends⟩ := completed.ends
    obtain ⟨rfl,rfl,rfl⟩ := localCopy_site ⟨piped.root,created.tempDir,opens.head⟩
    exact ⟨by decide +kernel,passes.mpr (.inr ⟨_,commit,piped⟩),outcome,ends⟩

end Quire.LocalRun
