import Quire.EventCodec
import Quire.EventRuns
import Quire.PushHandoff

namespace Quire.RunDelivery
open KeyedTable RunsTable RunLifecycle PushEvents RunEvents Ingest IngestRows RunPipeline RunProgress RunExecute RunTrigger
open PushWire (Stamps)
open PushHandoff (reply fetchBootstrap fetch_reply runtimeMeta fromMillisecond)
open RunsCalls (Run RunsError Bootstrap ApiError verifyRunToken selectBootstrap bootstrapOf getBootstrap)
open CiRuntime (Host RunMeta joinPath asMillisecond)
open EventRuns (row_was create_closes)

def codec : Codec := EventCodec.codec JsonTokens.tokens

-- `Cli` with its `run` subcommand.
structure Cli where
  workspace : String
  serverUrl : String
  runToken : String
  sentryDsn : Option String
  events : String
  outDir : Option String
  isLocal : Bool
  gitDir : Option String
  deriving DecidableEq, Repr

inductive EventsTarget where
  | null
  | stdout
  | file (path : String)
  deriving DecidableEq, Repr

-- `EventsTarget::from_str`
def EventsTarget.fromStr (s : String) : EventsTarget :=
  if s = "null" then .null else if s = "stdout" then .stdout else .file s

-- What `main` of quire-ci meets. `figue` reads the command line and the
-- environment, or exits. `setup` is the async runtime, the HTTP client and the
-- telemetry. A request to a URL arrives at the server, and its reply comes back.
structure Machine (World Vm : Type) where
  figue : Command → Except Int Cli
  createFile : String → Except String Unit
  createDirAll : String → Except String Unit
  tempDir : Except String String
  setup : Except { code : Int // code ≠ 0 } Unit
  sends : String → Bool
  receives : Bool
  revParse : String → Except String String
  symbolicRef : String → Except String String
  now : String
  host : Host World
  lua : Primitives.Lua Vm
  petgraph : JobPipeline.Petgraph
  registry : Secret.SecretRegistry
  world : World

theorem getBootstrap_keys (runId : String) (now : Int) (runs : RunsTable) : (getBootstrap runId now runs).1.keys = runs.keys := by
  unfold getBootstrap
  split
  · rfl
  · split
    · rename_i accepted; exact exec_keys rfl accepted
    · rfl

-- The server's side of GET /api/run/bootstrap: the body of a reply with status
-- 200, and none for any other.
def serveBootstrap (stamps : Stamps) (token : String) (now : Int) (db : Db) : Db × Option (List UInt8) :=
  match verifyRunToken db.runs token with
  | .error _ => (db,none)
  | .ok runId =>
    match Db.call (getBootstrap runId now) (getBootstrap_keys runId now) db with
    | (db,.ok bootstrap) => (db,some (reply stamps bootstrap))
    | (db,.error _) => (db,none)

variable {World Vm : Type}

-- `RunClient::fetch_bootstrap`
def askBootstrap (stamps : Stamps) (machine : Machine World Vm) (cli : Cli) (now : Int) (db : Db) : Db × Option RunMeta :=
  if machine.sends (cli.serverUrl ++ "/api/run/bootstrap") then
    match serveBootstrap stamps cli.runToken now db with
    | (db,some body) =>
      (db,if machine.receives then (fetchBootstrap stamps body).map fun fetched => runtimeMeta stamps fetched.runMeta else none)
    | (db,none) => (db,none)
  else (db,none)

def localMeta (machine : Machine World Vm) (cli : Cli) : Option RunMeta := do
  let gitDir ← cli.gitDir
  let sha ← (machine.revParse gitDir).toOption
  return ⟨sha,(machine.symbolicRef gitDir).toOption.getD "@",machine.now⟩

-- The exit code, the database as the bootstrap has left it, and the file of
-- events with its content.
structure Ended where
  status : Int
  db : Db
  written : Option (String × List UInt8)

def Machine.env (machine : Machine World Vm) (workspace logDir : String) (runMeta : RunMeta) : Env World Vm :=
  ⟨machine.host,machine.lua,machine.petgraph,workspace,logDir,runMeta⟩

def openSink (machine : Machine World Vm) : EventsTarget → Except String Unit
  | .file path => machine.createFile path
  | _ => .ok ()

def inFile (target : EventsTarget) (events : List Event) : Option (String × List UInt8) :=
  match target with
  | .file path => some (path,codec.jsonl events)
  | _ => none

def openLogs (machine : Machine World Vm) : Option String → Except String String
  | some path => (machine.createDirAll path).map fun () => path
  | none => machine.tempDir

-- `main` with the `run` subcommand. An error is exit code 1, and a panic 101.
def main (stamps : Stamps) (machine : Machine World Vm) (now : Int) (command : Command) (db : Db) : Ended :=
  match machine.figue command with
  | .error code => ⟨code,db,none⟩
  | .ok cli =>
    let target := EventsTarget.fromStr cli.events
    match openSink machine target with
    | .error _ => ⟨1,db,none⟩
    | .ok () =>
      match openLogs machine cli.outDir with
      | .error _ => ⟨1,db,inFile target []⟩
      | .ok logDir =>
        match machine.setup with
        | .error code => ⟨code.val,db,inFile target []⟩
        | .ok () =>
          match if cli.isLocal then (db,localMeta machine cli) else askBootstrap stamps machine cli now db with
          | (db,none) => ⟨1,db,inFile target []⟩
          | (db,some runMeta) =>
            match runPipeline (machine.env cli.workspace logDir runMeta) machine.registry machine.world with
            | (.ok (),events) => ⟨0,db,inFile target events⟩
            | (.error _,events) => ⟨101,db,inFile target events⟩

-- quire-ci as the server sees it: `others` is what the other connections do
-- until it exits, and the events are looked for at `eventsPath`.
def child (stamps : Stamps) (machine : Machine World Vm) (now : Int) (others : Db → Db) (eventsPath : String) (command : Command)
    (db : Db) : Child :=
  let ended := main stamps machine now command db
  ⟨some ended.status,others ended.db,
    match ended.written with
    | some (path,bytes) => if path = eventsPath then .ok bytes else .error .notFound
    | none => .error .notFound⟩

-- The pipeline has ended in this way and its rows can be stored.
def Ends (run : Except String Unit × List Event) (outcome : RunOutcome) : Prop :=
  run.1 = .ok () ∧ ∃ stream : RunStream, run.2 = stream.events ∧ stream.outcome = outcome ∧ ∀ job ∈ stream.jobs, JobRun.Storable job

-- The row says how the pipeline has ended.
structure Tells (run : Except String Unit × List Event) (row : RunRow) : Prop where
  ended : ∀ outcome, row.outcome = some (verdict outcome) ↔ Ends run outcome
  failed : row.outcome = some "failed-internal" ↔ ∀ outcome, ¬ Ends run outcome

-- quire-ci gets as far as its bootstrap.
structure Opens (machine : Machine World Vm) (serverUrl eventsPath outDir : String) : Prop where
  file : machine.createFile eventsPath = .ok ()
  logs : machine.createDirAll outDir = .ok ()
  setup : machine.setup = .ok ()
  sends : machine.sends (serverUrl ++ "/api/run/bootstrap") = true
  receives : machine.receives = true

-- The other connections leave the run, its jobs and its token alone.
structure Alone (id token : String) (others : Db → Db) : Prop where
  row : ∀ db, (others db).runs.row? id = db.runs.row? id
  jobs : ∀ db, ∀ job ∈ (others db).jobs.rows, job.runId = id → job ∈ db.jobs.rows
  token : ∀ db, ∀ row ∈ (others db).runs.rows, row.runToken = some token → row ∈ db.runs.rows ∨ row.id = id

section Serving
variable {stamps : Stamps} {db : Db} {row : RunRow} {id token : String} {now : Int}

theorem owner_verified (found : db.runs.row? id = some row) (holds : row.runToken = some token)
    (own : ∀ other ∈ db.runs.rows, other.runToken = some token → other.id = id) : verifyRunToken db.runs token = .ok id := by
  rw [RunsCalls.verifyRunToken_ok_iff]
  cases first : db.runs.rows.find? (fun other => other.runToken == some token) with
  | none => exact absurd (by simpa using holds) (List.find?_eq_none.mp first row (row?_mem found))
  | some other => exact ⟨other,rfl,own other (List.mem_of_find?_eq_some first) (by simpa using List.find?_some first)⟩

-- An UPDATE that marks a run as dispatched is accepted from the creation of the
-- run on.
theorem marked_ok_iff {runs : RunsTable} {stmt : RunsStmt} (update : stmt.isInsert = false)
    (selects : ∀ row, stmt.selects row = true ↔ row.id = id) (found : runs.row? id = some row) (unresolved : row.resolvedAt = none)
    (sets : stmt.sets row = { row with dispatchedAt := some now }) :
    (∃ next, stmt.exec runs = .ok next) ↔ row.createdAt ≤ now := by
  have valid := row_checks found
  have fits : ∀ other, runs.row? id = some other → ((stmt.sets other).Checks ↔ other.createdAt ≤ now) := by
    intro other same
    cases found.symm.trans same
    rw [sets]
    constructor
    · exact fun checks => checks.dispatched now rfl
    · intro timely
      refine ⟨fun stamp sent => ?_,valid.resolved,fun resolvedAt stamped => ?_,valid.together,valid.allowed⟩
      · cases sent
        exact timely
      · rw [show ({ row with dispatchedAt := some now } : RunRow).resolvedAt = none from unresolved] at stamped
        cases stamped
  rw [accepts_row_iff stmt update selects fits]
  constructor
  · exact fun timely => timely row found
  · intro timely other same
    cases found.symm.trans same
    exact timely

theorem fetched_ok_iff (now : Int) (found : db.runs.row? id = some row) (unresolved : row.resolvedAt = none) :
    (∃ next, (RunsStmt.bootstrapFetched now id).exec db.runs = .ok next) ↔ row.createdAt ≤ now :=
  marked_ok_iff rfl (by simp [RunsStmt.selects]) found unresolved rfl

-- What the run is told, and what its row says of it.
theorem serve_own (stamps : Stamps) (now : Int) (found : db.runs.row? id = some row) (holds : row.runToken = some token)
    (own : ∀ other ∈ db.runs.rows, other.runToken = some token → other.id = id) (waiting : row.dispatchedAt = none)
    (unresolved : row.resolvedAt = none) :
    (row.createdAt ≤ now ∧ ∃ next, serveBootstrap stamps token now db = (next,some (reply stamps (bootstrapOf row))) ∧
      next.runs.row? id = some { row with dispatchedAt := some now } ∧ next.jobs = db.jobs) ∨
    (¬ row.createdAt ≤ now ∧ serveBootstrap stamps token now db = (db,none)) := by
  have selected : selectBootstrap db.runs id = .ok (bootstrapOf row) := by simp [selectBootstrap,found,waiting]
  have accepts := fetched_ok_iff now found unresolved
  rw [serveBootstrap,owner_verified found holds own]
  cases executed : (RunsStmt.bootstrapFetched now id).exec db.runs with
  | ok next =>
    have sets : next.row? id = _ := exec_update_row? rfl executed
    have same : row.id = id := row?_key found
    refine .inl ⟨accepts.mp ⟨next,executed⟩,(Db.call (getBootstrap id now) (getBootstrap_keys id now) db).1,?_,?_,rfl⟩
    · simp [Db.call,getBootstrap,selected,executed]
    · rw [found] at sets
      simpa [Db.call,getBootstrap,selected,executed,RunsStmt.selects,RunsStmt.sets,same] using sets
  | error error =>
    refine .inr ⟨fun timely => ?_,?_⟩
    · obtain ⟨next,accepted⟩ := accepts.mpr timely
      cases executed.symm.trans accepted
    · simp only [Db.call,getBootstrap,selected,executed]

end Serving

section Main
variable {stamps : Stamps} {machine : Machine World Vm} {now : Int} {db : Db} {row : RunRow}
  {id workspace serverUrl token eventsPath outDir : String} {sentryDsn : Option String} {cmd : Command}

-- The run of the pipeline that the bootstrap of this row begins.
def piped (stamps : Stamps) (machine : Machine World Vm) (workspace outDir : String) (row : RunRow) : Except String Unit × List Event :=
  runPipeline (machine.env workspace outDir ⟨row.sha,row.refName,stamps.print (fromMillisecond row.pushedAtMs)⟩)
    machine.registry machine.world

-- How `main` ends when the server has started it for a run: with the events of
-- the pipeline, or with an error before.
inductive Dispatched (stamps : Stamps) (machine : Machine World Vm) (now : Int) (workspace serverUrl eventsPath outDir : String)
    (row : RunRow) (ended : Ended) : Prop where
  | ran (opens : Opens machine serverUrl eventsPath outDir) (timely : row.createdAt ≤ now)
      (written : ended.written = some (eventsPath,codec.jsonl (piped stamps machine workspace outDir row).2))
      (clean : ended.status = 0 ↔ (piped stamps machine workspace outDir row).1 = .ok ())
  | stopped (early : ¬ (Opens machine serverUrl eventsPath outDir ∧ row.createdAt ≤ now)) (failed : ended.status ≠ 0)

theorem main_dispatched (stamps : Stamps) (machine : Machine World Vm) (now : Int)
    (parsed : machine.figue cmd = .ok ⟨workspace,serverUrl,token,sentryDsn,eventsPath,some outDir,false,none⟩)
    (named : eventsPath ≠ "null" ∧ eventsPath ≠ "stdout") (found : db.runs.row? id = some row) (holds : row.runToken = some token)
    (own : ∀ other ∈ db.runs.rows, other.runToken = some token → other.id = id) (waiting : row.dispatchedAt = none)
    (unresolved : row.resolvedAt = none) (inRange : stamps.inRange (fromMillisecond row.pushedAtMs)) :
    (∃ after, (main stamps machine now cmd db).db.runs.row? id = some after ∧ after.resolvedAt = none) ∧
      (main stamps machine now cmd db).db.jobs = db.jobs ∧
      Dispatched stamps machine now workspace serverUrl eventsPath outDir row (main stamps machine now cmd db) := by
  have target : EventsTarget.fromStr eventsPath = .file eventsPath := by simp [EventsTarget.fromStr,named]
  have one : (1 : Int) ≠ 0 := by decide
  simp only [main,parsed,target,openSink,openLogs,Bool.false_eq_true,if_false]
  cases file : machine.createFile eventsPath with
  | error error => exact ⟨⟨row,found,unresolved⟩,rfl,.stopped (fun early => by cases file.symm.trans early.1.file) one⟩
  | ok done =>
    cases logs : machine.createDirAll outDir with
    | error error => exact ⟨⟨row,found,unresolved⟩,rfl,.stopped (fun early => by cases logs.symm.trans early.1.logs) one⟩
    | ok done =>
      simp only [Except.map]
      cases setup : machine.setup with
      | error code => exact ⟨⟨row,found,unresolved⟩,rfl,.stopped (fun early => by cases setup.symm.trans early.1.setup) code.property⟩
      | ok done =>
        dsimp only
        cases sends : machine.sends (serverUrl ++ "/api/run/bootstrap") with
        | false =>
          simp only [askBootstrap,sends,Bool.false_eq_true,if_false]
          exact ⟨⟨row,found,unresolved⟩,trivial,.stopped (fun early => by cases sends.symm.trans early.1.sends) one⟩
        | true =>
          simp only [askBootstrap,sends,if_true]
          rcases serve_own stamps now found holds own waiting unresolved with ⟨timely,next,served,marked,jobs⟩ | ⟨late,served⟩
          · simp only [served]
            cases receives : machine.receives with
            | false =>
              simp only [Bool.false_eq_true,if_false]
              exact ⟨⟨_,marked,unresolved⟩,jobs,.stopped (fun early => by cases receives.symm.trans early.1.receives) one⟩
            | true =>
              simp only [if_true,fetch_reply stamps (bootstrapOf row) inRange,Option.map_some]
              have run : runPipeline (machine.env workspace outDir (runtimeMeta stamps
                  ⟨(bootstrapOf row).runMeta.sha,(bootstrapOf row).runMeta.refName,fromMillisecond (bootstrapOf row).runMeta.pushedAt⟩))
                  machine.registry machine.world = piped stamps machine workspace outDir row := rfl
              rw [run]
              rcases ended : piped stamps machine workspace outDir row with ⟨_ | _,events⟩
              · refine ⟨⟨_,marked,unresolved⟩,jobs,.ran ⟨file,logs,setup,sends,receives⟩ timely ?_ ?_⟩ <;> simp [ended,inFile]
              · refine ⟨⟨_,marked,unresolved⟩,jobs,.ran ⟨file,logs,setup,sends,receives⟩ timely ?_ ?_⟩ <;> simp [ended,inFile]
          · simp only [served]
            exact ⟨⟨row,found,unresolved⟩,trivial,.stopped (fun early => late early.2) one⟩

end Main

-- No answer that quire-ci gives takes anything back.
theorem serve_forward (stamps : Stamps) (token : String) (now : Int) (db : Db) :
    Evolves Forward db.runs (serveBootstrap stamps token now db).1.runs := by
  unfold serveBootstrap
  split
  · exact .refl Forward.refl db.runs
  · rename_i runId _
    have forward : Evolves Forward db.runs (getBootstrap runId now db.runs).1 := by
      unfold getBootstrap
      split
      · exact .refl Forward.refl db.runs
      · split
        · rename_i accepted
          exact exec_forward accepted
        · exact .refl Forward.refl db.runs
    split <;> rename_i called <;> exact (congrArg (fun answered => answered.1.runs) called) ▸ forward

theorem main_forward (stamps : Stamps) (machine : Machine World Vm) (now : Int) (cmd : Command) (db : Db) :
    Evolves Forward db.runs (main stamps machine now cmd db).db.runs := by
  have asks : ∀ cli, Evolves Forward db.runs (askBootstrap stamps machine cli now db).1.runs := by
    intro cli
    have serves := serve_forward stamps cli.runToken now db
    unfold askBootstrap
    split
    · split <;> rename_i served <;> rw [served] at serves <;> exact serves
    · exact .refl Forward.refl db.runs
  have fetches : ∀ cli : Cli, Evolves Forward db.runs
      (if cli.isLocal then (db,localMeta machine cli) else askBootstrap stamps machine cli now db).1.runs := by
    intro cli
    split
    · exact .refl Forward.refl db.runs
    · exact asks cli
  unfold main
  split
  · exact .refl Forward.refl db.runs
  · rename_i cli _
    have fetched := fetches cli
    dsimp only
    split
    · exact .refl Forward.refl db.runs
    · split
      · exact .refl Forward.refl db.runs
      · split
        · exact .refl Forward.refl db.runs
        · split <;> rename_i answered <;> rw [answered] at fetched
          · exact fetched
          · split <;> exact fetched

section Settling

-- What the server makes of a child that has exited.
def outcomeOf (status : Option Int) (ingested : Except IngestError (Option RunOutcome)) : String :=
  if status = some 0 then recorded ingested else "failed-internal"

theorem settle_outcome (self : Run) (now : Int) (child : Child) : ∃ result, settle codec self now child =
    resolveWith self (outcomeOf child.status (ingestEvents codec self.id child.events child.db).1) now result
      (ingestEvents codec self.id child.events child.db).2 := by
  by_cases exited : child.status = some 0
  · rw [outcomeOf,if_pos exited]
    exact settle_exited codec self now exited
  · exact ⟨.error (.processFailed child.status),by simp [settle,outcomeOf,exited]⟩

theorem settle_tells {child : Child} (self : Run) (handle : self.resolved = false) (found : child.db.runs.row? self.id = some row)
    (unresolved : row.resolvedAt = none) (fine : ∀ error, (settle codec self now child).2 ≠ .error (.run (.sql error))) :
    ∃ after, (settle codec self now child).1.runs.row? self.id = some after ∧ after.resolvedAt ≠ none ∧
      after.outcome = some (outcomeOf child.status (ingestEvents codec self.id child.events child.db).1) := by
  obtain ⟨ended,stands,finished⟩ := settle_finishes handle found fine
  obtain ⟨result,settled⟩ := settle_outcome self now child
  rw [← ingestEvents_runs codec self.id child.events child.db] at found
  have allowed : outcomeOf child.status (ingestEvents codec self.id child.events child.db).1 ∈ outcomes := by
    unfold outcomeOf
    split
    · exact recorded_allowed _
    · decide
  obtain ⟨after,same,outcome⟩ := resolveWith_row self result handle found unresolved allowed
  rw [← settled,stands] at same
  cases same
  rcases outcome with ⟨_,said⟩ | ⟨_,silent⟩
  · exact ⟨ended,stands,finished.1,said⟩
  · exact absurd silent finished.2

variable {env : Env World Vm} {registry : Secret.SecretRegistry} {world : World} {db : Db}

theorem verdict_internal (outcome : RunOutcome) : verdict outcome ≠ "failed-internal" := by cases outcome <;> decide

-- What is recorded of the whole file of a run.
theorem stream_recorded (documented : DocumentedAt env world) (present : runId ∈ db.runs.keys)
    (fresh : ∀ job ∈ db.jobs.rows, job.runId ≠ runId) (typed : ∀ event ∈ (runPipeline env registry world).2, EventCodec.InRange event)
    (stream : RunStream) (shown : (runPipeline env registry world).2 = stream.events) (outcome : RunOutcome) :
    recorded (ingestEvents codec runId (.ok (codec.jsonl (runPipeline env registry world).2)) db).1 = verdict outcome ↔
      stream.outcome = outcome ∧ ∀ job ∈ stream.jobs, JobRun.Storable job := by
  have distinct : (RunStream.progress stream).ids.Nodup := ids_nodup (runPipeline_started registry documented) shown
  have parsed : codec.parse (codec.jsonl (runPipeline env registry world).2) = some (RunStream.progress stream).events := by
    rw [codec,(EventCodec.codec_legible (JsonTokens.tokens_lawful _) typed).parse,shown]
    rfl
  have storable : Progress.Storable (RunStream.progress stream) ↔ ∀ job ∈ stream.jobs, JobRun.Storable job :=
    ⟨fun whole => whole.done,fun done => ⟨done,fun job inside => nomatch inside⟩⟩
  obtain ⟨_,ingested⟩ := ingest_progress parsed present fresh distinct
  rw [← storable]
  generalize (ingestEvents codec runId (.ok (codec.jsonl (runPipeline env registry world).2)) db).1 = result at ingested
  cases ingested with
  | stored whole jobs sh =>
    refine Iff.trans ?_ (and_iff_left whole).symm
    constructor
    · cases same : stream.outcome <;> cases outcome <;> simp [recorded,verdict,Standing.verdict,RunStream.progress,same]
    · intro same
      rw [← same]
      rfl
  | refused error jobs sh unstorable =>
    exact iff_of_false (fun same => verdict_internal outcome same.symm) fun fine => unstorable fine.2

theorem recorded_tells (documented : DocumentedAt env world) (present : runId ∈ db.runs.keys)
    (fresh : ∀ job ∈ db.jobs.rows, job.runId ≠ runId) (typed : ∀ event ∈ (runPipeline env registry world).2, EventCodec.InRange event)
    (ended : (runPipeline env registry world).1 = .ok ()) (outcome : RunOutcome) :
    recorded (ingestEvents codec runId (.ok (codec.jsonl (runPipeline env registry world).2)) db).1 = verdict outcome ↔
      Ends (runPipeline env registry world) outcome := by
  obtain ⟨stream,shown⟩ := runPipeline_stream registry documented ended
  constructor
  · intro said
    obtain ⟨same,storable⟩ := (stream_recorded documented present fresh typed stream shown outcome).mp said
    exact ⟨ended,stream,shown,same,storable⟩
  · intro ends
    obtain ⟨_,other,shown,same,storable⟩ := ends
    exact (stream_recorded documented present fresh typed other shown outcome).mpr ⟨same,storable⟩

theorem recorded_known (ingested : Except IngestError (Option RunOutcome)) :
    (∃ outcome, recorded ingested = verdict outcome) ∨ recorded ingested = "failed-internal" := by
  rcases ingested with error | _ | outcome
  · exact .inr rfl
  · exact .inr rfl
  · exact .inl ⟨outcome,rfl⟩

-- The row after an exit that is clean exactly when the pipeline has ended well.
theorem exit_tells {status : Int} {row : RunRow} (documented : DocumentedAt env world) (present : runId ∈ db.runs.keys)
    (fresh : ∀ job ∈ db.jobs.rows, job.runId ≠ runId) (typed : ∀ event ∈ (runPipeline env registry world).2, EventCodec.InRange event)
    (clean : status = 0 ↔ (runPipeline env registry world).1 = .ok ())
    (said : row.outcome = some (outcomeOf (some status)
      (ingestEvents codec runId (.ok (codec.jsonl (runPipeline env registry world).2)) db).1)) :
    Tells (runPipeline env registry world) row := by
  by_cases exited : status = 0
  · rw [outcomeOf,if_pos (by rw [exited])] at said
    have tells := recorded_tells documented present fresh typed (clean.mp exited)
    refine ⟨fun outcome => ?_,?_⟩
    · rw [said,Option.some_inj,tells]
    · rw [said,Option.some_inj]
      constructor
      · intro internal outcome ends
        exact verdict_internal outcome (((tells outcome).mpr ends).symm.trans internal)
      · intro never
        rcases recorded_known (ingestEvents codec runId (.ok (codec.jsonl (runPipeline env registry world).2)) db).1 with
          ⟨outcome,known⟩ | internal
        · exact absurd ((tells outcome).mp known) (never outcome)
        · exact internal
  · have other : ¬ some status = some (0 : Int) := fun same => exited (Option.some.inj same)
    rw [outcomeOf,if_neg other] at said
    have never : ∀ outcome, ¬ Ends (runPipeline env registry world) outcome := fun outcome ends => exited (clean.mpr ends.1)
    refine ⟨fun outcome => ?_,by simp [said,never]⟩
    refine iff_of_false (fun same => ?_) (never outcome)
    rw [said,Option.some_inj] at same
    exact verdict_internal outcome same.symm

end Settling

section Delivery
variable {stamps : Stamps} {machine : Machine World Vm} {fetchNow : Int} {others : Db → Db} {ctx : RunContext} {pushedAt : Int}
  {pushRef : PushRef} {session : ApiSession} {traceparent sentryDsn : Option String} {answers : Answers} {db : Db} {text : String}

def runDir (ctx : RunContext) (id : String) : String := joinPath ctx.baseDir id

def eventsPath (ctx : RunContext) (id : String) : String := joinPath (runDir ctx id) "events.jsonl"

-- The server gets as far as starting this quire-ci, which reads its command
-- line as it is meant.
structure Dispatches (stamps : Stamps) (machine : Machine World Vm) (fetchNow : Int) (others : Db → Db) (ctx : RunContext)
    (pushRef : PushRef) (session : ApiSession) (traceparent sentryDsn : Option String) (answers : Answers) : Prop where
  runDirectory : answers.runDirectory = true
  workspace : Materializes answers ctx.repoPath pushRef.newSha (workspacePath ctx answers.id)
  log : answers.log = true
  quireCi : ∀ command, answers.quireCi command = .ok (child stamps machine fetchNow others (eventsPath ctx answers.id) command)
  figue : machine.figue (command ⟨answers.id,true,false⟩ (execution ctx session traceparent sentryDsn answers)) =
    .ok ⟨workspacePath ctx answers.id,session.serverUrl,session.runToken,sentryDsn,eventsPath ctx answers.id,
      some (runDir ctx answers.id),false,none⟩

-- The environment of the pipeline: the commit, the ref and the time of the push,
-- to the millisecond.
def pushEnv (stamps : Stamps) (machine : Machine World Vm) (ctx : RunContext) (pushedAt : Int) (pushRef : PushRef) (id : String) :
    Env World Vm :=
  machine.env (workspacePath ctx id) (runDir ctx id)
    ⟨pushRef.newSha,pushRef.refName,stamps.print (fromMillisecond (asMillisecond pushedAt))⟩

theorem events_named (dir : String) : joinPath dir "events.jsonl" ≠ "null" ∧ joinPath dir "events.jsonl" ≠ "stdout" := by
  have slash : '/' ∈ (joinPath dir "events.jsonl").toList := by simp [joinPath,String.toList_append]
  constructor
  · intro same
    rw [same] at slash
    exact absurd slash (by decide)
  · intro same
    rw [same] at slash
    exact absurd slash (by decide)

-- The run's own row is as `create` has left it when quire-ci starts, and no
-- other row has its token.
structure Waiting (id token : String) (row : RunRow) (db : Db) : Prop where
  row : db.runs.row? id = some row
  token : ∀ other ∈ db.runs.rows, other.runToken = some token → other.id = id
  jobs : ∀ job ∈ db.jobs.rows, job.runId ≠ id

theorem alone_waiting (alone : Alone runId token others) (waiting : Waiting runId token row db) : Waiting runId token row (others db) where
  row := (alone.row db).trans waiting.row
  token := fun other member holds => (alone.token db other member holds).elim (fun held => waiting.token other held holds) fun own => own
  jobs := fun job member own => waiting.jobs job (alone.jobs db job member own) own

theorem created_waiting (minted : ∀ row ∈ db.runs.rows, row.runToken ≠ some session.runToken)
    (made : Db.create (newRun ctx pushedAt pushRef session answers) answers.cancelNow answers.insertNow answers.runDirectory db =
      (created,answer)) (fine : ∀ error, answer ≠ .error (.sql error)) :
    Waiting answers.id session.runToken ((newRun ctx pushedAt pushRef session answers).row answers.insertNow) created := by
  have inserts : ∀ error, (Db.create (newRun ctx pushedAt pushRef session answers) answers.cancelNow answers.insertNow
      answers.runDirectory db).2 ≠ .error (.sql error) := by
    rw [made]
    exact fine
  obtain ⟨other,again,fresh,inserted⟩ := create_leaves inserts
  have same : (RunsCalls.create (newRun ctx pushedAt pushRef session answers) answers.cancelNow answers.insertNow
    answers.runDirectory db.runs).1 = created.runs := congrArg (fun answered => answered.1.runs) made
  have forward := same ▸ create_forward (newRun ctx pushedAt pushRef session answers) answers.cancelNow answers.insertNow
    answers.runDirectory db.runs
  have closes := same ▸ create_closes inserts
  have jobs : created.jobs = db.jobs := (congrArg (fun answered => answered.1.jobs) made).symm
  rw [made] at again
  cases again
  refine ⟨inserted,fun row member holds => ?_,fun job member own => ?_⟩
  · have key : row.id ∈ db.runs.keys ++ [answers.id] := closes.added ▸ List.mem_map_of_mem member
    rcases List.mem_append.mp key with old | new
    · obtain ⟨was,held,_,kept⟩ := row_was forward member old
      exact absurd (kept.runToken.symm.trans holds) (minted was held)
    · exact List.mem_singleton.mp new
  · rw [jobs] at member
    have parent : job.runId ∈ db.runs.keys := db.jobsRun job member
    rw [own] at parent
    exact row?_none_iff.mp fresh parent

theorem launch_jobs (self : Run) (run : Execution) (db : Db) : (launch self run db).1.jobs = db.jobs := by
  have marks : (markDispatched self run db).1.jobs = db.jobs := by
    unfold markDispatched
    split <;> rfl
  unfold launch
  split <;> rename_i marked <;> rw [marked] at marks
  · exact marks
  · split
    · exact marks
    · split
      · split <;> rename_i called <;> exact (congrArg (fun answered => answered.1.jobs) called).symm.trans marks
      · exact marks

-- The bootstrap data is stored for it.
theorem launched_waiting {run : Execution} (dispatched : run.session.isSome = true) (waiting : Waiting runId token row db)
    (launched : launch ⟨runId,false,false⟩ run db = (before,.ok handed)) :
    handed = ⟨runId,true,false⟩ ∧ Waiting runId token { row with traceparent := run.traceparent } before := by
  have fine : ∀ error, (launch ⟨runId,false,false⟩ run db).2 ≠ .error (.sql error) := fun error refused => by
    rw [launched] at refused
    cases refused
  rcases launch_session run dispatched db fine with ⟨_,missing⟩ | ⟨_,after,reached,stored⟩
  · cases missing.symm.trans launched
  · cases reached.symm.trans launched
    have jobs : before.jobs = db.jobs := (congrArg (fun answered => answered.1.jobs) launched).symm.trans (launch_jobs _ run db)
    refine ⟨rfl,stored_row stored waiting.row,fun other member holds => ?_,jobs ▸ waiting.jobs⟩
    obtain ⟨old,was,kept⟩ := exec_origin rfl stored (row?_of_mem member)
    have own : old.id = runId := waiting.token old (row?_mem was) (kept.runToken.symm.trans holds)
    exact kept.id.trans own

-- From the start of quire-ci to the resolution of its run.
theorem settle_dispatched (parsed : machine.figue cmd = .ok ⟨workspace,serverUrl,token,sentryDsn,path,some outDir,false,none⟩)
    (named : path ≠ "null" ∧ path ≠ "stdout") (ready : Waiting runId token row db) (holds : row.runToken = some token)
    (waiting : row.dispatchedAt = none) (unresolved : row.resolvedAt = none) (inRange : stamps.inRange (fromMillisecond row.pushedAtMs))
    (apart : Alone runId token others)
    (documented : DocumentedAt (machine.env workspace outDir ⟨row.sha,row.refName,stamps.print (fromMillisecond row.pushedAtMs)⟩)
      machine.world)
    (typed : ∀ event ∈ (piped stamps machine workspace outDir row).2, EventCodec.InRange event)
    (fine : ∀ error, (settle codec ⟨runId,true,false⟩ now (child stamps machine fetchNow others path cmd db)).2 ≠
      .error (.run (.sql error))) :
    ∃ final, (settle codec ⟨runId,true,false⟩ now (child stamps machine fetchNow others path cmd db)).1.runs.row? runId = some final ∧
      final.resolvedAt ≠ none ∧
      (Opens machine serverUrl path outDir ∧ row.createdAt ≤ fetchNow → Tells (piped stamps machine workspace outDir row) final) ∧
      (¬ (Opens machine serverUrl path outDir ∧ row.createdAt ≤ fetchNow) → final.outcome = some "failed-internal") := by
  obtain ⟨⟨after,stands,still⟩,jobs,ends⟩ := main_dispatched stamps machine fetchNow parsed named ready.row holds ready.token
    waiting unresolved inRange
  have found : (others (main stamps machine fetchNow cmd db).db).runs.row? runId = some after := (apart.row _).trans stands
  have fresh : ∀ job ∈ (others (main stamps machine fetchNow cmd db).db).jobs.rows, job.runId ≠ runId := by
    intro job member own
    have held := apart.jobs _ job member own
    rw [jobs] at held
    exact ready.jobs job held own
  obtain ⟨final,there,resolved,said⟩ := settle_tells ⟨runId,true,false⟩ rfl found still fine
  refine ⟨final,there,resolved,?_⟩
  cases ends with
  | ran opens timely written clean =>
    refine ⟨fun _ => ?_,fun early => absurd ⟨opens,timely⟩ early⟩
    have present : runId ∈ (others (main stamps machine fetchNow cmd db).db).runs.keys :=
      row?_key found ▸ List.mem_map_of_mem (row?_mem found)
    have told : final.outcome = some (outcomeOf (some (main stamps machine fetchNow cmd db).status) (ingestEvents codec runId
        (.ok (codec.jsonl (piped stamps machine workspace outDir row).2)) (others (main stamps machine fetchNow cmd db).db)).1) := by
      simpa only [child,written,if_true] using said
    exact exit_tells documented present fresh typed clean told
  | stopped early failed =>
    refine ⟨fun reached => absurd reached early,fun _ => ?_⟩
    have other : ¬ some (main stamps machine fetchNow cmd db).status = some (0 : Int) := fun same => failed (Option.some.inj same)
    rw [said]
    exact congrArg some (if_neg other)

-- When quire-ci gets its bootstrap, the row of the run tells how the pipeline of
-- the pushed commit has ended. When it does not, the run has failed.
theorem verdict_delivered (stamps : Stamps) (machine : Machine World Vm) (fetchNow : Int) (others : Db → Db) (ctx : RunContext)
    (pushedAt : Int) (pushRef : PushRef) (session : ApiSession) (traceparent sentryDsn : Option String) (answers : Answers) (db : Db)
    (read : source answers pushRef.newSha = .ok (some text))
    (starts : Dispatches stamps machine fetchNow others ctx pushRef session traceparent sentryDsn answers)
    (alone : Alone answers.id session.runToken answers.meanwhile) (apart : Alone answers.id session.runToken others)
    (minted : ∀ row ∈ db.runs.rows, row.runToken ≠ some session.runToken)
    (inRange : stamps.inRange (fromMillisecond (asMillisecond pushedAt)))
    (documented : DocumentedAt (pushEnv stamps machine ctx pushedAt pushRef answers.id) machine.world)
    (typed : ∀ event ∈ (runPipeline (pushEnv stamps machine ctx pushedAt pushRef answers.id) machine.registry machine.world).2,
      EventCodec.InRange event)
    (sql : ¬ SqlFails (runRefInner codec ctx pushedAt pushRef session traceparent sentryDsn answers db).2) :
    ∃ row, (runRefInner codec ctx pushedAt pushRef session traceparent sentryDsn answers db).1.runs.row? answers.id = some row ∧
      row.resolvedAt ≠ none ∧
      (Opens machine session.serverUrl (eventsPath ctx answers.id) (runDir ctx answers.id) ∧ answers.insertNow ≤ fetchNow →
        Tells (runPipeline (pushEnv stamps machine ctx pushedAt pushRef answers.id) machine.registry machine.world) row) ∧
      (¬ (Opens machine session.serverUrl (eventsPath ctx answers.id) (runDir ctx answers.id) ∧ answers.insertNow ≤ fetchNow) →
        row.outcome = some "failed-internal") := by
  have inserts : ∀ error, (Db.create (newRun ctx pushedAt pushRef session answers) answers.cancelNow answers.insertNow
      answers.runDirectory db).2 ≠ .error (.sql error) := by
    intro error refused
    apply sql
    rw [runRefInner_refused read (Prod.ext rfl refused)]
    trivial
  obtain ⟨created,made,_,_⟩ := create_leaves inserts
  have queued := alone_waiting alone (created_waiting minted made (by rw [made] at inserts; exact inserts))
  rw [if_pos starts.runDirectory] at made
  rcases executed : execute codec ⟨answers.id,false,false⟩ (execution ctx session traceparent sentryDsn answers)
    (answers.meanwhile created) with ⟨last,outcome⟩
  rw [runRefInner_executes read made (materializeWorkspace_ok_iff.mpr starts.workspace) executed] at sql ⊢
  have fine : ∀ error, outcome ≠ .error (.run (.sql error)) := by
    intro error refused
    rw [refused] at sql
    exact sql trivial
  rcases launch_session (execution ctx session traceparent sentryDsn answers) rfl (answers.meanwhile created)
    (launch_fine (by rw [executed]; exact fine)) with ⟨missing,_⟩ | ⟨_,before,launched,_⟩
  · cases missing.symm.trans starts.log
  · have ready := (launched_waiting rfl queued launched).2
    have spawned : (execution ctx session traceparent sentryDsn answers).spawn
          (command ⟨answers.id,true,false⟩ (execution ctx session traceparent sentryDsn answers)) before =
        .ok (child stamps machine fetchNow others (eventsPath ctx answers.id)
          (command ⟨answers.id,true,false⟩ (execution ctx session traceparent sentryDsn answers)) before) :=
      spawn_answers (starts.quireCi _) before
    rw [execute_settles codec launched spawned] at executed
    have settled := settle_dispatched starts.figue (events_named (runDir ctx answers.id)) ready rfl rfl rfl inRange apart documented typed
      (by rw [executed]; exact fine)
    rw [executed] at settled
    exact settled

end Delivery

-- The command line as the server writes it.
def plainFigue (command : Command) : Except Int Cli :=
  match command.args,command.env with
  | ["run","--workspace",workspace,"--out-dir",outDir,"--events",events],
    [("QUIRE__SERVER_URL",serverUrl),("QUIRE__RUN_TOKEN",runToken)] =>
    .ok ⟨workspace,serverUrl,runToken,none,events,some outDir,false,none⟩
  | _,_ => .error 1

def sampleMachine : Machine Unit Bool where
  figue := plainFigue
  createFile _ := .ok ()
  createDirAll _ := .ok ()
  tempDir := .ok "/tmp/quire"
  setup := .ok ()
  sends url := url = "http://localhost:3000/api/run/bootstrap"
  receives := true
  revParse _ := .error ""
  symbolicRef _ := .error ""
  now := ""
  host := RunProtocol.quietHost
  lua := RunProtocol.twoJobs true false
  petgraph := RunProtocol.chainPetgraph
  registry := Secret.SecretRegistry.new
  world := ()

def sampleChild (command : Command) (db : Db) : Child :=
  child PushWire.epoch sampleMachine 15 (fun db => db) (eventsPath sampleContext "run-2") command db

theorem sampleChild_forward (command : Command) (child : Db → Child) (ran : Except.ok (sampleChild command) = (.ok child : Except String _))
    (db : Db) : Evolves Forward db.runs (child db).db.runs := by
  cases ran
  exact main_forward PushWire.epoch sampleMachine 15 command db

def deliveredAnswers : Answers :=
  { sampleAnswers 0 with quireCi := fun command => .ok (sampleChild command), quireCiForward := sampleChild_forward }

def sampleEnv : Env Unit Bool := pushEnv PushWire.epoch sampleMachine sampleContext 0 samplePush "run-2"

theorem sampleEnv_documented : DocumentedAt sampleEnv () := by
  have shape : (compileAt sampleEnv ()).1.toOption.map (·.graph.shape) = some RunProtocol.chain := by decide +kernel
  intro pipeline started compiled
  rw [compiled] at shape
  have same : pipeline.graph.shape = RunProtocol.chain := Option.some.inj shape
  rw [same]
  exact RunProtocol.chain_documented

theorem verdict_delivered_succeeded : ∃ row, (runRefInner codec sampleContext 0 samplePush sampleSession none none deliveredAnswers
    EventFile.sampleDb).1.runs.row? "run-2" = some row ∧ row.outcome = some "succeeded" := by
  have alone : Alone "run-2" sampleSession.runToken fun db => db :=
    ⟨fun _ => rfl,fun _ _ member _ => member,fun _ _ member _ => .inl member⟩
  have starts : Dispatches PushWire.epoch sampleMachine 15 (fun db => db) sampleContext samplePush sampleSession none none
      deliveredAnswers := ⟨rfl,⟨rfl,rfl,rfl⟩,rfl,fun _ => rfl,rfl⟩
  have clean : (runRefInner codec sampleContext 0 samplePush sampleSession none none deliveredAnswers EventFile.sampleDb).2 = .ok () := by
    decide +kernel
  obtain ⟨row,found,_,told,_⟩ := verdict_delivered PushWire.epoch sampleMachine 15 (fun db => db) sampleContext 0 samplePush sampleSession
    none none deliveredAnswers EventFile.sampleDb rfl starts alone alone (by decide) rfl sampleEnv_documented (by decide +kernel)
    (by rw [clean]; exact fun fails => fails)
  have tells := told ⟨⟨rfl,rfl,rfl,by decide,rfl⟩,by decide⟩
  have ran : (runPipeline sampleEnv Secret.SecretRegistry.new ()).1.isOk = true := by decide +kernel
  have shown : (runPipeline sampleEnv Secret.SecretRegistry.new ()).2 = (EventFile.sampleStream false).events := by decide +kernel
  have ended : (runPipeline sampleEnv Secret.SecretRegistry.new ()).1 = .ok () := by
    cases answer : (runPipeline sampleEnv Secret.SecretRegistry.new ()).1 with
    | ok done => rfl
    | error message => rw [answer] at ran; cases ran
  have storable : ∀ job ∈ (EventFile.sampleStream false).jobs, JobRun.Storable job := by
    simp only [EventFile.sampleStream,List.forall_mem_cons]
    exact ⟨⟨by decide,by decide⟩,⟨by decide,by decide⟩,⟨by decide,by decide⟩,by simp⟩
  exact ⟨row,found,(tells.ended .succeeded).mpr ⟨ended,_,shown,rfl,storable⟩⟩

end Quire.RunDelivery
