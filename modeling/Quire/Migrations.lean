import Quire.JobsTable

namespace Quire.Migrations
open KeyedTable RunsTable JobsTable

-- The five states of a run, as 0001 and 0007 spell them and as 0009 does.
structure Vocabulary where
  pending : String
  active : String
  complete : String
  failed : String
  superseded : String

def vocabulary0001 : Vocabulary := ⟨"pending","active","complete","failed","superseded"⟩
def vocabulary0009 : Vocabulary := ⟨"queued","active","succeeded","failed","canceled"⟩

-- The CHECK clauses these three versions of `runs` share.
structure StateChecks (words : Vocabulary) (state : String) (queuedAtMs : Int)
    (startedAtMs finishedAtMs : Option Int) : Prop where
  known : state ∈ [words.pending,words.active,words.complete,words.failed,words.superseded]
  started : ∀ stamp ∈ startedAtMs, queuedAtMs ≤ stamp
  finished : ∀ stamp ∈ finishedAtMs, queuedAtMs ≤ stamp
  ordered : ∀ finish ∈ finishedAtMs, ∀ start ∈ startedAtMs, start ≤ finish
  pending : state = words.pending → startedAtMs = none ∧ finishedAtMs = none
  active : state = words.active → startedAtMs ≠ none ∧ finishedAtMs = none
  complete : state = words.complete → startedAtMs ≠ none ∧ finishedAtMs ≠ none
  ended : state = words.failed ∨ state = words.superseded → finishedAtMs ≠ none

theorem stateChecks_iff : StateChecks words state queuedAtMs startedAtMs finishedAtMs ↔
    state ∈ [words.pending,words.active,words.complete,words.failed,words.superseded] ∧
    (∀ stamp ∈ startedAtMs, queuedAtMs ≤ stamp) ∧ (∀ stamp ∈ finishedAtMs, queuedAtMs ≤ stamp) ∧
    (∀ finish ∈ finishedAtMs, ∀ start ∈ startedAtMs, start ≤ finish) ∧
    (state = words.pending → startedAtMs = none ∧ finishedAtMs = none) ∧
    (state = words.active → startedAtMs ≠ none ∧ finishedAtMs = none) ∧
    (state = words.complete → startedAtMs ≠ none ∧ finishedAtMs ≠ none) ∧
    (state = words.failed ∨ state = words.superseded → finishedAtMs ≠ none) :=
  ⟨fun valid => ⟨valid.known,valid.started,valid.finished,valid.ordered,valid.pending,valid.active,
      valid.complete,valid.ended⟩,
    fun ⟨known,started,finished,ordered,pending,active,complete,ended⟩ =>
      ⟨known,started,finished,ordered,pending,active,complete,ended⟩⟩

instance (words : Vocabulary) (state : String) (queuedAtMs : Int) (startedAtMs finishedAtMs : Option Int) :
    Decidable (StateChecks words state queuedAtMs startedAtMs finishedAtMs) :=
  decidable_of_iff _ stateChecks_iff.symm

-- `runs` in 0001.
structure Run0001 where
  id : String
  repo : String
  refName : String
  sha : String
  pushedAtMs : Int
  state : String
  failureKind : Option String
  queuedAtMs : Int
  startedAtMs : Option Int
  finishedAtMs : Option Int
  containerId : Option String
  imageTag : Option String
  buildStartedAtMs : Option Int
  buildFinishedAtMs : Option Int
  containerStartedAtMs : Option Int
  containerStoppedAtMs : Option Int
  workspacePath : String
  deriving DecidableEq, Repr

-- Only an active run may have a container.
def Run0001.Checks (row : Run0001) : Prop :=
  StateChecks vocabulary0001 row.state row.queuedAtMs row.startedAtMs row.finishedAtMs ∧
    (row.state ≠ "active" → row.containerId = none)

structure Run0003 extends Run0001 where
  authToken : Option String
  deriving DecidableEq, Repr

structure Run0004 extends Run0003 where
  gitDir : Option String
  sentryTraceId : Option String
  deriving DecidableEq, Repr

structure Run0005 extends Run0001 where
  runToken : Option String
  gitDir : Option String
  sentryTraceId : Option String
  deriving DecidableEq, Repr

structure Run0006 extends Run0005 where
  traceparent : Option String
  deriving DecidableEq, Repr

-- `runs` in 0007 and 0009, which differ in their vocabulary only.
structure Run0007 where
  id : String
  repo : String
  refName : String
  sha : String
  pushedAtMs : Int
  state : String
  failureKind : Option String
  queuedAtMs : Int
  startedAtMs : Option Int
  finishedAtMs : Option Int
  runToken : Option String
  gitDir : Option String
  traceparent : Option String
  deriving DecidableEq, Repr

structure Run0010 extends RunRow where
  gitDir : Option String
  deriving DecidableEq, Repr

def runs0001 : Schema Run0001 String where
  key := Run0001.id
  check := Run0001.Checks
  decidableCheck := fun _ => inferInstanceAs (Decidable (_ ∧ _))

def runs0003 : Schema Run0003 String where
  key row := row.id
  check row := row.toRun0001.Checks
  decidableCheck := fun row => runs0001.decidableCheck row.toRun0001

def runs0004 : Schema Run0004 String where
  key row := row.id
  check row := row.toRun0001.Checks
  decidableCheck := fun row => runs0001.decidableCheck row.toRun0001

def runs0005 : Schema Run0005 String where
  key row := row.id
  check row := row.toRun0001.Checks
  decidableCheck := fun row => runs0001.decidableCheck row.toRun0001

def runs0006 : Schema Run0006 String where
  key row := row.id
  check row := row.toRun0001.Checks
  decidableCheck := fun row => runs0001.decidableCheck row.toRun0001

def Run0007.Checks (words : Vocabulary) (row : Run0007) : Prop :=
  StateChecks words row.state row.queuedAtMs row.startedAtMs row.finishedAtMs

def runs0007 : Schema Run0007 String where
  key := Run0007.id
  check := Run0007.Checks vocabulary0001
  decidableCheck := fun _ => inferInstanceAs (Decidable (StateChecks _ _ _ _ _))

def runs0009 : Schema Run0007 String where
  key := Run0007.id
  check := Run0007.Checks vocabulary0009
  decidableCheck := fun _ => inferInstanceAs (Decidable (StateChecks _ _ _ _ _))

def runs0010 : Schema Run0010 String where
  key row := row.id
  check row := row.toRunRow.Checks
  decidableCheck := fun row => runsSchema.decidableCheck row.toRunRow

-- `jobs` in 0001.
structure JobRow.Checks0001 (row : JobRow) : Prop where
  known : row.state ∈ ["pending","active","complete","failed","skipped","aborted"]
  ordered : ∀ started ∈ row.startedAtMs, ∀ finished ∈ row.finishedAtMs, started ≤ finished
  pending : row.state = "pending" → row.startedAtMs = none ∧ row.finishedAtMs = none
  active : row.state = "active" → row.startedAtMs ≠ none ∧ row.finishedAtMs = none
  ended : row.state = "complete" ∨ row.state = "failed" → row.startedAtMs ≠ none ∧ row.finishedAtMs ≠ none
  skipped : row.state = "skipped" → row.startedAtMs = none ∧ row.finishedAtMs ≠ none
  aborted : row.state = "aborted" → row.finishedAtMs ≠ none

theorem jobChecks0001_iff {row : JobRow} : JobRow.Checks0001 row ↔
    row.state ∈ ["pending","active","complete","failed","skipped","aborted"] ∧
    (∀ started ∈ row.startedAtMs, ∀ finished ∈ row.finishedAtMs, started ≤ finished) ∧
    (row.state = "pending" → row.startedAtMs = none ∧ row.finishedAtMs = none) ∧
    (row.state = "active" → row.startedAtMs ≠ none ∧ row.finishedAtMs = none) ∧
    (row.state = "complete" ∨ row.state = "failed" → row.startedAtMs ≠ none ∧ row.finishedAtMs ≠ none) ∧
    (row.state = "skipped" → row.startedAtMs = none ∧ row.finishedAtMs ≠ none) ∧
    (row.state = "aborted" → row.finishedAtMs ≠ none) :=
  ⟨fun valid => ⟨valid.known,valid.ordered,valid.pending,valid.active,valid.ended,valid.skipped,valid.aborted⟩,
    fun ⟨known,ordered,pending,active,ended,skipped,aborted⟩ =>
      ⟨known,ordered,pending,active,ended,skipped,aborted⟩⟩

def jobs0001 : Schema JobRow (String × String) where
  key := JobRow.key
  check := JobRow.Checks0001
  decidableCheck := fun _ => decidable_of_iff _ jobChecks0001_iff.symm

section statements
variable {Run Target : Type} {spec : Schema Run String} {target : Schema Target String}
  {jobs newJobs : Schema JobRow (String × String)}

-- ALTER TABLE runs: columns come, go or change their name; no row is deleted.
def alterRuns (convert : Run → Target) (sameKey : ∀ row, target.key (convert row) = spec.key row)
    (checks : ∀ row, spec.check row → target.check (convert row)) (db : Database spec jobs) :
    Database target jobs where
  runs := db.runs.alter convert sameKey checks
  jobs := db.jobs
  sh := db.sh
  jobsRun := by
    intro row member
    have same : target.key ∘ convert = spec.key := funext sameKey
    simpa [Table.keys,Table.alter,same] using db.jobsRun row member
  shJob := db.shJob

-- DELETE FROM jobs with the cascade of the foreign key of `sh`.
def deleteJobs (doomed : JobRow → Bool) (db : Database spec jobs) : Database spec jobs where
  runs := db.runs
  jobs := db.jobs.retain fun row => !doomed row
  sh := db.sh.retain fun row => !((db.jobs.rows.filter doomed).map JobRow.key).contains row.job
  jobsRun := fun row member => db.jobsRun row (List.mem_filter.mp member).1
  shJob := by
    intro row member
    obtain ⟨present,spared⟩ := List.mem_filter.mp member
    obtain ⟨job,held,same⟩ := List.mem_map.mp (db.shJob row present)
    have safe : doomed job = false := by
      cases verdict : doomed job with
      | false => rfl
      | true =>
        have listed : row.job ∈ (db.jobs.rows.filter doomed).map JobRow.key :=
          same ▸ List.mem_map_of_mem (List.mem_filter.mpr ⟨held,verdict⟩)
        simp [listed] at spared
    exact same ▸ List.mem_map_of_mem (List.mem_filter.mpr ⟨held,by simp [safe]⟩)

-- CREATE TABLE runs_new; INSERT INTO runs_new SELECT ... FROM runs; DROP TABLE
-- runs; ALTER TABLE runs_new RENAME TO runs. Foreign keys are on, so the DROP
-- is a DELETE of every run first, and that cascades to `jobs` and on to `sh`.
def rebuildRuns (target : Schema Target String) (select : Run → Target) (db : Database spec jobs) :
    Except ConstraintError (Database target jobs) :=
  match (Table.empty : Table target).insertAll (db.runs.rows.map select) with
  | .error error => .error error
  | .ok runsNew =>
    let cascaded := deleteJobs (fun row => db.runs.keys.contains row.runId) db
    .ok {
      runs := runsNew
      jobs := cascaded.jobs
      sh := cascaded.sh
      jobsRun := by
        intro row member
        obtain ⟨present,spared⟩ := List.mem_filter.mp member
        have listed := db.jobsRun row present
        simp [listed] at spared
      shJob := cascaded.shJob }

-- The same four statements for `jobs`. `jobs_new` has a foreign key of its own,
-- and dropping `jobs` cascades to `sh`.
def rebuildJobs (target : Schema JobRow (String × String)) (select : JobRow → JobRow)
    (db : Database spec jobs) : Except ConstraintError (Database spec target) :=
  if parents : ∀ row ∈ db.jobs.rows.map select, row.runId ∈ db.runs.keys then
    match inserted : (Table.empty : Table target).insertAll (db.jobs.rows.map select) with
    | .error error => .error error
    | .ok jobsNew => .ok {
        runs := db.runs
        jobs := jobsNew
        sh := (deleteJobs (fun _ => true) db).sh
        jobsRun := by
          intro row member
          rw [insertAll_rows inserted] at member
          exact parents row (by simpa [Table.empty] using member)
        shJob := by
          intro row member
          obtain ⟨present,spared⟩ := List.mem_filter.mp member
          obtain ⟨job,held,same⟩ := List.mem_map.mp (db.shJob row present)
          have doomed : ((db.jobs.rows.filter fun _ => true).map JobRow.key).contains row.job = true := by
            simpa using ⟨job,held,same⟩
          rw [doomed] at spared
          cases spared }
  else .error .foreignKey

end statements

-- The scripts, each from the database of the version before it.
def add0003 (row : Run0001) : Run0003 := { row with authToken := none }

def up0003 (db : Database runs0001 jobs0001) : Database runs0003 jobs0001 :=
  alterRuns add0003 (fun _ => rfl) (fun _ valid => valid) db

def add0004 (row : Run0003) : Run0004 := { row with gitDir := none, sentryTraceId := none }

def up0004 (db : Database runs0003 jobs0001) : Database runs0004 jobs0001 :=
  alterRuns add0004 (fun _ => rfl) (fun _ valid => valid) db

def rename0005 (row : Run0004) : Run0005 :=
  { toRun0001 := row.toRun0001, runToken := row.authToken, gitDir := row.gitDir, sentryTraceId := row.sentryTraceId }

def up0005 (db : Database runs0004 jobs0001) : Database runs0005 jobs0001 :=
  alterRuns rename0005 (fun _ => rfl) (fun _ valid => valid) db

def add0006 (row : Run0005) : Run0006 := { row with traceparent := none }

def up0006 (db : Database runs0005 jobs0001) : Database runs0006 jobs0001 :=
  alterRuns add0006 (fun _ => rfl) (fun _ valid => valid) db

def select0007 (row : Run0006) : Run0007 where
  id := row.id
  repo := row.repo
  refName := row.refName
  sha := row.sha
  pushedAtMs := row.pushedAtMs
  state := row.state
  failureKind := row.failureKind
  queuedAtMs := row.queuedAtMs
  startedAtMs := row.startedAtMs
  finishedAtMs := row.finishedAtMs
  runToken := row.runToken
  gitDir := row.gitDir
  traceparent := row.traceparent

def up0007 (db : Database runs0006 jobs0001) : Except ConstraintError (Database runs0007 jobs0001) :=
  rebuildRuns runs0007 select0007 db

-- 0008 renames `sh_events` to `sh`.
def up0008 (db : Database runs0007 jobs0001) : Database runs0007 jobs0001 := db

def runState0009 (state : String) : String :=
  if state = "pending" then "queued"
  else if state = "complete" then "succeeded"
  else if state = "superseded" then "canceled"
  else state

def jobState0009 (state : String) : String := if state = "complete" then "succeeded" else state

def select0009 (row : Run0007) : Run0007 := { row with state := runState0009 row.state }

def selectJob0009 (row : JobRow) : JobRow := { row with state := jobState0009 row.state }

def up0009 (db : Database runs0007 jobs0001) : Except ConstraintError (Database runs0009 jobsSchema) :=
  match rebuildRuns runs0009 select0009 db with
  | .ok renamed => rebuildJobs jobsSchema selectJob0009 renamed
  | .error error => .error error

def outcome0010 (state : String) (failureKind : Option String) : Option String :=
  if state = "queued" ∨ state = "active" then none
  else if state = "succeeded" then some "succeeded"
  else if state = "failed" then
    if failureKind = some "orphaned" then some "failed-orphaned"
    else if failureKind = some "process-crashed" then some "failed-internal"
    else some "failed-pipeline"
  else if state = "canceled" then some "superseded"
  else none

def select0010 (row : Run0007) : Run0010 where
  id := row.id
  repo := row.repo
  refName := row.refName
  sha := row.sha
  pushedAtMs := row.pushedAtMs
  createdAt := row.queuedAtMs
  dispatchedAt := row.startedAtMs
  resolvedAt := row.finishedAtMs
  outcome := outcome0010 row.state row.failureKind
  runToken := row.runToken
  gitDir := row.gitDir
  traceparent := row.traceparent

def up0010 (db : Database runs0009 jobsSchema) : Except ConstraintError (Database runs0010 jobsSchema) :=
  rebuildRuns runs0010 select0010 db

def up0011 (db : Database runs0010 jobsSchema) : Database runsSchema jobsSchema :=
  alterRuns Run0010.toRunRow (fun _ => rfl) (fun _ valid => valid) db

-- A database file by the version its `user_version` names.
inductive Versioned where
  | v2 (db : Database runs0001 jobs0001)
  | v3 (db : Database runs0003 jobs0001)
  | v4 (db : Database runs0004 jobs0001)
  | v5 (db : Database runs0005 jobs0001)
  | v6 (db : Database runs0006 jobs0001)
  | v7 (db : Database runs0007 jobs0001)
  | v8 (db : Database runs0007 jobs0001)
  | v9 (db : Database runs0009 jobsSchema)

def Versioned.jobs : Versioned → List JobRow
  | .v2 db => db.jobs.rows
  | .v3 db => db.jobs.rows
  | .v4 db => db.jobs.rows
  | .v5 db => db.jobs.rows
  | .v6 db => db.jobs.rows
  | .v7 db => db.jobs.rows
  | .v8 db => db.jobs.rows
  | .v9 db => db.jobs.rows

def Versioned.sh : Versioned → List ShRow
  | .v2 db => db.sh.rows
  | .v3 db => db.sh.rows
  | .v4 db => db.sh.rows
  | .v5 db => db.sh.rows
  | .v6 db => db.sh.rows
  | .v7 db => db.sh.rows
  | .v8 db => db.sh.rows
  | .v9 db => db.sh.rows

-- MIGRATIONS.to_latest: the scripts after the version, in one transaction, so
-- an error leaves nothing behind.
def toLatest9 (db : Database runs0009 jobsSchema) : Except ConstraintError (Database runsSchema jobsSchema) :=
  (up0010 db).map up0011

def toLatest8 (db : Database runs0007 jobs0001) : Except ConstraintError (Database runsSchema jobsSchema) :=
  (up0009 db).bind toLatest9

def toLatest7 (db : Database runs0007 jobs0001) := toLatest8 (up0008 db)

def toLatest6 (db : Database runs0006 jobs0001) : Except ConstraintError (Database runsSchema jobsSchema) :=
  (up0007 db).bind toLatest7

def migrate : Versioned → Except ConstraintError (Database runsSchema jobsSchema)
  | .v2 db => toLatest6 (up0006 (up0005 (up0004 (up0003 db))))
  | .v3 db => toLatest6 (up0006 (up0005 (up0004 db)))
  | .v4 db => toLatest6 (up0006 (up0005 db))
  | .v5 db => toLatest6 (up0006 db)
  | .v6 db => toLatest6 db
  | .v7 db => toLatest7 db
  | .v8 db => toLatest8 db
  | .v9 db => toLatest9 db

end Quire.Migrations
