import Quire.RunsTable

namespace Quire.JobsTable
open KeyedTable RunsTable

-- One row of `jobs`; its columns have been the same since 0001.
structure JobRow where
  runId : String
  jobId : String
  state : String
  exitCode : Option Int
  startedAtMs : Option Int
  finishedAtMs : Option Int
  deriving DecidableEq, Repr

def JobRow.key (row : JobRow) : String × String := (row.runId,row.jobId)

-- The CHECK clauses of 0009.
structure JobRow.Checks (row : JobRow) : Prop where
  known : row.state ∈ ["active","succeeded","failed"]
  ordered : ∀ started ∈ row.startedAtMs, ∀ finished ∈ row.finishedAtMs, started ≤ finished
  active : row.state = "active" → row.startedAtMs ≠ none ∧ row.finishedAtMs = none
  ended : row.state = "succeeded" ∨ row.state = "failed" → row.startedAtMs ≠ none ∧ row.finishedAtMs ≠ none

theorem JobRow.checks_iff {row : JobRow} : row.Checks ↔ row.state ∈ ["active","succeeded","failed"] ∧
    (∀ started ∈ row.startedAtMs, ∀ finished ∈ row.finishedAtMs, started ≤ finished) ∧
    (row.state = "active" → row.startedAtMs ≠ none ∧ row.finishedAtMs = none) ∧
    (row.state = "succeeded" ∨ row.state = "failed" → row.startedAtMs ≠ none ∧ row.finishedAtMs ≠ none) :=
  ⟨fun valid => ⟨valid.known,valid.ordered,valid.active,valid.ended⟩,
    fun ⟨known,ordered,active,ended⟩ => ⟨known,ordered,active,ended⟩⟩

instance : DecidablePred JobRow.Checks := fun _ => decidable_of_iff _ JobRow.checks_iff.symm

def jobsSchema : Schema JobRow (String × String) where
  key := JobRow.key
  check := JobRow.Checks
  decidableCheck := inferInstance

-- One row of `sh`, called `sh_events` until 0008. The table has no CHECK.
structure ShRow where
  runId : String
  jobId : String
  startedAtMs : Int
  finishedAtMs : Int
  exitCode : Int
  cmd : String
  deriving DecidableEq, Repr

def ShRow.job (row : ShRow) : String × String := (row.runId,row.jobId)

def shSchema : Schema ShRow (String × String × Int) where
  key row := (row.runId,row.jobId,row.startedAtMs)
  check _ := True
  decidableCheck := fun _ => inferInstance

-- The three tables with their foreign keys.
structure Database (runsSpec : Schema Run String) (jobsSpec : Schema JobRow (String × String)) where
  runs : Table runsSpec
  jobs : Table jobsSpec
  sh : Table shSchema
  jobsRun : ∀ row ∈ jobs.rows, row.runId ∈ runs.keys
  shJob : ∀ row ∈ sh.rows, row.job ∈ jobs.rows.map JobRow.key

end Quire.JobsTable
