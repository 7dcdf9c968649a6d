import Quire.JobsTable
import Quire.LineFraming
import Quire.RunEvents
import Quire.RunsCalls

namespace Quire.Ingest
open KeyedTable RunsTable RunsCalls JobsTable LineFraming RunEvents

-- The database of the server, with the schemas of the last migration.
abbrev Db := Database runsSchema jobsSchema

def Db.insertJob (db : Db) (row : JobRow) : Except ConstraintError Db :=
  if parent : row.runId ∈ db.runs.keys then
    match inserted : db.jobs.insert row with
    | .error error => .error error
    | .ok jobs => .ok ⟨db.runs,jobs,db.sh,by
        intro other member
        rw [insert_rows inserted] at member
        rcases List.mem_append.mp member with old | new
        · exact db.jobsRun other old
        · rw [List.mem_singleton.mp new]; exact parent,by
        intro other member
        rw [insert_rows inserted,List.map_append]
        exact List.mem_append_left _ (db.shJob other member)⟩
  else .error .foreignKey

def Db.insertSh (db : Db) (row : ShRow) : Except ConstraintError Db :=
  if parent : row.job ∈ db.jobs.keys then
    match inserted : db.sh.insert row with
    | .error error => .error error
    | .ok sh => .ok ⟨db.runs,db.jobs,sh,db.jobsRun,by
        intro other member
        rw [insert_rows inserted] at member
        rcases List.mem_append.mp member with old | new
        · exact db.shJob other old
        · rw [List.mem_singleton.mp new]; exact parent⟩
  else .error .foreignKey

-- serde_json on the events of the stream.
structure Codec where
  encode : Event → List UInt8
  decode : List UInt8 → Option Event

def newline : UInt8 := 10

-- What `JsonlSink` has written once it has taken these events.
def Codec.jsonl (codec : Codec) (events : List Event) : List UInt8 := frame newline (events.map codec.encode)

def Codec.parse (codec : Codec) (bytes : List UInt8) : Option (List Event) := (linesOf newline bytes).mapM codec.decode

-- A HashMap that is only inserted into and removed from.
abbrev Inflight (α : Type) := String → Option α

def Inflight.insert (self : Inflight α) (key : String) (value : α) : Inflight α := Function.update self key (some value)
def Inflight.remove (self : Inflight α) (key : String) : Inflight α := Function.update self key none

def jobState : JobOutcome → String
  | .succeeded => "succeeded"
  | .failed => "failed"

-- Pass 1: jobs rows, and the outcome of the run. Each INSERT commits by itself.
def ingestJobs (runId : String) (inflight : Inflight Int) (runOutcome : Option RunOutcome) :
    List Event → Db → Except ConstraintError (Option RunOutcome) × Db
  | [],db => (.ok runOutcome,db)
  | ⟨atMs,.jobStarted jobId⟩ :: rest,db => ingestJobs runId (inflight.insert jobId atMs) runOutcome rest db
  | ⟨atMs,.jobFinished jobId outcome⟩ :: rest,db =>
    let startedAt := (inflight jobId).getD atMs
    match db.insertJob ⟨runId,jobId,jobState outcome,none,some startedAt,some atMs⟩ with
    | .error error => (.error error,db)
    | .ok next => ingestJobs runId (inflight.remove jobId) runOutcome rest next
  | ⟨_,.runFinished outcome⟩ :: rest,db => ingestJobs runId inflight (some outcome) rest db
  | ⟨_,.shStarted _ _⟩ :: rest,db | ⟨_,.shFinished _ _⟩ :: rest,db => ingestJobs runId inflight runOutcome rest db

-- Pass 2: sh rows.
def ingestSh (runId : String) (inflight : Inflight (Int × String)) : List Event → Db → Except ConstraintError Unit × Db
  | [],db => (.ok (),db)
  | ⟨atMs,.shStarted jobId cmd⟩ :: rest,db => ingestSh runId (inflight.insert jobId (atMs,cmd)) rest db
  | ⟨atMs,.shFinished jobId exitCode⟩ :: rest,db =>
    match inflight jobId with
    | none => ingestSh runId (inflight.remove jobId) rest db
    | some (startedAt,cmd) =>
      match db.insertSh ⟨runId,jobId,startedAt,atMs,exitCode,cmd⟩ with
      | .error error => (.error error,db)
      | .ok next => ingestSh runId (inflight.remove jobId) rest next
  | ⟨_,.jobStarted _⟩ :: rest,db | ⟨_,.jobFinished _ _⟩ :: rest,db | ⟨_,.runFinished _⟩ :: rest,db =>
    ingestSh runId inflight rest db

inductive ReadError where
  | notFound
  | other (error : String)
  deriving DecidableEq, Repr

inductive IngestError where
  | read (error : String)
  | eventStreamParse
  | sql (error : ConstraintError)
  deriving DecidableEq, Repr

def ingestEvents (codec : Codec) (runId : String) (file : Except ReadError (List UInt8)) (db : Db) :
    Except IngestError (Option RunOutcome) × Db :=
  match file with
  | .error .notFound => (.ok none,db)
  | .error (.other error) => (.error (.read error),db)
  | .ok bytes =>
    match codec.parse bytes with
    | none => (.error .eventStreamParse,db)
    | some events =>
      match ingestJobs runId (fun _ => none) none events db with
      | (.error error,db) => (.error (.sql error),db)
      | (.ok runOutcome,db) =>
        match ingestSh runId (fun _ => none) events db with
        | (.error error,db) => (.error (.sql error),db)
        | (.ok (),db) => (.ok runOutcome,db)

end Quire.Ingest
