import Quire.RunsTable

namespace Quire.RunsCalls
open KeyedTable RunsTable

-- The part of `ci::error::Error` that the calls below can return.
inductive RunsError where
  | sql (error : ConstraintError)
  | io
  | alreadyDispatched
  | alreadyResolved
  deriving DecidableEq, Repr

inductive ApiError where
  | notFound
  | unauthorized
  | gone
  | db (error : ConstraintError)
  deriving DecidableEq, Repr

-- A `Run` handle: the id of its row and the two flags it keeps in memory.
structure Run where
  id : String
  dispatched : Bool
  resolved : Bool
  deriving DecidableEq, Repr

-- The connection is in autocommit: a failing call keeps what its earlier
-- statements wrote, so the table is returned beside the result.
abbrev Outcome (ε α : Type) := RunsTable × Except ε α

def cancelActiveRuns (now : Int) : List String → RunsTable → Outcome ConstraintError Unit
  | [],db => (db,.ok ())
  | runId :: rest,db =>
    match (RunsStmt.cancelActive now runId).exec db with
    | .ok next => cancelActiveRuns now rest next
    | .error error => (db,.error error)

def cancelExisting (repo refName : String) (now : Int) (db : RunsTable) : Outcome ConstraintError Unit :=
  match cancelActiveRuns now (activeIds db repo refName) db with
  | (next,.error error) => (next,.error error)
  | (next,.ok ()) =>
    match (RunsStmt.cancelQueued now repo refName).exec next with
    | .ok last => (last,.ok ())
    | .error error => (next,.error error)

-- `run` carries the minted id and the session's token. The clock is read once
-- in `cancel_existing` and again for the INSERT. `directory` is the result of
-- `create_dir_all`.
def create (run : NewRun) (cancelNow insertNow : Int) (directory : Bool) (db : RunsTable) :
    Outcome RunsError Run :=
  match cancelExisting run.repo run.refName cancelNow db with
  | (next,.error error) => (next,.error (.sql error))
  | (next,.ok ()) =>
    match (RunsStmt.insertRun run insertNow).exec next with
    | .error error => (next,.error (.sql error))
    | .ok last => if directory then (last,.ok ⟨run.id,false,false⟩) else (last,.error .io)

def Run.dispatch (self : Run) (now : Int) (db : RunsTable) : Outcome RunsError Run :=
  if self.dispatched || self.resolved then (db,.error .alreadyDispatched)
  else match (RunsStmt.dispatch now self.id).exec db with
    | .ok next => (next,.ok { self with dispatched := true })
    | .error error => (db,.error (.sql error))

def Run.resolve (self : Run) (outcome : String) (now : Int) (db : RunsTable) : Outcome RunsError Run :=
  if self.resolved then (db,.error .alreadyResolved)
  else match (RunsStmt.resolve now outcome self.id).exec db with
    | .ok next => (next,.ok { self with dispatched := true, resolved := true })
    | .error error => (db,.error (.sql error))

def reconcileOrphans (now : Int) (db : RunsTable) : Outcome RunsError Unit :=
  match (RunsStmt.reconcileOrphans now).exec db with
  | .ok next => (next,.ok ())
  | .error error => (db,.error (.sql error))

def Run.storeBootstrapData (self : Run) (traceparent : Option String) (db : RunsTable) :
    Outcome RunsError Unit :=
  match (RunsStmt.storeBootstrapData traceparent self.id).exec db with
  | .ok next => (next,.ok ())
  | .error error => (db,.error (.sql error))

-- SELECT id FROM runs WHERE run_token = ?1. There is no index on the column, so
-- the first row in insertion order answers.
def verifyRunToken (db : RunsTable) (token : String) : Except ApiError String :=
  match db.rows.find? (fun row => row.runToken == some token) with
  | some row => .ok row.id
  | none => .error .unauthorized

theorem verifyRunToken_ok_iff {db : RunsTable} : verifyRunToken db token = .ok runId ↔
    ∃ row, db.rows.find? (fun row => row.runToken == some token) = some row ∧ row.id = runId := by
  unfold verifyRunToken
  cases db.rows.find? (fun row => row.runToken == some token) <;> simp

structure RunMeta where
  sha : String
  refName : String
  pushedAt : Int
  deriving DecidableEq, Repr

structure Bootstrap where
  runMeta : RunMeta
  repo : String
  runId : String
  traceparent : Option String
  deriving DecidableEq, Repr

def bootstrapOf (row : RunRow) : Bootstrap :=
  ⟨⟨row.sha,row.refName,row.pushedAtMs⟩,row.repo,row.id,row.traceparent⟩

-- The SELECT of `get_bootstrap` and the decision on the row it returned.
def selectBootstrap (db : RunsTable) (runId : String) : Except ApiError Bootstrap :=
  match db.row? runId with
  | none => .error .notFound
  | some row => if row.dispatchedAt.isSome then .error .gone else .ok (bootstrapOf row)

def getBootstrap (runId : String) (now : Int) (db : RunsTable) : Outcome ApiError Bootstrap :=
  match selectBootstrap db runId with
  | .error error => (db,.error error)
  | .ok bootstrap =>
    match (RunsStmt.bootstrapFetched now runId).exec db with
    | .ok next => (next,.ok bootstrap)
    | .error error => (db,.error (.db error))

end Quire.RunsCalls
