import Quire.KeyedTable

namespace Quire.RunsTable
open KeyedTable

-- One row of `runs` as migrations 0010 and 0011 leave the table.
structure RunRow where
  id : String
  repo : String
  refName : String
  sha : String
  pushedAtMs : Int
  createdAt : Int
  dispatchedAt : Option Int
  resolvedAt : Option Int
  outcome : Option String
  runToken : Option String
  traceparent : Option String
  deriving DecidableEq, Repr

def outcomes : List String :=
  ["succeeded","failed-pipeline","failed-orphaned","failed-internal","superseded"]

-- The CHECK clauses of 0010 in the order of the file. A comparison with NULL
-- passes a CHECK, so each one constrains only the columns that are set.
structure RunRow.Checks (row : RunRow) : Prop where
  dispatched : ∀ stamp ∈ row.dispatchedAt, row.createdAt ≤ stamp
  resolved : ∀ stamp ∈ row.resolvedAt, row.createdAt ≤ stamp
  ordered : ∀ resolvedAt ∈ row.resolvedAt, ∀ dispatchedAt ∈ row.dispatchedAt, dispatchedAt ≤ resolvedAt
  together : row.resolvedAt = none ↔ row.outcome = none
  allowed : ∀ outcome ∈ row.outcome, outcome ∈ outcomes

theorem RunRow.checks_iff {row : RunRow} : row.Checks ↔
    (∀ stamp ∈ row.dispatchedAt, row.createdAt ≤ stamp) ∧ (∀ stamp ∈ row.resolvedAt, row.createdAt ≤ stamp) ∧
    (∀ resolvedAt ∈ row.resolvedAt, ∀ dispatchedAt ∈ row.dispatchedAt, dispatchedAt ≤ resolvedAt) ∧
    (row.resolvedAt = none ↔ row.outcome = none) ∧ ∀ outcome ∈ row.outcome, outcome ∈ outcomes :=
  ⟨fun valid => ⟨valid.dispatched,valid.resolved,valid.ordered,valid.together,valid.allowed⟩,
    fun ⟨dispatched,resolved,ordered,together,allowed⟩ => ⟨dispatched,resolved,ordered,together,allowed⟩⟩

instance : DecidablePred RunRow.Checks := fun _ => decidable_of_iff _ RunRow.checks_iff.symm

def runsSchema : Schema RunRow String where
  key := RunRow.id
  check := RunRow.Checks
  decidableCheck := inferInstance

abbrev RunsTable := Table runsSchema

-- COALESCE(column, value)
def coalesce (column : Option α) (value : α) : Option α := some (column.getD value)

@[simp] theorem coalesce_none (value : α) : coalesce none value = some value := rfl
@[simp] theorem coalesce_some (held value : α) : coalesce (some held) value = some held := rfl
@[simp] theorem coalesce_ne_none (column : Option α) (value : α) : coalesce column value ≠ none := by
  simp [coalesce]

-- The values an INSERT of `Runs::create` binds besides its clock reading.
structure NewRun where
  id : String
  repo : String
  refName : String
  sha : String
  pushedAtMs : Int
  runToken : Option String
  deriving DecidableEq, Repr

def NewRun.row (run : NewRun) (createdAt : Int) : RunRow :=
  ⟨run.id,run.repo,run.refName,run.sha,run.pushedAtMs,createdAt,none,none,none,run.runToken,none⟩

-- Every statement that writes `runs`, named by what issues it. `now` is the
-- reading of `Timestamp::now()` bound into the statement.
inductive RunsStmt where
  | cancelActive (now : Int) (runId : String)
  | cancelQueued (now : Int) (repo refName : String)
  | insertRun (run : NewRun) (now : Int)
  | reconcileOrphans (now : Int)
  | storeBootstrapData (traceparent : Option String) (runId : String)
  | dispatch (now : Int) (runId : String)
  | resolve (now : Int) (outcome : String) (runId : String)
  | bootstrapFetched (now : Int) (runId : String)
  deriving DecidableEq, Repr

-- The WHERE clause. An INSERT touches no row that is there.
def RunsStmt.selects : RunsStmt → RunRow → Bool
  | .cancelActive _ runId,row => row.id == runId
  | .cancelQueued _ repo refName,row =>
      row.repo == repo && row.refName == refName && row.dispatchedAt.isNone && row.resolvedAt.isNone
  | .insertRun _ _,_ => false
  | .reconcileOrphans _,row => row.resolvedAt.isNone
  | .storeBootstrapData _ runId,row => row.id == runId
  | .dispatch _ runId,row => row.id == runId
  | .resolve _ _ runId,row => row.id == runId
  | .bootstrapFetched _ runId,row => row.id == runId

-- The SET clause of the three writers that stamp all lifecycle columns.
def RunRow.stamp (row : RunRow) (now : Int) (outcome : String) : RunRow :=
  { row with
    dispatchedAt := coalesce row.dispatchedAt now
    resolvedAt := coalesce row.resolvedAt now
    outcome := coalesce row.outcome outcome }

-- The SET clause. `bootstrapFetched`, alone among the writers of a timestamp,
-- does not go through COALESCE.
def RunsStmt.sets : RunsStmt → RunRow → RunRow
  | .cancelActive now _,row => row.stamp now "superseded"
  | .cancelQueued now _ _,row =>
      { row with
        resolvedAt := coalesce row.resolvedAt now
        outcome := coalesce row.outcome "superseded" }
  | .insertRun _ _,row => row
  | .reconcileOrphans now,row => row.stamp now "failed-orphaned"
  | .storeBootstrapData traceparent _,row => { row with traceparent := traceparent }
  | .dispatch now _,row => { row with dispatchedAt := coalesce row.dispatchedAt now }
  | .resolve now outcome _,row => row.stamp now outcome
  | .bootstrapFetched now _,row => { row with dispatchedAt := some now }

def RunsStmt.assignment (stmt : RunsStmt) : Assignment runsSchema where
  set := stmt.sets
  sameKey := by intro row; cases stmt <;> rfl

def RunsStmt.exec (table : RunsTable) : RunsStmt → Except ConstraintError RunsTable
  | .insertRun run now => table.insert (run.row now)
  | stmt => table.update stmt.selects stmt.assignment

-- The outcome a statement records on a row it resolves.
def RunsStmt.outcome? : RunsStmt → Option String
  | .cancelActive _ _ | .cancelQueued _ _ _ => some "superseded"
  | .reconcileOrphans _ => some "failed-orphaned"
  | .resolve _ outcome _ => some outcome
  | .insertRun _ _ | .storeBootstrapData _ _ | .dispatch _ _ | .bootstrapFetched _ _ => none

def RunsStmt.isInsert : RunsStmt → Bool
  | .insertRun _ _ => true
  | _ => false

theorem exec_update {stmt : RunsStmt} (update : stmt.isInsert = false) :
    stmt.exec table = table.update stmt.selects stmt.assignment := by
  cases stmt <;> first | rfl | cases update

theorem exec_keys {table next : RunsTable} {stmt : RunsStmt} (update : stmt.isInsert = false)
    (accepted : stmt.exec table = .ok next) : next.keys = table.keys := by
  rw [exec_update update] at accepted
  exact update_keys accepted

theorem accepts_iff {db : RunsTable} {stmt : RunsStmt} (update : stmt.isInsert = false) :
    (∃ next, stmt.exec db = .ok next) ↔ ∀ row ∈ db.rows, stmt.selects row = true → (stmt.sets row).Checks := by
  rw [exec_update update]
  exact update_ok_iff

-- A statement on the row of one id is refused exactly when that row is the one
-- its SET clause cannot stamp.
theorem accepts_row_iff {db : RunsTable} {fine : RunRow → Prop} (stmt : RunsStmt) (update : stmt.isInsert = false)
    (selects : ∀ row, stmt.selects row = true ↔ row.id = runId)
    (fits : ∀ row, db.row? runId = some row → ((stmt.sets row).Checks ↔ fine row)) :
    (∃ next, stmt.exec db = .ok next) ↔ ∀ row, db.row? runId = some row → fine row := by
  rw [accepts_iff update]
  constructor
  · intro valid row found
    exact (fits row found).mp (valid row (row?_mem found) ((selects row).mpr (row?_key found)))
  · intro fresh row member chosen
    have found : db.row? runId = some row := (selects row).mp chosen ▸ row?_of_mem member
    exact (fits row found).mpr (fresh row found)

-- SELECT id FROM runs WHERE repo AND ref_name AND active, in `cancel_existing`.
def activeIds (table : RunsTable) (repo refName : String) : List String :=
  (table.rows.filter fun row =>
    row.repo == repo && row.refName == refName && row.dispatchedAt.isSome && row.resolvedAt.isNone).map RunRow.id

theorem mem_activeIds {table : RunsTable} : runId ∈ activeIds table repo refName ↔
    ∃ row, table.row? runId = some row ∧ row.repo = repo ∧ row.refName = refName ∧
      row.dispatchedAt ≠ none ∧ row.resolvedAt = none := by
  simp only [activeIds,List.mem_map,List.mem_filter]
  constructor
  · intro listed
    obtain ⟨row,⟨member,chosen⟩,rfl⟩ := listed
    exact ⟨row,row?_of_mem member,by simpa [Option.isSome_iff_ne_none,and_assoc] using chosen⟩
  · intro active
    obtain ⟨row,found,chosen⟩ := active
    exact ⟨row,⟨row?_mem found,by simpa [Option.isSome_iff_ne_none,and_assoc] using chosen⟩,row?_key found⟩

-- What one accepted statement does to the row of a key.
theorem exec_update_row? {table next : RunsTable} {stmt : RunsStmt} (update : stmt.isInsert = false)
    (accepted : stmt.exec table = .ok next) :
    next.row? key = (table.row? key).map fun row => if stmt.selects row then stmt.sets row else row := by
  rw [exec_update update] at accepted
  exact update_row? accepted

theorem exec_insert_row? {table next : RunsTable}
    (accepted : (RunsStmt.insertRun run now).exec table = .ok next) :
    next.row? key = if key = run.id then some (run.row now) else table.row? key :=
  insert_row? accepted

end Quire.RunsTable
