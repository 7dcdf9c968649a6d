import Mathlib.Data.List.Forall2
import Quire.JobHistory

namespace Quire.RunUpgrade
open KeyedTable RunsTable JobsTable Migrations JobHistory

-- derive_run_state: what the run pages show.
def deriveRunState (outcome : Option String) (dispatchedAt : Option Int) : String :=
  match outcome with
  | some "succeeded" => "succeeded"
  | some "superseded" => "superseded"
  | some _ => "failed"
  | none => if dispatchedAt.isSome then "active" else "queued"

-- What a state of 0001 is called on those pages.
def shownState (state : String) : String :=
  if state = "pending" then "queued" else if state = "complete" then "succeeded" else state

-- The old row and the new one are the same run.
structure SameRun (old : Run0006) (new : RunRow) : Prop where
  id : new.id = old.id
  repo : new.repo = old.repo
  refName : new.refName = old.refName
  sha : new.sha = old.sha
  pushedAtMs : new.pushedAtMs = old.pushedAtMs
  createdAt : new.createdAt = old.queuedAtMs
  dispatchedAt : new.dispatchedAt = old.startedAtMs
  resolvedAt : new.resolvedAt = old.finishedAtMs
  runToken : new.runToken = old.runToken
  traceparent : new.traceparent = old.traceparent
  shown : deriveRunState new.outcome new.dispatchedAt = shownState old.state

-- The columns of 0007, 0009, 0010 and 0011 in turn.
def upgradeRow (row : Run0006) : RunRow := (select0010 (select0009 (select0007 row))).toRunRow

theorem outcome0010_shown_failed (failureKind : Option String) (dispatchedAt : Option Int) :
    deriveRunState (outcome0010 "failed" failureKind) dispatchedAt = "failed" := by
  simp only [outcome0010]
  repeat' split
  all_goals simp_all [deriveRunState]

-- The outcome column says what the state column said, as far as the CHECK of
-- 0009 ties the states without an outcome to the time of dispatch.
theorem select0010_shown (row : Run0007) (valid : row.Checks vocabulary0009) :
    deriveRunState (outcome0010 row.state row.failureKind) row.startedAtMs =
      if row.state = "canceled" then "superseded" else row.state := by
  obtain ⟨known,_,_,_,queued,active,_,_⟩ := valid
  simp only [vocabulary0009,List.mem_cons,List.not_mem_nil,or_false] at known queued active
  rcases known with state | state | state | state | state
  · rw [state,(queued state).1]; rfl
  · obtain ⟨start,dispatched⟩ := Option.ne_none_iff_exists'.mp (active state).1
    rw [state,dispatched]; rfl
  · rw [state]; rfl
  · rw [state]; exact outcome0010_shown_failed row.failureKind row.startedAtMs
  · rw [state]; rfl

theorem runState0009_shown (known : state ∈ ["pending","active","complete","failed","superseded"]) :
    (if runState0009 state = "canceled" then "superseded" else runState0009 state) = shownState state := by
  simp only [List.mem_cons,List.not_mem_nil,or_false] at known
  rcases known with rfl | rfl | rfl | rfl | rfl <;> rfl

theorem upgradeRow_same (row : Run0006) (valid : row.Checks) : SameRun row (upgradeRow row) where
  id := rfl
  repo := rfl
  refName := rfl
  sha := rfl
  pushedAtMs := rfl
  createdAt := rfl
  dispatchedAt := rfl
  resolvedAt := rfl
  runToken := rfl
  traceparent := rfl
  shown := (select0010_shown _ (select0009_checks (select0007 row) valid.1)).trans
    (runState0009_shown valid.1.known)

section rebuilds
variable {Run Target : Type} {spec : Schema Run String} {target : Schema Target String}
  {jobs newJobs : Schema JobRow (String × String)}

theorem rebuildRuns_rows {db : Database spec jobs} {next : Database target jobs}
    (rebuilt : rebuildRuns target select db = .ok next) : next.runs.rows = db.runs.rows.map select := by
  unfold rebuildRuns at rebuilt
  split at rebuilt
  · cases rebuilt
  · rename_i runsNew inserted
    cases rebuilt
    simpa [Table.empty] using insertAll_rows inserted

theorem rebuildJobs_runs {db : Database spec jobs} {next : Database spec newJobs}
    (rebuilt : rebuildJobs newJobs select db = .ok next) : next.runs = db.runs := by
  unfold rebuildJobs at rebuilt
  split at rebuilt
  · split at rebuilt
    · cases rebuilt
    · cases rebuilt; rfl
  · cases rebuilt

end rebuilds

theorem up0009_rows (migrated : up0009 db = .ok next) : next.runs.rows = db.runs.rows.map select0009 := by
  unfold up0009 at migrated
  split at migrated
  · rename_i renamed first
    rw [rebuildJobs_runs migrated]
    exact rebuildRuns_rows first
  · cases migrated

theorem toLatest9_rows (migrated : toLatest9 db = .ok after) :
    after.runs.rows = (db.runs.rows.map select0010).map Run0010.toRunRow := by
  cases step : up0010 db with
  | error error => rw [toLatest9,step] at migrated; cases migrated
  | ok next =>
    rw [toLatest9,step] at migrated
    cases migrated
    exact congrArg (List.map Run0010.toRunRow) (rebuildRuns_rows step)

theorem toLatest8_rows (migrated : toLatest8 db = .ok after) :
    after.runs.rows = ((db.runs.rows.map select0009).map select0010).map Run0010.toRunRow := by
  cases step : up0009 db with
  | error error => rw [toLatest8,step] at migrated; cases migrated
  | ok next =>
    rw [toLatest8,step] at migrated
    rw [toLatest9_rows migrated,up0009_rows step]

theorem toLatest6_rows (migrated : toLatest6 db = .ok after) :
    after.runs.rows = db.runs.rows.map upgradeRow := by
  cases step : up0007 db with
  | error error => rw [toLatest6,step] at migrated; cases migrated
  | ok next =>
    rw [toLatest6,step] at migrated
    have rows : next.runs.rows = db.runs.rows.map select0007 := rebuildRuns_rows step
    rw [toLatest8_rows migrated]
    simp only [up0008,rows,List.map_map]
    rfl

-- No row is refused on the way and none is lost, doubled or given to another
-- run.
theorem upgrade_keeps_runs (db : Database runs0006 jobs0001) : ∃ after, toLatest6 db = .ok after ∧
    after.runs.keys = db.runs.keys ∧ List.Forall₂ SameRun db.runs.rows after.runs.rows := by
  obtain ⟨after,migrated,_⟩ := toLatest6_empties db
  have rows := toLatest6_rows migrated
  refine ⟨after,migrated,?_,?_⟩
  · rw [Table.keys,rows,List.map_map]
    rfl
  · rw [rows,List.forall₂_map_right_iff,List.forall₂_same]
    exact fun row member => upgradeRow_same row (db.runs.checked row member)

end Quire.RunUpgrade
