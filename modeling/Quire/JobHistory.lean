import Quire.Migrations

namespace Quire.JobHistory
open KeyedTable RunsTable JobsTable Migrations

section rebuilds
variable {Run Target : Type} {spec : Schema Run String} {jobs : Schema JobRow (String × String)}

-- Every job row has a run, so dropping `runs` deletes them all, and with them
-- every row of `sh`.
theorem delete_every_run (db : Database spec jobs) :
    (deleteJobs (fun row => db.runs.keys.contains row.runId) db).jobs.rows = [] := by
  apply List.filter_eq_nil_iff.mpr
  intro row member
  simpa using db.jobsRun row member

theorem no_orphaned_sh (db : Database spec jobs) (empty : db.jobs.rows = []) : db.sh.rows = [] := by
  apply List.eq_nil_iff_forall_not_mem.mpr
  intro row member
  simpa [empty] using db.shJob row member

theorem rebuildRuns_ok (target : Schema Target String) (select : Run → Target) (db : Database spec jobs)
    (sameKey : ∀ row, target.key (select row) = spec.key row)
    (checks : ∀ row, spec.check row → target.check (select row)) :
    ∃ next, rebuildRuns target select db = .ok next ∧ next.jobs.rows = [] := by
  have keys : (db.runs.rows.map select).map target.key = db.runs.rows.map spec.key := by
    rw [List.map_map]
    exact List.map_congr_left fun row _ => sameKey row
  have distinct : (((Table.empty : Table target).rows ++ db.runs.rows.map select).map target.key).Nodup := by
    rw [Table.empty,List.nil_append,keys]
    exact db.runs.keyed
  have valid : ∀ row ∈ db.runs.rows.map select, target.check row := by
    intro row member
    obtain ⟨old,present,rfl⟩ := List.mem_map.mp member
    exact checks old (db.runs.checked old present)
  obtain ⟨runsNew,inserted⟩ := insertAll_ok distinct valid
  unfold rebuildRuns
  rw [inserted]
  exact ⟨_,rfl,delete_every_run db⟩

theorem rebuildJobs_ok (newJobs : Schema JobRow (String × String)) (select : JobRow → JobRow)
    (db : Database spec jobs) (empty : db.jobs.rows = []) :
    ∃ next, rebuildJobs newJobs select db = .ok next ∧ next.jobs.rows = [] := by
  have nothing : (Table.empty : Table newJobs).insertAll (db.jobs.rows.map select) = .ok Table.empty := by
    rw [empty]
    rfl
  unfold rebuildJobs
  rw [dif_pos (by simp [empty])]
  split
  · rename_i error refused
    rw [nothing] at refused
    cases refused
  · rename_i jobsNew inserted
    rw [nothing] at inserted
    cases inserted
    exact ⟨_,rfl,rfl⟩

end rebuilds

-- Every word of the old vocabulary becomes the new one in its place.
theorem runState0009_words (known : state ∈ ["pending","active","complete","failed","superseded"]) :
    runState0009 state ∈ ["queued","active","succeeded","failed","canceled"] ∧
      (runState0009 state = "queued" ↔ state = "pending") ∧ (runState0009 state = "active" ↔ state = "active") ∧
      (runState0009 state = "succeeded" ↔ state = "complete") ∧ (runState0009 state = "failed" ↔ state = "failed") ∧
      (runState0009 state = "canceled" ↔ state = "superseded") := by
  simp only [List.mem_cons,List.not_mem_nil,or_false] at known
  rcases known with rfl | rfl | rfl | rfl | rfl
  all_goals decide

theorem select0009_checks (row : Run0007) (valid : row.Checks vocabulary0001) :
    (select0009 row).Checks vocabulary0009 := by
  obtain ⟨known,queued,running,succeeded,failed,canceled⟩ := runState0009_words valid.known
  refine ⟨known,valid.started,valid.finished,valid.ordered,?_,?_,?_,?_⟩
  · intro now
    exact valid.pending (queued.mp now)
  · intro now
    exact valid.active (running.mp now)
  · intro now
    exact valid.complete (succeeded.mp now)
  · intro now
    exact valid.ended (now.imp failed.mp canceled.mp)

theorem outcome0010_allowed (recorded : outcome ∈ outcome0010 state failureKind) : outcome ∈ outcomes := by
  unfold outcome0010 at recorded
  repeat' split at recorded
  all_goals cases recorded
  all_goals decide

theorem outcome0010_failed (failureKind : Option String) : outcome0010 "failed" failureKind ≠ none := by
  simp only [outcome0010]
  repeat' split
  all_goals simp_all

theorem select0010_checks (row : Run0007) (valid : row.Checks vocabulary0009) :
    (select0010 row).toRunRow.Checks := by
  obtain ⟨known,started,finished,ordered,pending,active,complete,ended⟩ := valid
  simp only [vocabulary0009,List.mem_cons,List.not_mem_nil,or_false] at known pending active complete ended
  refine ⟨started,finished,ordered,?_,fun outcome recorded => outcome0010_allowed recorded⟩
  show row.finishedAtMs = none ↔ outcome0010 row.state row.failureKind = none
  rcases known with state | state | state | state | state
  · exact iff_of_true (pending state).2 (by rw [state]; rfl)
  · exact iff_of_true (active state).2 (by rw [state]; rfl)
  · exact iff_of_false (complete state).2 (by rw [state]; simp [outcome0010])
  · exact iff_of_false (ended (.inl state)) (by rw [state]; exact outcome0010_failed row.failureKind)
  · exact iff_of_false (ended (.inr state)) (by rw [state]; simp [outcome0010])

-- The last script that rebuilds `runs` is pending at every version, so every
-- upgrade succeeds and empties both tables.
theorem toLatest9_empties (db : Database runs0009 jobsSchema) :
    ∃ after, toLatest9 db = .ok after ∧ after.jobs.rows = [] := by
  obtain ⟨next,rebuilt,empty⟩ := rebuildRuns_ok runs0010 select0010 db (fun _ => rfl) select0010_checks
  have step : up0010 db = .ok next := rebuilt
  exact ⟨up0011 next,by rw [toLatest9,step]; rfl,empty⟩

theorem toLatest8_empties (db : Database runs0007 jobs0001) :
    ∃ after, toLatest8 db = .ok after ∧ after.jobs.rows = [] := by
  obtain ⟨renamed,first,empty⟩ := rebuildRuns_ok runs0009 select0009 db (fun _ => rfl) select0009_checks
  obtain ⟨next,second,_⟩ := rebuildJobs_ok jobsSchema selectJob0009 renamed empty
  have step : up0009 db = .ok next := by rw [up0009,first]; exact second
  obtain ⟨after,rest,final⟩ := toLatest9_empties next
  exact ⟨after,by rw [toLatest8,step]; exact rest,final⟩

theorem toLatest6_empties (db : Database runs0006 jobs0001) :
    ∃ after, toLatest6 db = .ok after ∧ after.jobs.rows = [] := by
  obtain ⟨next,rebuilt,_⟩ := rebuildRuns_ok runs0007 select0007 db (fun _ => rfl) fun _ valid => valid.1
  have step : up0007 db = .ok next := rebuilt
  obtain ⟨after,rest,final⟩ := toLatest8_empties next
  exact ⟨after,by rw [toLatest6,step]; exact rest,final⟩

theorem migrate_empties (before : Versioned) : ∃ after, migrate before = .ok after ∧ after.jobs.rows = [] := by
  cases before with
  | v2 db => exact toLatest6_empties _
  | v3 db => exact toLatest6_empties _
  | v4 db => exact toLatest6_empties _
  | v5 db => exact toLatest6_empties _
  | v6 db => exact toLatest6_empties db
  | v7 db => exact toLatest8_empties db
  | v8 db => exact toLatest8_empties db
  | v9 db => exact toLatest9_empties db

theorem versioned_sh (before : Versioned) (empty : before.jobs = []) : before.sh = [] := by
  cases before <;> exact no_orphaned_sh _ empty

-- Every job and every command is still there, 'complete' spelled 'succeeded'.
def KeepsJobHistory (before : Versioned) (after : Database runsSchema jobsSchema) : Prop :=
  (∀ row ∈ before.jobs, selectJob0009 row ∈ after.jobs.rows) ∧ ∀ row ∈ before.sh, row ∈ after.sh.rows

theorem migrate_keeps_jobs_iff (before : Versioned) :
    ∃ after, migrate before = .ok after ∧ (KeepsJobHistory before after ↔ before.jobs = []) := by
  obtain ⟨after,migrated,empty⟩ := migrate_empties before
  refine ⟨after,migrated,?_,?_⟩
  · intro kept
    obtain ⟨jobs,_⟩ := kept
    apply List.eq_nil_iff_forall_not_mem.mpr
    intro row member
    simpa [empty] using jobs row member
  · intro none
    simp [KeepsJobHistory,none,versioned_sh before none]

-- One finished run with one job and one command, at the version before 0010.
def finished : Database runs0009 jobsSchema where
  runs := ⟨[⟨"run-1","test.git","refs/heads/main","abc123",1,"succeeded",none,2,some 3,some 9,none,none,none⟩],
    by decide,by decide⟩
  jobs := ⟨[⟨"run-1","build","succeeded",none,some 4,some 8⟩],by decide,by decide⟩
  sh := ⟨[⟨"run-1","build",5,6,0,"make"⟩],by decide,by decide⟩
  jobsRun := by decide
  shJob := by decide

theorem upgrade_drops_jobs : ¬ ∀ (before : Versioned) after, migrate before = .ok after →
    KeepsJobHistory before after := by
  intro claim
  obtain ⟨after,migrated,empty⟩ := migrate_empties (.v9 finished)
  have kept := (claim (.v9 finished) after migrated).1 ⟨"run-1","build","succeeded",none,some 4,some 8⟩ (.head _)
  rw [empty] at kept
  cases kept

end Quire.JobHistory
