import Quire.Autocommit
import Quire.Ingest
import Quire.RunProgress

namespace Quire.IngestRows
open KeyedTable RunsTable JobsTable Autocommit RunEvents RunProgress Ingest

-- The rows the events of a run stand for.
def JobRun.row (runId : String) (run : JobRun) : JobRow :=
  ⟨runId,run.id,jobState run.outcome,none,some run.startedAt,some run.finishedAt⟩

def ShCall.row (runId jobId : String) (call : ShCall) : Option ShRow :=
  call.finished.map fun (finishedAt,exitCode) => ⟨runId,jobId,call.startedAt,finishedAt,exitCode,call.cmd⟩

def callRows (runId jobId : String) (calls : List ShCall) : List ShRow := calls.filterMap (ShCall.row runId jobId)

def Standing.shRows (runId : String) : Standing → List ShRow
  | .inside job => callRows runId job.id job.calls
  | _ => []

def Progress.jobRows (runId : String) (progress : Progress) : List JobRow := progress.done.map (JobRun.row runId)

def Progress.shRows (runId : String) (progress : Progress) : List ShRow :=
  progress.done.flatMap (fun run => callRows runId run.id run.calls) ++ Standing.shRows runId progress.standing

def Standing.verdict : Standing → Option RunOutcome
  | .ended _ outcome => some outcome
  | _ => none

theorem insertJob_ok {db next : Db} (inserted : Db.insertJob db row = .ok next) :
    next.runs = db.runs ∧ next.sh = db.sh ∧ next.jobs.rows = db.jobs.rows ++ [row] := by
  unfold Db.insertJob at inserted
  split at inserted
  · split at inserted
    · cases inserted
    · rename_i jobs grown
      cases inserted
      exact ⟨rfl,rfl,insert_rows grown⟩
  · cases inserted

theorem insertSh_ok {db next : Db} (inserted : Db.insertSh db row = .ok next) :
    next.runs = db.runs ∧ next.jobs = db.jobs ∧ next.sh.rows = db.sh.rows ++ [row] := by
  unfold Db.insertSh at inserted
  split at inserted
  · split at inserted
    · cases inserted
    · rename_i sh grown
      cases inserted
      exact ⟨rfl,rfl,insert_rows grown⟩
  · cases inserted

theorem insertJob_appends : Appends Db.insertJob (fun db => db.jobs.rows) JobRow.key
    fun db row => row.runId ∈ db.runs.keys ∧ row.Checks where
  appended := fun inserted => (insertJob_ok inserted).2.2
  framed := fun inserted other => by rw [(insertJob_ok inserted).1]
  accepted := by
    intro db row
    have table : (∃ jobs, db.jobs.insert row = .ok jobs) ↔ row.key ∉ db.jobs.rows.map JobRow.key ∧ row.Checks := insert_ok_iff
    unfold Db.insertJob
    split
    · rename_i parent
      split
      · rename_i error refused
        simp only [refused] at table
        simpa [parent] using table
      · rename_i jobs grown
        obtain ⟨fresh,valid⟩ := table.mp ⟨jobs,grown⟩
        exact iff_of_true ⟨_,rfl⟩ ⟨fresh,parent,valid⟩
    · rename_i orphan
      simp [orphan]

theorem insertSh_appends : Appends Db.insertSh (fun db => db.sh.rows) shSchema.key
    fun db row => row.job ∈ db.jobs.keys where
  appended := fun inserted => (insertSh_ok inserted).2.2
  framed := fun inserted other => by rw [(insertSh_ok inserted).2.1]
  accepted := by
    intro db row
    have table : (∃ sh, db.sh.insert row = .ok sh) ↔ shSchema.key row ∉ db.sh.rows.map shSchema.key ∧ True := insert_ok_iff
    unfold Db.insertSh
    split
    · rename_i parent
      split
      · rename_i error refused
        simp only [refused] at table
        simpa [parent] using table
      · rename_i sh grown
        exact iff_of_true ⟨_,rfl⟩ ⟨(table.mp ⟨sh,grown⟩).1,parent⟩
    · rename_i orphan
      simp [orphan]

-- What the passes do with events, whatever their maps hold: they insert rows,
-- in order, up to the first that is refused.
def Records (runId : String) (events : List Event) (rows : List JobRow) (verdict : Option RunOutcome) : Prop :=
  ∀ inflight db, ingestJobs runId inflight none events db =
    ((applyAll Db.insertJob rows db).1.map fun _ => verdict,(applyAll Db.insertJob rows db).2)

def Writes (runId : String) (events : List Event) (rows : List ShRow) : Prop :=
  ∀ inflight db, ingestSh runId inflight events db = applyAll Db.insertSh rows db

theorem ingestJobs_calls (calls : List ShCall) : ingestJobs runId inflight runOutcome
    (calls.flatMap (ShCall.events jobId) ++ events) db = ingestJobs runId inflight runOutcome events db := by
  induction calls with
  | nil => rfl
  | cons call later ih =>
    rcases call with ⟨cmd,startedAt,_ | ⟨finishedAt,exitCode⟩⟩ <;> simpa [ShCall.events,ingestJobs] using ih

theorem records_job (run : JobRun) (rest : Records runId events rows verdict) :
    Records runId (run.events ++ events) (JobRun.row runId run :: rows) verdict := by
  intro inflight db
  have began : inflight.insert run.id run.startedAt run.id = some run.startedAt := by simp [Inflight.insert]
  rw [JobRun.events,List.cons_append,List.cons_append,List.append_assoc,ingestJobs,ingestJobs_calls]
  simp only [List.cons_append,List.nil_append,ingestJobs,began,Option.getD_some,applyAll,JobRun.row]
  cases accepted : Db.insertJob db ⟨runId,run.id,jobState run.outcome,none,some run.startedAt,some run.finishedAt⟩ with
  | error error => rfl
  | ok next => exact rest _ next

theorem records_standing (standing : Standing) : Records runId standing.events [] (Standing.verdict standing) := by
  intro inflight db
  cases standing with
  | between => rfl
  | inside job =>
    have ignored : ingestJobs runId (inflight.insert job.id job.startedAt) none
        (job.calls.flatMap (ShCall.events job.id) ++ []) db = (.ok none,db) := ingestJobs_calls job.calls
    simpa [Standing.events,ingestJobs,applyAll,Except.map,Standing.verdict] using ignored
  | ended finishedAt outcome => rfl

theorem records_progress (runId : String) (progress : Progress) :
    Records runId progress.events (Progress.jobRows runId progress) (Standing.verdict progress.standing) := by
  rcases progress with ⟨done,standing⟩
  induction done with
  | nil => exact records_standing standing
  | cons run rest ih =>
    rw [Progress.events,List.flatMap_cons,List.append_assoc]
    exact records_job run ih

theorem writes_calls (calls : List ShCall) (rest : Writes runId events rows) :
    Writes runId (calls.flatMap (ShCall.events jobId) ++ events) (callRows runId jobId calls ++ rows) := by
  induction calls with
  | nil => exact rest
  | cons call later ih =>
    intro inflight db
    rcases call with ⟨cmd,startedAt,_ | ⟨finishedAt,exitCode⟩⟩
    · simpa [ShCall.events,ingestSh,callRows,List.filterMap_cons,ShCall.row] using ih _ db
    · have began : inflight.insert jobId (startedAt,cmd) jobId = some (startedAt,cmd) := by simp [Inflight.insert]
      simp only [List.flatMap_cons,ShCall.events,List.cons_append,List.nil_append,ingestSh,began,callRows,
        List.filterMap_cons,ShCall.row,Option.map_some,applyAll]
      cases accepted : Db.insertSh db ⟨runId,jobId,startedAt,finishedAt,exitCode,cmd⟩ with
      | error error => rfl
      | ok next => exact ih _ next

theorem writes_standing (standing : Standing) : Writes runId standing.events (Standing.shRows runId standing) := by
  intro inflight db
  cases standing with
  | between => rfl
  | inside job =>
    have nothing : Writes runId [] [] := fun _ _ => rfl
    have calls : Writes runId (job.calls.flatMap (ShCall.events job.id) ++ []) (callRows runId job.id job.calls ++ []) :=
      writes_calls job.calls nothing
    simpa [Standing.events,ingestSh,Standing.shRows] using calls inflight db
  | ended finishedAt outcome => rfl

theorem writes_progress (runId : String) (progress : Progress) :
    Writes runId progress.events (Progress.shRows runId progress) := by
  rcases progress with ⟨done,standing⟩
  induction done with
  | nil => exact writes_standing standing
  | cons run rest ih =>
    rw [Progress.events,Progress.shRows,List.flatMap_cons,List.flatMap_cons,List.append_assoc,List.append_assoc,JobRun.events,
      List.cons_append,List.cons_append,List.append_assoc]
    intro inflight db
    have last : Writes runId ([⟨run.finishedAt,.jobFinished run.id run.outcome⟩] ++ Progress.events ⟨rest,standing⟩)
        (Progress.shRows runId ⟨rest,standing⟩) := ih
    exact writes_calls run.calls last inflight db

-- The starts of the calls whose end is shown too.
def completed (calls : List ShCall) : List Int :=
  calls.filterMap fun call => call.finished.map fun _ => call.startedAt

structure JobRun.Storable (run : JobRun) : Prop where
  ordered : run.startedAt ≤ run.finishedAt
  apart : (completed run.calls).Nodup

-- What the constraints of the two tables ask of a run's events.
structure Progress.Storable (progress : Progress) : Prop where
  done : ∀ run ∈ progress.done, JobRun.Storable run
  running : ∀ job, progress.standing = .inside job → completed job.calls = []

theorem row_checks_iff {run : JobRun} : (JobRun.row runId run).Checks ↔ run.startedAt ≤ run.finishedAt := by
  cases outcome : run.outcome <;> simp [JobRow.checks_iff,JobRun.row,jobState,outcome]

theorem callRows_keys (calls : List ShCall) : (callRows runId jobId calls).map shSchema.key =
    (completed calls).map fun startedAt => (runId,jobId,startedAt) := by
  induction calls with
  | nil => rfl
  | cons call rest ih =>
    rcases call with ⟨cmd,startedAt,_ | ⟨finishedAt,exitCode⟩⟩
    · simpa [callRows,completed,List.filterMap_cons,ShCall.row] using ih
    · simpa [callRows,completed,List.filterMap_cons,ShCall.row,shSchema] using ih

theorem callRows_nodup {calls : List ShCall} :
    ((callRows runId jobId calls).map shSchema.key).Nodup ↔ (completed calls).Nodup := by
  rw [callRows_keys]
  exact List.nodup_map_iff fun a b same => by simpa using same

theorem callRows_nil_iff (runId jobId : String) {calls : List ShCall} : callRows runId jobId calls = [] ↔ completed calls = [] := by
  have same : (callRows runId jobId calls).map shSchema.key = _ := callRows_keys calls
  simpa using congrArg (· = []) same

theorem callRows_job {calls : List ShCall} (member : row ∈ callRows runId jobId calls) : row.job = (runId,jobId) := by
  obtain ⟨call,_,stored⟩ := List.mem_filterMap.mp member
  obtain ⟨_,_,rfl⟩ := Option.map_eq_some_iff.mp stored
  rfl

theorem jobRows_ok_iff {db : Db} {progress : Progress} (present : runId ∈ db.runs.keys)
    (fresh : ∀ row ∈ db.jobs.rows, row.runId ≠ runId) (distinct : progress.ids.Nodup) :
    (applyAll Db.insertJob (Progress.jobRows runId progress) db).1 = .ok () ↔
      ∀ run ∈ progress.done, run.startedAt ≤ run.finishedAt := by
  have keyed : ((db.jobs.rows ++ Progress.jobRows runId progress).map JobRow.key).Nodup := by
    have own : (Progress.jobRows runId progress).map JobRow.key = (progress.done.map JobRun.id).map (runId,·) := by
      simp [Progress.jobRows,JobRow.key,JobRun.row]
    rw [List.map_append,List.nodup_append,own]
    refine ⟨db.jobs.keyed,(List.nodup_append.mp distinct).1.map fun a b same => (Prod.mk.inj same).2,?_⟩
    intro key old other new same
    obtain ⟨row,member,rfl⟩ := List.mem_map.mp old
    obtain ⟨name,_,rfl⟩ := List.mem_map.mp new
    exact fresh row member (Prod.mk.inj same).1
  rw [applyAll_ok_iff insertJob_appends db.jobs.keyed]
  constructor
  · intro taken run member
    obtain ⟨_,fits⟩ := taken
    exact row_checks_iff.mp (fits _ (List.mem_map_of_mem member)).2
  · refine fun ordered => ⟨keyed,fun row member => ?_⟩
    obtain ⟨run,inside,rfl⟩ := List.mem_map.mp member
    exact ⟨present,row_checks_iff.mpr (ordered run inside)⟩

theorem doneRows_nodup (runId : String) {runs : List JobRun} (distinct : (runs.map JobRun.id).Nodup) :
    ((runs.flatMap fun run => callRows runId run.id run.calls).map shSchema.key).Nodup ↔
      ∀ run ∈ runs, (completed run.calls).Nodup := by
  rw [List.map_flatMap,List.nodup_flatMap]
  constructor
  · exact fun ⟨each,_⟩ run member => callRows_nodup.mp (each run member)
  · refine fun apart => ⟨fun run member => callRows_nodup.mpr (apart run member),?_⟩
    apply (List.pairwise_map.mp distinct).imp
    intro first second other key left right
    simp only [callRows_keys,List.mem_map] at left right
    obtain ⟨_,_,rfl⟩ := left
    obtain ⟨_,_,same⟩ := right
    exact other (Prod.mk.inj (Prod.mk.inj same.symm).2).1

theorem shRows_ok_iff {db : Db} {progress : Progress}
    (recorded : ∀ name, (runId,name) ∈ db.jobs.keys ↔ name ∈ progress.done.map JobRun.id)
    (fresh : ∀ row ∈ db.sh.rows, row.runId ≠ runId) (distinct : progress.ids.Nodup) :
    (applyAll Db.insertSh (Progress.shRows runId progress) db).1 = .ok () ↔
      (∀ run ∈ progress.done, (completed run.calls).Nodup) ∧
        ∀ job, progress.standing = .inside job → completed job.calls = [] := by
  obtain ⟨finished,_,alone⟩ := List.nodup_append.mp distinct
  rw [applyAll_ok_iff insertSh_appends db.sh.keyed]
  constructor
  · intro taken
    obtain ⟨keyed,parents⟩ := taken
    refine ⟨(doneRows_nodup runId finished).mp ?_,fun job inside => (callRows_nil_iff runId job.id).mp ?_⟩
    · refine keyed.sublist (List.Sublist.map _ ?_)
      exact (List.sublist_append_left _ _).trans (List.sublist_append_right _ _)
    · apply List.eq_nil_iff_forall_not_mem.mpr
      intro row member
      have parent := parents row (List.mem_append_right _ (by simpa [Standing.shRows,inside] using member))
      rw [callRows_job member,recorded] at parent
      exact alone _ parent job.id (by simp [inside,Standing.ids]) rfl
  · intro storable
    obtain ⟨apart,idle⟩ := storable
    have open_rows : Standing.shRows runId progress.standing = [] := by
      cases standing : progress.standing with
      | inside job => exact (callRows_nil_iff _ _).mpr (idle job standing)
      | _ => rfl
    rw [Progress.shRows,open_rows,List.append_nil]
    refine ⟨?_,fun row member => ?_⟩
    · rw [List.map_append,List.nodup_append]
      refine ⟨db.sh.keyed,(doneRows_nodup runId finished).mpr apart,?_⟩
      intro key old other new same
      obtain ⟨row,member,rfl⟩ := List.mem_map.mp old
      obtain ⟨later,inside,rfl⟩ := List.mem_map.mp new
      obtain ⟨run,_,stored⟩ := List.mem_flatMap.mp inside
      have own : later.runId = runId := congrArg Prod.fst (callRows_job stored)
      exact fresh row member ((congrArg Prod.fst same).trans own)
    · obtain ⟨run,inside,stored⟩ := List.mem_flatMap.mp member
      rw [callRows_job stored,recorded]
      exact List.mem_map_of_mem inside

theorem storable_iff {progress : Progress} : Progress.Storable progress ↔
    (∀ run ∈ progress.done, run.startedAt ≤ run.finishedAt) ∧ (∀ run ∈ progress.done, (completed run.calls).Nodup) ∧
      ∀ job, progress.standing = .inside job → completed job.calls = [] :=
  ⟨fun ⟨done,running⟩ => ⟨fun run member => (done run member).ordered,fun run member => (done run member).apart,running⟩,
    fun ⟨ordered,apart,running⟩ => ⟨fun run member => ⟨ordered run member,apart run member⟩,running⟩⟩

-- Either every row is stored, or the first refusal loses the rows after it and
-- with them the verdict.
inductive Ingested (runId : String) (progress : Progress) (before after : Db) :
    Except IngestError (Option RunOutcome) → Prop where
  | stored (storable : Progress.Storable progress)
      (jobs : after.jobs.rows = before.jobs.rows ++ Progress.jobRows runId progress)
      (sh : after.sh.rows = before.sh.rows ++ Progress.shRows runId progress) :
      Ingested runId progress before after (.ok (Standing.verdict progress.standing))
  | refused (error : ConstraintError) (jobs : List JobRow) (sh : List ShRow) (unstorable : ¬ Progress.Storable progress)
      (storedJobs : after.jobs.rows = before.jobs.rows ++ jobs) (storedSh : after.sh.rows = before.sh.rows ++ sh)
      (frontJobs : jobs <+: Progress.jobRows runId progress) (frontSh : sh <+: Progress.shRows runId progress)
      (lost : jobs ≠ Progress.jobRows runId progress ∨ sh ≠ Progress.shRows runId progress) :
      Ingested runId progress before after (.error (.sql error))

theorem fresh_sh {db : Db} (fresh : ∀ row ∈ db.jobs.rows, row.runId ≠ runId) : ∀ row ∈ db.sh.rows, row.runId ≠ runId := by
  intro row member
  obtain ⟨job,inside,same⟩ := List.mem_map.mp (db.shJob row member)
  have owner : job.runId = row.runId := congrArg Prod.fst same
  exact owner ▸ fresh job inside

theorem recorded_jobs {before after : Db} {progress : Progress} (fresh : ∀ row ∈ before.jobs.rows, row.runId ≠ runId)
    (stored : after.jobs.rows = before.jobs.rows ++ Progress.jobRows runId progress) (name : String) :
    (runId,name) ∈ after.jobs.keys ↔ name ∈ progress.done.map JobRun.id := by
  have other : (runId,name) ∉ before.jobs.rows.map JobRow.key := by
    intro present
    obtain ⟨row,member,same⟩ := List.mem_map.mp present
    exact fresh row member (Prod.mk.inj same).1
  change (runId,name) ∈ after.jobs.rows.map JobRow.key ↔ _
  rw [stored,List.map_append,List.mem_append]
  simp [other,Progress.jobRows,JobRow.key,JobRun.row]

theorem jobPass_keeps (rows : List JobRow) (db : Db) :
    (applyAll Db.insertJob rows db).2.runs = db.runs ∧ (applyAll Db.insertJob rows db).2.sh = db.sh := by
  constructor
  · apply applyAll_keeps
    exact fun inserted => (insertJob_ok inserted).1
  · apply applyAll_keeps
    exact fun inserted => (insertJob_ok inserted).2.1

theorem shPass_keeps (rows : List ShRow) (db : Db) :
    (applyAll Db.insertSh rows db).2.runs = db.runs ∧ (applyAll Db.insertSh rows db).2.jobs = db.jobs := by
  constructor
  · apply applyAll_keeps
    exact fun inserted => (insertSh_ok inserted).1
  · apply applyAll_keeps
    exact fun inserted => (insertSh_ok inserted).2.1

theorem ingest_progress {db : Db} {progress : Progress} (parsed : codec.parse bytes = some progress.events)
    (present : runId ∈ db.runs.keys) (fresh : ∀ row ∈ db.jobs.rows, row.runId ≠ runId) (distinct : progress.ids.Nodup) :
    (ingestEvents codec runId (.ok bytes) db).2.runs = db.runs ∧
      Ingested runId progress db (ingestEvents codec runId (.ok bytes) db).2 (ingestEvents codec runId (.ok bytes) db).1 := by
  obtain ⟨jobs,frontJobs,tookJobs,wholeJobs⟩ := applyAll_taken insertJob_appends (Progress.jobRows runId progress) db
  obtain ⟨runsKept,shKept⟩ := jobPass_keeps (Progress.jobRows runId progress) db
  have jobsFit := jobRows_ok_iff present fresh distinct
  simp only [ingestEvents,parsed,records_progress runId progress _ db]
  rcases pass : applyAll Db.insertJob (Progress.jobRows runId progress) db with ⟨error | ⟨⟨⟩⟩,middle⟩
  · simp only [pass] at tookJobs runsKept shKept
    rw [pass] at wholeJobs jobsFit
    refine ⟨runsKept,.refused error jobs [] (fun storable => ?_) tookJobs ?_ frontJobs (by simp) (.inl ?_)⟩
    · exact nomatch jobsFit.mpr (storable_iff.mp storable).1
    · exact (congrArg Table.rows shKept).trans (List.append_nil _).symm
    · exact fun whole => nomatch wholeJobs.mpr whole
  · simp only [pass] at tookJobs runsKept shKept
    rw [pass] at wholeJobs jobsFit
    have ordered := jobsFit.mp rfl
    rw [wholeJobs.mp rfl] at tookJobs
    obtain ⟨sh,frontSh,tookSh,wholeSh⟩ := applyAll_taken insertSh_appends (Progress.shRows runId progress) middle
    obtain ⟨runsStill,jobsStill⟩ := shPass_keeps (Progress.shRows runId progress) middle
    have shFit := shRows_ok_iff (recorded_jobs fresh tookJobs) (shKept ▸ fresh_sh fresh) distinct
    simp only [Except.map,writes_progress runId progress _ middle]
    rcases last : applyAll Db.insertSh (Progress.shRows runId progress) middle with ⟨error | ⟨⟨⟩⟩,after⟩
    · simp only [last] at tookSh runsStill jobsStill
      rw [last] at wholeSh shFit
      refine ⟨runsStill.trans runsKept,.refused error (Progress.jobRows runId progress) sh (fun storable => ?_)
        (by rw [jobsStill,tookJobs]) (by rw [tookSh,shKept]) (List.prefix_refl _) frontSh (.inr ?_)⟩
      · exact nomatch shFit.mpr (storable_iff.mp storable).2
      · exact fun whole => nomatch wholeSh.mpr whole
    · simp only [last] at tookSh runsStill jobsStill
      rw [last] at wholeSh shFit
      refine ⟨runsStill.trans runsKept,.stored (storable_iff.mpr ⟨ordered,shFit.mp rfl⟩) (by rw [jobsStill,tookJobs]) ?_⟩
      rw [tookSh,shKept,wholeSh.mp rfl]

end Quire.IngestRows
