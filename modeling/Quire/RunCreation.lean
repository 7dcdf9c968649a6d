import Quire.Autocommit
import Quire.RunsCalls

namespace Quire.RunCreation
open KeyedTable RunsTable Autocommit
open RunsCalls (Run RunsError Outcome)

-- The steps of `Runs::create` that can fail.
inductive Step where
  | openDb
  | selectActive
  | cancelActive (runId : String)
  | cancelQueued
  | insertRun
  | createDir
  deriving DecidableEq, Repr

-- What goes wrong at a step, the constraints of the table apart: a database
-- that is locked, a disk that is full.
abbrev Faults := Step → Option String

inductive CreateError where
  | constraint (error : ConstraintError)
  | failed (message : String)
  deriving DecidableEq, Repr

def guarded (faults : Faults) (step : Step) (db : RunsTable) : Except CreateError RunsTable :=
  match faults step with
  | some message => .error (.failed message)
  | none => .ok db

-- A statement that fails, for whatever reason, changes nothing.
def execute (faults : Faults) (step : Step) (stmt : RunsStmt) (db : RunsTable) : Except CreateError RunsTable :=
  match faults step with
  | some message => .error (.failed message)
  | none => (stmt.exec db).mapError .constraint

def cancelActiveRuns (faults : Faults) (now : Int) : List String → RunsTable → Outcome CreateError Unit
  | [],db => (db,.ok ())
  | runId :: rest,db =>
    match execute faults (.cancelActive runId) (.cancelActive now runId) db with
    | .error error => (db,.error error)
    | .ok next => cancelActiveRuns faults now rest next

def cancelExisting (faults : Faults) (repo refName : String) (now : Int) (db : RunsTable) : Outcome CreateError Unit :=
  match guarded faults .selectActive db with
  | .error error => (db,.error error)
  | .ok db =>
    match cancelActiveRuns faults now (activeIds db repo refName) db with
    | (next,.error error) => (next,.error error)
    | (next,.ok ()) =>
      match execute faults .cancelQueued (.cancelQueued now repo refName) next with
      | .error error => (next,.error error)
      | .ok last => (last,.ok ())

def create (faults : Faults) (run : NewRun) (cancelNow insertNow : Int) (db : RunsTable) : Outcome CreateError Run :=
  match guarded faults .openDb db with
  | .error error => (db,.error error)
  | .ok db =>
    match cancelExisting faults run.repo run.refName cancelNow db with
    | (next,.error error) => (next,.error error)
    | (next,.ok ()) =>
      match execute faults .insertRun (.insertRun run insertNow) next with
      | .error error => (next,.error error)
      | .ok last =>
        match guarded faults .createDir last with
        | .error error => (last,.error error)
        | .ok last => (last,.ok ⟨run.id,false,false⟩)

-- The same call as a list of steps, each committed on its own.
def plan (db : RunsTable) (run : NewRun) : List Step :=
  .openDb :: .selectActive :: (activeIds db run.repo run.refName).map .cancelActive ++ [.cancelQueued,.insertRun,.createDir]

def perform (faults : Faults) (run : NewRun) (cancelNow insertNow : Int) (db : RunsTable) (step : Step) :
    Except CreateError RunsTable :=
  match step with
  | .openDb | .selectActive | .createDir => guarded faults step db
  | .cancelActive runId => execute faults step (.cancelActive cancelNow runId) db
  | .cancelQueued => execute faults step (.cancelQueued cancelNow run.repo run.refName) db
  | .insertRun => execute faults step (.insertRun run insertNow) db

variable {faults : Faults} {run : NewRun} {cancelNow insertNow : Int} {db : RunsTable}

theorem cancelActiveRuns_plan (ids : List String) (rest : List Step) (db : RunsTable) :
    applyAll (perform faults run cancelNow insertNow) (ids.map .cancelActive ++ rest) db =
      match cancelActiveRuns faults cancelNow ids db with
      | (next,.error error) => (.error error,next)
      | (next,.ok ()) => applyAll (perform faults run cancelNow insertNow) rest next := by
  induction ids generalizing db with
  | nil => rfl
  | cons runId later ih =>
    rw [List.map_cons,List.cons_append,applyAll,perform,cancelActiveRuns]
    cases execute faults (.cancelActive runId) (.cancelActive cancelNow runId) db with
    | error error => rfl
    | ok next => exact ih next

theorem guarded_ok (accepted : guarded faults step db = .ok next) : next = db := by
  unfold guarded at accepted
  split at accepted
  · cases accepted
  · cases accepted; rfl

theorem create_plan (faults : Faults) (run : NewRun) (cancelNow insertNow : Int) (db : RunsTable) :
    create faults run cancelNow insertNow db =
      ((applyAll (perform faults run cancelNow insertNow) (plan db run) db).2,
        (applyAll (perform faults run cancelNow insertNow) (plan db run) db).1.map fun () => ⟨run.id,false,false⟩) := by
  unfold create plan
  rw [List.cons_append,List.cons_append,applyAll,perform]
  cases opened : guarded faults .openDb db with
  | error error => rfl
  | ok same =>
    obtain rfl := guarded_ok opened
    dsimp only
    rw [applyAll,perform]
    unfold cancelExisting
    cases listed : guarded faults .selectActive same with
    | error error => rfl
    | ok again =>
      obtain rfl := guarded_ok listed
      dsimp only
      rw [cancelActiveRuns_plan]
      rcases cancelActiveRuns faults cancelNow (activeIds again run.repo run.refName) again with ⟨next,error | ⟨⟨⟩⟩⟩
      · rfl
      · dsimp only
        rw [applyAll,perform]
        cases execute faults .cancelQueued (.cancelQueued cancelNow run.repo run.refName) next with
        | error error => rfl
        | ok last =>
          dsimp only
          rw [applyAll,perform]
          cases execute faults .insertRun (.insertRun run insertNow) last with
          | error error => rfl
          | ok inserted =>
            dsimp only
            rw [applyAll,perform]
            cases guarded faults .createDir inserted <;> rfl

-- Without faults this is the call as the other modules have it.
def directoryOnly (directory : Bool) : Faults
  | .createDir => if directory then none else some "create_dir_all"
  | _ => none

def asRunsError : CreateError → RunsError
  | .constraint error => .sql error
  | .failed _ => .io

theorem cancelActiveRuns_faultless (directory : Bool) (ids : List String) (db : RunsTable) :
    cancelActiveRuns (directoryOnly directory) now ids db =
      ((RunsCalls.cancelActiveRuns now ids db).1,(RunsCalls.cancelActiveRuns now ids db).2.mapError .constraint) := by
  induction ids generalizing db with
  | nil => rfl
  | cons runId rest ih =>
    have plain : execute (directoryOnly directory) (.cancelActive runId) (.cancelActive now runId) db =
        ((RunsStmt.cancelActive now runId).exec db).mapError .constraint := rfl
    rw [cancelActiveRuns,RunsCalls.cancelActiveRuns,plain]
    cases (RunsStmt.cancelActive now runId).exec db with
    | error error => rfl
    | ok next => exact ih next

theorem create_faultless (run : NewRun) (cancelNow insertNow : Int) (directory : Bool) (db : RunsTable) :
    RunsCalls.create run cancelNow insertNow directory db =
      ((create (directoryOnly directory) run cancelNow insertNow db).1,
        (create (directoryOnly directory) run cancelNow insertNow db).2.mapError asRunsError) := by
  unfold RunsCalls.create RunsCalls.cancelExisting create cancelExisting
  simp only [guarded,execute,directoryOnly,cancelActiveRuns_faultless]
  rcases RunsCalls.cancelActiveRuns cancelNow (activeIds db run.repo run.refName) db with ⟨next,error | ⟨⟨⟩⟩⟩
  · rfl
  · dsimp only [Except.mapError]
    cases (RunsStmt.cancelQueued cancelNow run.repo run.refName).exec next with
    | error error => rfl
    | ok last =>
      dsimp only
      cases (RunsStmt.insertRun run insertNow).exec last with
      | error error => rfl
      | ok inserted => cases directory <;> rfl

section rows

def Queued (repo refName : String) (row : RunRow) : Prop :=
  row.repo = repo ∧ row.refName = refName ∧ row.dispatchedAt = none ∧ row.resolvedAt = none

instance (repo refName : String) : DecidablePred (Queued repo refName) := fun _ => instDecidableAnd

def superseded (now : Int) (row : RunRow) : RunRow := { row with resolvedAt := some now, outcome := some "superseded" }

-- Whether one of these steps has cancelled the row.
def Cancels (run : NewRun) (taken : List Step) (row : RunRow) : Prop :=
  .cancelActive row.id ∈ taken ∨ (.cancelQueued ∈ taken ∧ Queued run.repo run.refName row)

instance (run : NewRun) (taken : List Step) : DecidablePred (Cancels run taken) := fun _ => instDecidableOr

def rowAfter (run : NewRun) (cancelNow : Int) (taken : List Step) (row : RunRow) : RunRow :=
  if Cancels run taken row then superseded cancelNow row else row

def rowsAfter (run : NewRun) (cancelNow insertNow : Int) (db : RunsTable) (taken : List Step) : List RunRow :=
  db.rows.map (rowAfter run cancelNow taken) ++ if .insertRun ∈ taken then [run.row insertNow] else []

@[simp] theorem rowAfter_id (row : RunRow) : (rowAfter run cancelNow taken row).id = row.id := by
  unfold rowAfter superseded
  split <;> rfl

-- A CHECK or the primary key refuses the step, by the table before the call.
def Rejected (run : NewRun) (cancelNow : Int) (db : RunsTable) : Step → Prop
  | .openDb | .selectActive | .createDir => False
  | .cancelActive runId => ∃ row ∈ db.rows, row.id = runId ∧ ¬ (superseded cancelNow row).Checks
  | .cancelQueued => ∃ row ∈ db.rows, Queued run.repo run.refName row ∧ ¬ (superseded cancelNow row).Checks
  | .insertRun => ∃ row ∈ db.rows, row.id = run.id

def Refused (faults : Faults) (run : NewRun) (cancelNow : Int) (db : RunsTable) (step : Step) : Prop :=
  faults step ≠ none ∨ Rejected run cancelNow db step

def rank : Step → Nat
  | .openDb => 0
  | .selectActive => 1
  | .cancelActive _ => 2
  | .cancelQueued => 3
  | .insertRun => 4
  | .createDir => 5

theorem activeIds_nodup (db : RunsTable) (repo refName : String) : (activeIds db repo refName).Nodup :=
  db.keyed.sublist (List.filter_sublist.map _)

theorem plan_ordered (db : RunsTable) (run : NewRun) : (plan db run).Pairwise fun a b => a ≠ b ∧ rank a ≤ rank b := by
  have active : (activeIds db run.repo run.refName).Pairwise fun a b => a ≠ b := activeIds_nodup db run.repo run.refName
  simp only [plan,List.cons_append,List.pairwise_cons,List.pairwise_append,List.pairwise_map,List.mem_append,List.mem_map]
  simp [rank,or_imp,forall_and,active]

-- What has run before a step of the plan.
theorem before_step (split : plan db run = taken ++ step :: rest) : step ∉ taken ∧ ∀ other ∈ taken, rank other ≤ rank step := by
  have ordered := plan_ordered db run
  rw [split,List.pairwise_append] at ordered
  obtain ⟨_,_,before⟩ := ordered
  exact ⟨fun present => (before step present step List.mem_cons_self).1 rfl,fun other present => (before other present step List.mem_cons_self).2⟩

theorem planned_active : .cancelActive runId ∈ plan db run ↔ runId ∈ activeIds db run.repo run.refName := by
  simp [plan]

theorem active_row (member : row ∈ db.rows) : row.id ∈ activeIds db repo refName ↔
    row.repo = repo ∧ row.refName = refName ∧ row.dispatchedAt ≠ none ∧ row.resolvedAt = none := by
  rw [mem_activeIds]
  have found : db.row? row.id = some row := row?_of_mem member
  simp [found]

theorem superseded_stamp (valid : row.Checks) (sent : row.dispatchedAt ≠ none) (unresolved : row.resolvedAt = none) :
    row.stamp now "superseded" = superseded now row := by
  obtain ⟨stamp,dispatched⟩ := Option.ne_none_iff_exists'.mp sent
  have blank := valid.together.mp unresolved
  simp [RunRow.stamp,superseded,dispatched,unresolved,blank]

theorem superseded_queued (valid : row.Checks) (unresolved : row.resolvedAt = none) :
    (RunsStmt.cancelQueued now repo refName).sets row = superseded now row := by
  have blank := valid.together.mp unresolved
  simp [RunsStmt.sets,superseded,unresolved,blank]

theorem guarded_error_iff : (∃ error, guarded faults step db = .error error) ↔ faults step ≠ none := by
  unfold guarded
  cases faults step <;> simp

theorem execute_ok (accepted : execute faults step stmt db = .ok next) : stmt.exec db = .ok next := by
  unfold execute at accepted
  split at accepted
  · cases accepted
  · cases ran : stmt.exec db with
    | error error => rw [ran] at accepted; cases accepted
    | ok other => rw [ran] at accepted; cases accepted; rfl

theorem execute_error_iff : (∃ error, execute faults step stmt db = .error error) ↔
    faults step ≠ none ∨ ¬ ∃ next, stmt.exec db = .ok next := by
  unfold execute
  cases faults step with
  | some message => simp
  | none => cases stmt.exec db <;> simp [Except.mapError]

-- An UPDATE that supersedes the rows it selects and has not superseded before.
structure Supersedes (db : RunsTable) (now : Int) (before after : RunRow → RunRow) (stmt : RunsStmt) (chosen : RunRow → Prop) : Prop where
  update : stmt.isInsert = false
  selects : ∀ row ∈ db.rows, (stmt.selects (before row) = true ↔ chosen row)
  sets : ∀ row ∈ db.rows, chosen row → stmt.sets (before row) = superseded now row ∧ after row = superseded now row
  keeps : ∀ row ∈ db.rows, ¬ chosen row → after row = before row

theorem Supersedes.accepts_iff (supersedes : Supersedes db now before after stmt chosen) {t : RunsTable} (stands : t.rows = db.rows.map before) :
    (∃ next, stmt.exec t = .ok next) ↔ ∀ row ∈ db.rows, chosen row → (superseded now row).Checks := by
  rw [RunsTable.accepts_iff supersedes.update,stands,List.forall_mem_map]
  apply forall₂_congr
  intro row member
  rw [supersedes.selects row member]
  exact forall_congr' fun picked => by rw [(supersedes.sets row member picked).1]

theorem Supersedes.rows (supersedes : Supersedes db now before after stmt chosen) {t : RunsTable} (stands : t.rows = db.rows.map before)
    (accepted : stmt.exec t = .ok next) : next.rows = db.rows.map after := by
  rw [exec_update supersedes.update] at accepted
  rw [update_rows accepted,stands,List.map_map]
  apply List.map_congr_left
  intro row member
  rw [Function.comp_apply]
  by_cases picked : chosen row
  · obtain ⟨written,same⟩ := supersedes.sets row member picked
    rw [if_pos ((supersedes.selects row member).mpr picked),same]
    exact written
  · rw [if_neg fun selected => picked ((supersedes.selects row member).mp selected),supersedes.keeps row member picked]

theorem cancelActive_supersedes (split : plan db run = taken ++ .cancelActive runId :: rest) :
    Supersedes db cancelNow (rowAfter run cancelNow taken) (rowAfter run cancelNow (taken ++ [.cancelActive runId]))
      (.cancelActive cancelNow runId) (fun row => row.id = runId) := by
  obtain ⟨fresh,before⟩ := before_step split
  have unqueued : Step.cancelQueued ∉ taken := by
    intro present
    have early := before .cancelQueued present
    simp [rank] at early
  have active : runId ∈ activeIds db run.repo run.refName := planned_active.mp (split ▸ by simp)
  constructor
  · rfl
  · intro row member
    simp [RunsStmt.selects]
  · intro row member same
    subst same
    obtain ⟨_,_,sent,unresolved⟩ := (active_row member).mp active
    have untouched : rowAfter run cancelNow taken row = row := if_neg (by simp [Cancels,fresh,unqueued])
    rw [untouched]
    exact ⟨superseded_stamp (db.checked row member) sent unresolved,if_pos (.inl (by simp))⟩
  · intro row member other
    simp [rowAfter,Cancels,other,unqueued]

theorem cancelQueued_supersedes (split : plan db run = taken ++ .cancelQueued :: rest) :
    Supersedes db cancelNow (rowAfter run cancelNow taken) (rowAfter run cancelNow (taken ++ [.cancelQueued]))
      (.cancelQueued cancelNow run.repo run.refName) (Queued run.repo run.refName) := by
  obtain ⟨fresh,_⟩ := before_step split
  have inactive : ∀ row ∈ db.rows, Queued run.repo run.refName row → Step.cancelActive row.id ∉ taken := by
    intro row member queued cancelled
    have active : row.id ∈ activeIds db run.repo run.refName := planned_active.mp (split ▸ List.mem_append_left _ cancelled)
    exact ((active_row member).mp active).2.2.1 queued.2.2.1
  have untouched : ∀ row ∈ db.rows, Queued run.repo run.refName row → rowAfter run cancelNow taken row = row :=
    fun row member queued => if_neg (by simp [Cancels,fresh,inactive row member queued])
  constructor
  · rfl
  · intro row member
    by_cases cancelled : Cancels run taken row
    · have active : Step.cancelActive row.id ∈ taken := by simpa [Cancels,fresh] using cancelled
      rw [rowAfter,if_pos cancelled]
      refine iff_of_false (by simp [RunsStmt.selects,superseded]) fun queued => inactive row member queued active
    · rw [rowAfter,if_neg cancelled]
      simp [RunsStmt.selects,Queued,and_assoc]
  · intro row member queued
    rw [untouched row member queued]
    exact ⟨superseded_queued (db.checked row member) queued.2.2.2,if_pos (.inr ⟨by simp,queued⟩)⟩
  · intro row member other
    simp [rowAfter,Cancels,other]

theorem rowsAfter_early (taken : List Step) (early : .insertRun ∉ taken) :
    rowsAfter run cancelNow insertNow db taken = db.rows.map (rowAfter run cancelNow taken) := by
  rw [rowsAfter,if_neg early,List.append_nil]

theorem insert_late (split : plan db run = taken ++ step :: rest) (early : rank step ≤ 4) : .insertRun ∉ taken := by
  intro present
  obtain ⟨fresh,before⟩ := before_step split
  have late : 4 ≤ rank step := before .insertRun present
  cases step with
  | insertRun => exact fresh present
  | openDb | selectActive | cancelActive | cancelQueued => simp [rank] at late
  | createDir => simp [rank] at early

-- Up to the INSERT there are the old rows only.
theorem stands_early (split : plan db run = taken ++ step :: rest) (early : rank step ≤ 4) {t : RunsTable}
    (stands : t.rows = rowsAfter run cancelNow insertNow db taken) : t.rows = db.rows.map (rowAfter run cancelNow taken) :=
  stands.trans (rowsAfter_early taken (insert_late split early))

-- So an UPDATE leaves the rows that it is to leave.
theorem Supersedes.takes (supersedes : Supersedes db cancelNow (rowAfter run cancelNow taken) (rowAfter run cancelNow (taken ++ [step])) stmt chosen)
    (split : plan db run = taken ++ step :: rest) (early : rank step ≤ 3) {t : RunsTable}
    (stands : t.rows = rowsAfter run cancelNow insertNow db taken) (accepted : stmt.exec t = .ok next) :
    next.rows = rowsAfter run cancelNow insertNow db (taken ++ [step]) := by
  have before : rank step ≤ 4 := Nat.le_succ_of_le early
  have other : step ≠ .insertRun := by
    intro same
    subst same
    simp [rank] at early
  have unfinished : .insertRun ∉ taken ++ [step] := by simpa [other.symm] using insert_late split before
  rw [rowsAfter_early _ unfinished]
  exact supersedes.rows (stands_early split before stands) accepted

theorem insert_checks (run : NewRun) (now : Int) : (run.row now).Checks := by
  simp [RunRow.checks_iff,NewRun.row]

theorem rowAfter_snoc (active : ∀ runId, .cancelActive runId ≠ step) (queued : .cancelQueued ≠ step) :
    rowAfter run cancelNow (taken ++ [step]) = rowAfter run cancelNow taken := by
  funext row
  simp [rowAfter,Cancels,active row.id,queued]

theorem plan_foretold (faults : Faults) (run : NewRun) (cancelNow insertNow : Int) (db : RunsTable) :
    Foretold (perform faults run cancelNow insertNow) (plan db run) (Refused faults run cancelNow db)
      (fun taken t => t.rows = rowsAfter run cancelNow insertNow db taken) db where
  starts := by
    have same : rowAfter run cancelNow [] = id := funext fun row => if_neg (by simp [Cancels])
    simp [rowsAfter,same]
  refuses := by
    intro taken step rest t split stands
    cases step with
    | openDb | selectActive | createDir => exact guarded_error_iff.trans (or_iff_left id).symm
    | cancelActive runId =>
      have old := stands_early split (by simp [rank]) stands
      rw [perform,execute_error_iff,(cancelActive_supersedes split).accepts_iff old]
      simp [Refused,Rejected]
    | cancelQueued =>
      have old := stands_early split (by simp [rank]) stands
      rw [perform,execute_error_iff,(cancelQueued_supersedes split).accepts_iff old]
      simp [Refused,Rejected]
    | insertRun =>
      have accepts : (∃ next, (RunsStmt.insertRun run insertNow).exec t = .ok next) ↔ run.id ∉ t.rows.map RunRow.id :=
        insert_ok_iff.trans (and_iff_left (insert_checks run insertNow))
      have ids : t.rows.map RunRow.id = db.rows.map RunRow.id := by
        rw [stands_early split (by simp [rank]) stands,List.map_map]
        exact List.map_congr_left fun row _ => rowAfter_id row
      rw [perform,execute_error_iff,accepts,ids,not_not,List.mem_map]
      rfl
  takes := by
    intro taken step rest t next split stands accepted
    cases step with
    | openDb | selectActive | createDir =>
      obtain rfl := guarded_ok accepted
      simpa [rowsAfter,rowAfter_snoc] using stands
    | cancelActive runId => exact (cancelActive_supersedes split).takes split (by simp [rank]) stands (execute_ok accepted)
    | cancelQueued => exact (cancelQueued_supersedes split).takes split (by simp [rank]) stands (execute_ok accepted)
    | insertRun =>
      rw [insert_rows (execute_ok accepted),stands_early split (by simp [rank]) stands]
      simp [rowsAfter,rowAfter_snoc]

end rows

section exactly

theorem create_rows {after : RunsTable} (created : create faults run cancelNow insertNow db = (after,.ok handle)) :
    after.rows = rowsAfter run cancelNow insertNow db (plan db run) := by
  rw [create_plan] at created
  obtain ⟨rfl,answered⟩ := Prod.mk.inj created
  apply applyAll_done (plan_foretold faults run cancelNow insertNow db)
  cases ended : (applyAll (perform faults run cancelNow insertNow) (plan db run) db).1 with
  | error error => rw [ended] at answered; cases answered
  | ok done => rfl

def Unresolved (repo refName : String) (row : RunRow) : Prop :=
  row.repo = repo ∧ row.refName = refName ∧ row.resolvedAt = none

-- The two statements of `cancel_existing` share the unresolved rows between
-- them.
theorem cancels_plan (member : row ∈ db.rows) : Cancels run (plan db run) row ↔ Unresolved run.repo run.refName row := by
  have queueing : Step.cancelQueued ∈ plan db run := by simp [plan]
  rw [Cancels,planned_active,active_row member]
  simp only [queueing,true_and,Queued,Unresolved]
  constructor
  · intro cancelled
    rcases cancelled with ⟨repo,refName,_,unresolved⟩ | ⟨repo,refName,_,unresolved⟩
    · exact ⟨repo,refName,unresolved⟩
    · exact ⟨repo,refName,unresolved⟩
  · intro ⟨repo,refName,unresolved⟩
    by_cases sent : row.dispatchedAt = none
    · exact .inr ⟨repo,refName,sent,unresolved⟩
    · exact .inl ⟨repo,refName,sent,unresolved⟩

-- What a create that succeeds changes, and what it leaves alone.
structure CreatesExactly (run : NewRun) (cancelNow : Int) (before after : RunsTable) : Prop where
  cancelled : ∀ runId row, before.row? runId = some row → Unresolved run.repo run.refName row →
    after.row? runId = some { row with resolvedAt := some cancelNow, outcome := some "superseded" }
  kept : ∀ runId row, before.row? runId = some row → ¬ Unresolved run.repo run.refName row → after.row? runId = some row
  added : after.keys = before.keys ++ [run.id]
  queued : ∃ row, after.row? run.id = some row ∧ row.repo = run.repo ∧ row.refName = run.refName ∧ row.sha = run.sha ∧
    row.runToken = run.runToken ∧ row.dispatchedAt = none ∧ row.resolvedAt = none ∧ row.outcome = none
  only : ∀ row ∈ after.rows, Unresolved run.repo run.refName row ↔ row.id = run.id

theorem create_exactly {before after : RunsTable} (created : create faults run cancelNow insertNow before = (after,.ok handle)) :
    CreatesExactly run cancelNow before after := by
  have rows : after.rows = before.rows.map (rowAfter run cancelNow (plan before run)) ++ [run.row insertNow] := by
    rw [create_rows created,rowsAfter,if_pos (by simp [plan])]
  have held : ∀ runId row, before.row? runId = some row → after.row? runId = some (rowAfter run cancelNow (plan before run) row) := by
    intro runId row found
    have member : rowAfter run cancelNow (plan before run) row ∈ after.rows := by
      rw [rows]
      exact List.mem_append_left _ (List.mem_map_of_mem (row?_mem found))
    have same : (rowAfter run cancelNow (plan before run) row).id = runId := (rowAfter_id row).trans (row?_key found)
    exact same ▸ row?_of_mem member
  have newest : run.row insertNow ∈ after.rows := by simp [rows]
  constructor
  · intro runId row found unresolved
    rw [held runId row found,rowAfter,if_pos ((cancels_plan (row?_mem found)).mpr unresolved)]
    rfl
  · intro runId row found other
    rw [held runId row found,rowAfter,if_neg (mt (cancels_plan (row?_mem found)).mp other)]
  · rw [Table.keys,Table.keys,rows,List.map_append,List.map_map]
    exact congrArg (· ++ [run.id]) (List.map_congr_left fun row _ => rowAfter_id row)
  · exact ⟨run.row insertNow,row?_of_mem newest,rfl,rfl,rfl,rfl,rfl,rfl,rfl⟩
  · intro row member
    constructor
    · intro unresolved
      rw [rows] at member
      rcases List.mem_append.mp member with old | new
      · obtain ⟨earlier,present,rfl⟩ := List.mem_map.mp old
        exfalso
        by_cases cancelled : Cancels run (plan before run) earlier
        · rw [rowAfter,if_pos cancelled] at unresolved
          cases unresolved.2.2
        · rw [rowAfter,if_neg cancelled] at unresolved
          exact cancelled ((cancels_plan present).mpr unresolved)
      · rw [List.mem_singleton.mp new]
        rfl
    · intro same
      have one : after.row? run.id = some row := same ▸ row?_of_mem member
      obtain rfl := Option.some.inj (one.symm.trans (row?_of_mem newest))
      exact ⟨rfl,rfl,rfl⟩

theorem create_changes (run : NewRun) (cancelNow insertNow : Int) (directory : Bool) (before after : RunsTable) (handle : Run)
    (created : RunsCalls.create run cancelNow insertNow directory before = (after,.ok handle)) :
    CreatesExactly run cancelNow before after := by
  rw [create_faultless] at created
  obtain ⟨rfl,answered⟩ := Prod.mk.inj created
  rcases ended : create (directoryOnly directory) run cancelNow insertNow before with ⟨next,error | made⟩
  · rw [ended] at answered
    cases answered
  · exact create_exactly ended

-- One run of the ref is being executed, another waits, and other rows are on
-- another ref and long resolved.
def busyRows : List RunRow :=
  [⟨"run-1","test.git","refs/heads/main","abc123",1,1,some 2,none,none,none,none⟩,
    ⟨"run-2","test.git","refs/heads/main","def456",3,3,none,none,none,some "token-2",none⟩,
    ⟨"run-3","test.git","refs/heads/dev","abc123",4,4,none,none,none,none,none⟩,
    ⟨"run-4","test.git","refs/heads/main","789abc",5,5,some 6,some 7,some "succeeded",none,none⟩]

def busy : RunsTable := ⟨busyRows,by decide,by decide⟩

def pushed : NewRun := ⟨"run-5","test.git","refs/heads/main","fed987",8,some "token-5"⟩

theorem create_changes_busy : CreatesExactly pushed 9 busy (RunsCalls.create pushed 9 9 true busy).1 := by
  have accepted : (RunsCalls.create pushed 9 9 true busy).2.isOk = true := by decide
  rcases created : RunsCalls.create pushed 9 9 true busy with ⟨after,error | handle⟩
  · rw [created] at accepted
    cases accepted
  · exact create_changes pushed 9 9 true busy after handle created

end exactly

end Quire.RunCreation
