import Quire.StepSystem
import Quire.RunLifecycle
import Quire.RunsCalls

namespace Quire.LifecycleConstraints
open KeyedTable RunsTable RunLifecycle RunsCalls StepSystem

-- All stamps of a row are at most a clock reading.
structure Settled (now : Int) (row : RunRow) : Prop where
  created : row.createdAt ≤ now
  dispatched : ∀ stamp ∈ row.dispatchedAt, stamp ≤ now
  resolved : ∀ stamp ∈ row.resolvedAt, stamp ≤ now

theorem Settled.later (settled : Settled earlier row) (clock : earlier ≤ now) : Settled now row where
  created := Int.le_trans settled.created clock
  dispatched := fun stamp set => Int.le_trans (settled.dispatched stamp set) clock
  resolved := fun stamp set => Int.le_trans (settled.resolved stamp set) clock

-- Superseded while it was queued, before the reading: `resolved_at` is set and
-- `dispatched_at` is still NULL.
def Overdue (now : Int) (row : RunRow) : Prop :=
  row.dispatchedAt = none ∧ ∃ stamp ∈ row.resolvedAt, stamp < now

theorem stamp_checks (valid : row.Checks) (settled : Settled now row) (allowed : outcome ∈ outcomes) :
    (row.stamp now outcome).Checks ↔ ¬ Overdue now row := by
  obtain ⟨_,_,_,_,_,created,dispatched,resolved,recorded,_,_⟩ := row
  obtain ⟨afterCreation,resolvedAfter,ordered,together,known⟩ := valid
  obtain ⟨createdBy,dispatchedBy,resolvedBy⟩ := settled
  cases dispatched <;> cases resolved <;> cases recorded <;>
    simp_all [RunRow.checks_iff,RunRow.stamp,Overdue]

theorem dispatch_checks (valid : row.Checks) (settled : Settled now row) :
    ({ row with dispatchedAt := coalesce row.dispatchedAt now } : RunRow).Checks ↔ ¬ Overdue now row := by
  obtain ⟨_,_,_,_,_,created,dispatched,resolved,recorded,_,_⟩ := row
  obtain ⟨afterCreation,resolvedAfter,ordered,together,known⟩ := valid
  obtain ⟨createdBy,dispatchedBy,resolvedBy⟩ := settled
  cases dispatched <;> cases resolved <;> cases recorded <;> simp_all [RunRow.checks_iff,Overdue]

theorem fetched_checks (valid : row.Checks) (settled : Settled now row) (queued : row.dispatchedAt = none) :
    ({ row with dispatchedAt := some now } : RunRow).Checks ↔ ¬ Overdue now row := by
  simpa [queued] using dispatch_checks valid settled

theorem cancelQueued_checks (valid : row.Checks) (settled : Settled now row) (queued : row.dispatchedAt = none)
    (unresolved : row.resolvedAt = none) :
    ({ row with resolvedAt := coalesce row.resolvedAt now, outcome := coalesce row.outcome "superseded" } :
      RunRow).Checks := by
  have blank := valid.together.mp unresolved
  simp [RunRow.checks_iff,queued,unresolved,blank,settled.created,outcomes]

def SettledBy (now : Int) (db : RunsTable) : Prop := ∀ row ∈ db.rows, Settled now row

-- The clock reading a statement carries.
def reading : RunsStmt → Option Int
  | .cancelActive now _ | .cancelQueued now _ _ | .insertRun _ now | .reconcileOrphans now
  | .dispatch now _ | .resolve now _ _ | .bootstrapFetched now _ => some now
  | .storeBootstrapData _ _ => none

theorem coalesce_le {column : Option Int} (held : ∀ stamp ∈ column, stamp ≤ now) (clock : value ≤ now) :
    ∀ stamp ∈ coalesce column value, stamp ≤ now := by
  intro stamp set
  cases column with
  | none => cases set; exact clock
  | some old => cases set; exact held old rfl

theorem stamp_settled (settled : Settled now row) (clock : value ≤ now) :
    Settled now (row.stamp value outcome) :=
  ⟨settled.created,coalesce_le settled.dispatched clock,coalesce_le settled.resolved clock⟩

theorem sets_settled (settled : Settled now row) (clock : ∀ stamp ∈ reading stmt, stamp ≤ now) :
    Settled now (stmt.sets row) := by
  cases stmt with
  | cancelActive reading runId => exact stamp_settled settled (clock _ rfl)
  | cancelQueued reading repo refName =>
    exact ⟨settled.created,settled.dispatched,coalesce_le settled.resolved (clock _ rfl)⟩
  | insertRun run reading => exact settled
  | reconcileOrphans reading => exact stamp_settled settled (clock _ rfl)
  | storeBootstrapData traceparent runId => exact ⟨settled.created,settled.dispatched,settled.resolved⟩
  | dispatch reading runId =>
    exact ⟨settled.created,coalesce_le settled.dispatched (clock _ rfl),settled.resolved⟩
  | resolve reading outcome runId => exact stamp_settled settled (clock _ rfl)
  | bootstrapFetched reading runId =>
    refine ⟨settled.created,?_,settled.resolved⟩
    intro stamp set
    cases set
    exact clock _ rfl

theorem exec_settled {db next : RunsTable} {stmt : RunsStmt} (settled : SettledBy now db)
    (clock : ∀ stamp ∈ reading stmt, stamp ≤ now) (accepted : stmt.exec db = .ok next) : SettledBy now next := by
  intro row member
  cases update : stmt.isInsert with
  | true =>
    cases stmt with
    | insertRun run stamp =>
      rw [insert_rows accepted] at member
      rcases List.mem_append.mp member with old | new
      · exact settled row old
      · rw [List.mem_singleton.mp new]
        exact ⟨clock stamp rfl,by simp [NewRun.row],by simp [NewRun.row]⟩
    | _ => cases update
  | false =>
    rw [exec_update update] at accepted
    rw [update_rows accepted] at member
    obtain ⟨old,present,rfl⟩ := List.mem_map.mp member
    by_cases chosen : stmt.selects old = true
    · simpa [chosen,RunsStmt.assignment] using sets_settled (settled old present) clock
    · simpa [chosen] using settled old present

theorem exec_absent {db next : RunsTable} {stmt : RunsStmt} (update : stmt.isInsert = false)
    (accepted : stmt.exec db = .ok next) (absent : db.row? runId = none) : next.row? runId = none := by
  rw [exec_update_row? update accepted,absent,Option.map_none]

-- `create` cancels only rows it has seen dispatched, so none of its stamps is
-- late, and its second UPDATE meets only rows with neither stamp.
theorem cancelActiveRuns_ok {db : RunsTable} (settled : SettledBy now db)
    (dispatched : ∀ runId ∈ ids, ∀ row, db.row? runId = some row → row.dispatchedAt ≠ none) :
    ∃ next, cancelActiveRuns now ids db = (next,.ok ()) ∧ SettledBy now next ∧
      ∀ runId, db.row? runId = none → next.row? runId = none := by
  induction ids generalizing db with
  | nil => exact ⟨db,rfl,settled,fun _ absent => absent⟩
  | cons runId rest ih =>
    have fits : ∀ row, db.row? runId = some row →
        (((RunsStmt.cancelActive now runId).sets row).Checks ↔ ¬ Overdue now row) := fun row found =>
      stamp_checks (row_checks found) (settled row (row?_mem found)) (by decide)
    obtain ⟨next,accepted⟩ := (accepts_row_iff (.cancelActive now runId) rfl (by simp [RunsStmt.selects]) fits).mpr
      fun row found overdue => dispatched runId (by simp) row found overdue.1
    have kept : ∀ id ∈ rest, ∀ row, next.row? id = some row → row.dispatchedAt ≠ none := by
      intro id member row found
      obtain ⟨old,present,forward⟩ := exec_origin rfl accepted found
      exact forward.dispatched (dispatched id (List.mem_cons_of_mem _ member) old present)
    obtain ⟨last,ran,lastSettled,absent⟩ := ih (exec_settled settled (by simp [reading]) accepted) kept
    refine ⟨last,?_,lastSettled,fun id missing => absent id (exec_absent rfl accepted missing)⟩
    simp only [cancelActiveRuns,accepted,ran]

theorem cancelExisting_ok {db : RunsTable} (repo refName : String) (settled : SettledBy now db) :
    ∃ next, cancelExisting repo refName now db = (next,.ok ()) ∧ SettledBy now next ∧
      ∀ runId, db.row? runId = none → next.row? runId = none := by
  have dispatched : ∀ runId ∈ activeIds db repo refName, ∀ row, db.row? runId = some row →
      row.dispatchedAt ≠ none := by
    intro runId member row found
    obtain ⟨active,same,_,_,sent,_⟩ := mem_activeIds.mp member
    rw [found] at same
    cases same
    exact sent
  obtain ⟨middle,ran,middleSettled,middleAbsent⟩ := cancelActiveRuns_ok settled dispatched
  have fits : ∀ row ∈ middle.rows, (RunsStmt.cancelQueued now repo refName).selects row = true →
      ((RunsStmt.cancelQueued now repo refName).sets row).Checks := by
    intro row member chosen
    simp only [RunsStmt.selects,Bool.and_eq_true,Option.isNone_iff_eq_none] at chosen
    exact cancelQueued_checks (middle.checked row member) (middleSettled row member) chosen.1.2 chosen.2
  obtain ⟨next,accepted⟩ := (accepts_iff rfl).mpr fits
  refine ⟨next,by simp only [cancelExisting,ran,accepted],exec_settled middleSettled (by simp [reading]) accepted,?_⟩
  exact fun runId missing => exec_absent rfl accepted (middleAbsent runId missing)

def sqlError : Except RunsError α → Option ConstraintError
  | .error (.sql error) => some error
  | _ => none

def apiSqlError : Except ApiError α → Option ConstraintError
  | .error (.db error) => some error
  | _ => none

theorem SettledBy.later (settled : SettledBy earlier db) (clock : earlier ≤ now) : SettledBy now db :=
  fun row member => (settled row member).later clock

theorem create_ok {db : RunsTable} (run : NewRun) (directory : Bool) (settled : SettledBy cancelNow db)
    (clock : cancelNow ≤ insertNow) (fresh : db.row? run.id = none) :
    sqlError (create run cancelNow insertNow directory db).2 = none ∧
      SettledBy insertNow (create run cancelNow insertNow directory db).1 := by
  obtain ⟨middle,ran,middleSettled,absent⟩ :=
    cancelExisting_ok run.repo run.refName settled
  have unused : run.id ∉ middle.rows.map runsSchema.key := row?_none_iff.mp (absent run.id fresh)
  have valid : (run.row insertNow).Checks := by simp [RunRow.checks_iff,NewRun.row]
  obtain ⟨last,inserted⟩ := insert_ok_iff.mpr (show runsSchema.key (run.row insertNow) ∉ _ ∧ _ from ⟨unused,valid⟩)
  have accepted : (RunsStmt.insertRun run insertNow).exec middle = .ok last := inserted
  have lastSettled := exec_settled (middleSettled.later clock) (by simp [reading]) accepted
  cases directory <;> simpa [create,ran,accepted,sqlError] using lastSettled

-- The five calls of the lifecycle, each run as a whole, with the clock
-- readings it takes.
inductive Operation where
  | create (run : NewRun) (cancelNow insertNow : Int) (directory : Bool)
  | dispatch (self : Run) (now : Int)
  | bootstrap (runId : String) (now : Int)
  | resolve (self : Run) (outcome : String) (now : Int)
  | reconcile (now : Int)

def Operation.readings : Operation → List Int
  | .create _ cancelNow insertNow _ => [cancelNow,insertNow]
  | .dispatch _ now | .bootstrap _ now | .resolve _ _ now | .reconcile now => [now]

-- The table a call leaves and the constraint error it fails with, if any.
def Operation.perform (db : RunsTable) : Operation → RunsTable × Option ConstraintError
  | .create run cancelNow insertNow directory =>
    let (next,result) := RunsCalls.create run cancelNow insertNow directory db
    (next,sqlError result)
  | .dispatch self now => let (next,result) := self.dispatch now db; (next,sqlError result)
  | .bootstrap runId now => let (next,result) := getBootstrap runId now db; (next,apiSqlError result)
  | .resolve self outcome now => let (next,result) := self.resolve outcome now db; (next,sqlError result)
  | .reconcile now => let (next,result) := reconcileOrphans now db; (next,sqlError result)

-- A create mints an id no row has, and a resolve passes one of the outcomes.
def Operation.Admissible (db : RunsTable) : Operation → Prop
  | .create run _ _ _ => db.row? run.id = none
  | .resolve _ outcome _ => outcome ∈ outcomes
  | _ => True

instance (db : RunsTable) : (op : Operation) → Decidable (op.Admissible db)
  | .create run _ _ _ => inferInstanceAs (Decidable (db.row? run.id = none))
  | .resolve _ outcome _ => inferInstanceAs (Decidable (outcome ∈ outcomes))
  | .dispatch _ _ | .bootstrap _ _ | .reconcile _ => .isTrue trivial

def Performs (before : RunsTable) (op : Operation) (after : RunsTable) : Prop :=
  op.Admissible before ∧ (op.perform before).1 = after

-- The handle refuses the call before any statement, or the row is not one that
-- was superseded while queued at an earlier reading.
def Operation.Stampable (db : RunsTable) : Operation → Prop
  | .create _ _ _ _ | .reconcile _ => True
  | .dispatch self now =>
    (self.dispatched || self.resolved) = true ∨ ∀ row, db.row? self.id = some row → ¬ Overdue now row
  | .resolve self _ now => self.resolved = true ∨ ∀ row, db.row? self.id = some row → ¬ Overdue now row
  | .bootstrap runId now => ∀ row, db.row? runId = some row → ¬ Overdue now row

-- The three calls that stamp one row by its id issue a single statement, and
-- it is refused exactly on an overdue row.
theorem stamps_row {db : RunsTable} (stmt : RunsStmt) (runId : String) (update : stmt.isInsert = false)
    (selects : ∀ row, stmt.selects row = true ↔ row.id = runId) (clock : ∀ stamp ∈ reading stmt, stamp ≤ now)
    (settled : SettledBy now db)
    (fits : ∀ row, db.row? runId = some row → ((stmt.sets row).Checks ↔ ¬ Overdue now row)) :
    (∃ next, stmt.exec db = .ok next ∧ SettledBy now next ∧ ∀ row, db.row? runId = some row → ¬ Overdue now row) ∨
    ∃ error, stmt.exec db = .error error ∧ ¬ ∀ row, db.row? runId = some row → ¬ Overdue now row := by
  have verdict := accepts_row_iff stmt update selects fits
  cases executed : stmt.exec db with
  | ok next => exact .inl ⟨next,rfl,exec_settled settled clock executed,verdict.mp ⟨next,executed⟩⟩
  | error error => exact .inr ⟨error,rfl,mt verdict.mpr (by simp [executed])⟩

-- What one call does to a settled table, and when it fails with a constraint
-- error.
structure Meets (now : Int) (db : RunsTable) (op : Operation) : Prop where
  settled : SettledBy now (op.perform db).1
  accepted : (op.perform db).2 = none ↔ op.Stampable db

theorem dispatch_meets {db : RunsTable} (self : Run) (settled : SettledBy now db) :
    Meets now db (.dispatch self now) := by
  by_cases refused : (self.dispatched || self.resolved) = true
  · exact ⟨by simpa [Operation.perform,Run.dispatch,refused] using settled,
      by simp [Operation.perform,Run.dispatch,Operation.Stampable,refused,sqlError]⟩
  · rcases stamps_row (.dispatch now self.id) self.id rfl (by simp [RunsStmt.selects]) (by simp [reading]) settled
      (fun row found => dispatch_checks (row_checks found) (settled row (row?_mem found))) with
      ⟨next,executed,nextSettled,fits⟩ | ⟨error,executed,unfit⟩
    · exact ⟨by simpa [Operation.perform,Run.dispatch,refused,executed] using nextSettled,
        iff_of_true (by simp [Operation.perform,Run.dispatch,refused,executed,sqlError]) (.inr fits)⟩
    · exact ⟨by simpa [Operation.perform,Run.dispatch,refused,executed] using settled,
        iff_of_false (by simp [Operation.perform,Run.dispatch,refused,executed,sqlError])
          fun stampable => unfit (stampable.resolve_left refused)⟩

theorem resolve_meets {db : RunsTable} (self : Run) (settled : SettledBy now db) (allowed : outcome ∈ outcomes) :
    Meets now db (.resolve self outcome now) := by
  by_cases refused : self.resolved = true
  · exact ⟨by simpa [Operation.perform,Run.resolve,refused] using settled,
      by simp [Operation.perform,Run.resolve,Operation.Stampable,refused,sqlError]⟩
  · rcases stamps_row (.resolve now outcome self.id) self.id rfl (by simp [RunsStmt.selects]) (by simp [reading])
      settled (fun row found => stamp_checks (row_checks found) (settled row (row?_mem found)) allowed) with
      ⟨next,executed,nextSettled,fits⟩ | ⟨error,executed,unfit⟩
    · exact ⟨by simpa [Operation.perform,Run.resolve,refused,executed] using nextSettled,
        iff_of_true (by simp [Operation.perform,Run.resolve,refused,executed,sqlError]) (.inr fits)⟩
    · exact ⟨by simpa [Operation.perform,Run.resolve,refused,executed] using settled,
        iff_of_false (by simp [Operation.perform,Run.resolve,refused,executed,sqlError])
          fun stampable => unfit (stampable.resolve_left refused)⟩

-- A row already dispatched answers `Gone` and is never overdue.
theorem bootstrap_meets {db : RunsTable} (runId : String) (settled : SettledBy now db) :
    Meets now db (.bootstrap runId now) := by
  cases found : db.row? runId with
  | none =>
    exact ⟨by simpa [Operation.perform,getBootstrap,selectBootstrap,found] using settled,
      by simp [Operation.perform,getBootstrap,selectBootstrap,found,Operation.Stampable,apiSqlError]⟩
  | some row =>
    cases sent : row.dispatchedAt with
    | some stamp =>
      exact ⟨by simpa [Operation.perform,getBootstrap,selectBootstrap,found,sent] using settled,
        by simp [Operation.perform,getBootstrap,selectBootstrap,found,sent,Operation.Stampable,apiSqlError,Overdue]⟩
    | none =>
      have fits : ∀ other, db.row? runId = some other →
          (((RunsStmt.bootstrapFetched now runId).sets other).Checks ↔ ¬ Overdue now other) := by
        intro other same
        have queued : other.dispatchedAt = none := by
          rw [found] at same
          cases same
          exact sent
        exact fetched_checks (row_checks same) (settled other (row?_mem same)) queued
      rcases stamps_row (.bootstrapFetched now runId) runId rfl (by simp [RunsStmt.selects]) (by simp [reading])
        settled fits with ⟨next,executed,nextSettled,fresh⟩ | ⟨error,executed,unfit⟩
      · exact ⟨by simpa [Operation.perform,getBootstrap,selectBootstrap,found,sent,executed] using nextSettled,
          iff_of_true (by simp [Operation.perform,getBootstrap,selectBootstrap,found,sent,executed,apiSqlError]) fresh⟩
      · exact ⟨by simpa [Operation.perform,getBootstrap,selectBootstrap,found,sent,executed] using settled,
          iff_of_false
            (by simp [Operation.perform,getBootstrap,selectBootstrap,found,sent,executed,apiSqlError]) unfit⟩

-- An orphan is unresolved, so it is never overdue.
theorem reconcile_meets {db : RunsTable} (settled : SettledBy now db) : Meets now db (.reconcile now) := by
  have fits : ∀ row ∈ db.rows, (RunsStmt.reconcileOrphans now).selects row = true →
      ((RunsStmt.reconcileOrphans now).sets row).Checks := by
    intro row member chosen
    have unresolved : row.resolvedAt = none := by simpa [RunsStmt.selects] using chosen
    apply (stamp_checks (db.checked row member) (settled row member) (by decide)).mpr
    intro stamped
    obtain ⟨_,stamp,set,_⟩ := stamped
    simp [unresolved] at set
  obtain ⟨next,executed⟩ := (accepts_iff rfl).mpr fits
  have nextSettled := exec_settled settled (by simp [reading]) executed
  exact ⟨by simpa [Operation.perform,reconcileOrphans,executed] using nextSettled,
    iff_of_true (by simp [Operation.perform,reconcileOrphans,executed,sqlError]) trivial⟩

theorem create_meets {db : RunsTable} (directory : Bool) (settled : SettledBy cancelNow db)
    (clock : cancelNow ≤ insertNow) (fresh : db.row? run.id = none) :
    Meets insertNow db (.create run cancelNow insertNow directory) :=
  have ⟨clear,settled⟩ := create_ok run directory settled clock fresh
  ⟨settled,iff_of_true clear trivial⟩

theorem operation_meets {db : RunsTable} {op : Operation} (admissible : op.Admissible db)
    (clock : op.readings.Pairwise (· ≤ ·)) (settled : ∀ now ∈ op.readings, SettledBy now db) :
    ∃ now ∈ op.readings, Meets now db op := by
  cases op with
  | create run cancelNow insertNow directory =>
    exact ⟨insertNow,by simp [Operation.readings],
      create_meets directory (settled _ (by simp [Operation.readings])) (by simpa [Operation.readings] using clock)
        admissible⟩
  | dispatch self now => exact ⟨now,by simp [Operation.readings],dispatch_meets self (settled _ (by simp [Operation.readings]))⟩
  | bootstrap runId now => exact ⟨now,by simp [Operation.readings],bootstrap_meets runId (settled _ (by simp [Operation.readings]))⟩
  | resolve self outcome now =>
    exact ⟨now,by simp [Operation.readings],resolve_meets self (settled _ (by simp [Operation.readings])) admissible⟩
  | reconcile now => exact ⟨now,by simp [Operation.readings],reconcile_meets (settled _ (by simp [Operation.readings]))⟩

def readings (ops : List Operation) : List Int := ops.flatMap Operation.readings

-- A table reached by a history is settled by every reading not before its last.
theorem history_settled (history : Runs Performs .empty ops db) (clock : (readings ops).Pairwise (· ≤ ·))
    (bound : ∀ stamp ∈ readings ops, stamp ≤ now) : SettledBy now db := by
  induction history generalizing now with
  | nil => intro row member; cases member
  | @step earlier before op after prior step ih =>
    simp only [readings,List.flatMap_append,List.flatMap_cons,List.flatMap_nil,List.append_nil,
      List.pairwise_append,List.mem_append] at clock bound ih
    obtain ⟨admissible,rfl⟩ := step
    obtain ⟨last,member,meets⟩ := operation_meets admissible clock.2.1 fun now member =>
      ih clock.1 fun stamp earlier => clock.2.2 stamp earlier now member
    exact meets.settled.later (bound last (.inr member))

theorem performs_functional : Functional Performs :=
  fun _ _ _ _ left right => left.2.symm.trans right.2

theorem lifecycle_writes_accepted (ops : List Operation) (db : RunsTable)
    (history : Runs Performs .empty ops db) (clock : (readings ops).Pairwise (· ≤ ·)) :
    ∀ earlier op later before, ops = earlier ++ op :: later → Runs Performs .empty earlier before →
      ((op.perform before).2 = none ↔ op.Stampable before) := by
  intro earlier op later before split reached
  subst split
  obtain ⟨middle,prior,rest⟩ := history.append_inv
  cases reached.functional performs_functional prior
  obtain ⟨_,step,_⟩ := rest.cons_inv
  simp only [readings,List.flatMap_append,List.flatMap_cons,List.pairwise_append,List.mem_append] at clock
  obtain ⟨_,_,meets⟩ := operation_meets step.1 clock.2.1.1 fun now member =>
    history_settled reached clock.1 fun stamp earlier => clock.2.2 stamp earlier now (.inl member)
  exact meets.accepted

-- The push of run-2 supersedes run-1 while it is queued; one tick later the
-- worker of run-1 resolves it.
def supersededWhileQueued : List Operation :=
  [.create ⟨"run-1","test.git","refs/heads/main","abc123",0,some "token-1"⟩ 0 0 true,
    .create ⟨"run-2","test.git","refs/heads/main","def456",1,some "token-2"⟩ 1 1 true]

def lateResolve : Operation := .resolve ⟨"run-1",true,false⟩ "succeeded" 2

def performAll (ops : List Operation) : RunsTable := ops.foldl (fun db op => (op.perform db).1) .empty

theorem lifecycle_writes_accepted_unsuperseded :
    (lateResolve.perform (performAll (supersededWhileQueued.take 1))).2 = none := by
  have history : Runs Performs .empty ([] ++ supersededWhileQueued.take 1) (performAll (supersededWhileQueued.take 1)) :=
    .step .nil ⟨rfl,rfl⟩
  have queued : (performAll (supersededWhileQueued.take 1)).row? "run-1" = some
      ⟨"run-1","test.git","refs/heads/main","abc123",0,0,none,none,none,some "token-1",none⟩ := by decide
  refine (lifecycle_writes_accepted ([] ++ supersededWhileQueued.take 1 ++ [lateResolve]) _
    (.step history ⟨by decide,rfl⟩) (by decide) _ lateResolve [] _ rfl history).mpr (.inr fun row found => ?_)
  cases queued.symm.trans found
  simp [Overdue]

theorem late_resolve_refused : ¬ ∀ ops db op, Runs Performs .empty ops db → op.Admissible db →
    (readings (ops ++ [op])).Pairwise (· ≤ ·) → (op.perform db).2 = none := by
  intro claim
  have first : Runs Performs .empty ([] ++ supersededWhileQueued.take 1) (performAll (supersededWhileQueued.take 1)) :=
    .step .nil ⟨rfl,rfl⟩
  have history : Runs Performs .empty supersededWhileQueued (performAll supersededWhileQueued) :=
    .step first ⟨by decide,rfl⟩
  have accepted := claim _ _ lateResolve history (by decide) (by decide)
  exact absurd accepted (by decide)

end Quire.LifecycleConstraints
