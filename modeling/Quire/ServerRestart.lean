import Quire.RunsServer

namespace Quire.ServerRestart
open KeyedTable RunsTable RunLifecycle RunsCalls RunsServer StepSystem

-- The database outlives the server; the calls under way do not.
structure Host where
  db : RunsTable
  calls : Option (List Call)

def Host.start : Host := ⟨.empty,none⟩

inductive Event where
  | start (now : Int)
  | stop
  | serve (action : Action)

-- `server::run` reconciles before it listens or serves, and does not come up
-- when the statement fails. Nothing else reconciles. A stop is a crash as well.
def Host.act (s : Host) : Event → Option Host
  | .start now =>
    match s.calls with
    | some _ => none
    | none =>
      match reconcileOrphans now s.db with
      | (db,.ok ()) => some ⟨db,some []⟩
      | (db,.error _) => some ⟨db,none⟩
  | .stop => s.calls.map fun _ => ⟨s.db,none⟩
  | .serve (.begin .reconcile) => none
  | .serve action => s.calls.bind fun calls => (Server.act ⟨s.db,calls⟩ action).map fun next => ⟨next.db,some next.calls⟩

def Lives (before : Host) (event : Event) (after : Host) : Prop := before.act event = some after

-- The row as the start leaves it.
def reconciled (now : Int) (row : RunRow) : RunRow := if row.resolvedAt.isNone then row.stamp now "failed-orphaned" else row

-- The call has read the bootstrap of this run.
def Call.fetched (runId : String) : Call → Prop
  | .bootstrapFetched _ id _ | .bootstrapDone _ id (.ok _) => id = runId
  | _ => False

-- What holds of a server since its start on a database: the runs it found stay
-- as they were left then, and the others are its own.
structure Since (found : RunsTable) (now : Int) (s : Server) : Prop where
  old : ∀ runId row, found.row? runId = some row → ∃ final, s.db.row? runId = some final ∧ Forward (reconciled now row) final
  new : ∀ runId row, s.db.row? runId = some row → found.row? runId = none → ∃ run, .createDone run (.ok ()) ∈ s.calls ∧ run.id = runId
  handed : ∀ runId row, found.row? runId = some row → ∀ call ∈ s.calls, Call.fetched runId call →
    row.resolvedAt ≠ none ∧ row.dispatchedAt = none

section Starts
variable {found : RunsTable} {now : Int} {s : Server}

theorem reconciled_resolved (now : Int) (row : RunRow) : (reconciled now row).resolvedAt = some (row.resolvedAt.getD now) := by
  unfold reconciled
  cases set : row.resolvedAt <;> simp [RunRow.stamp,set]

theorem reconciled_outcome (now : Int) (valid : row.Checks) : (reconciled now row).outcome = some (row.outcome.getD "failed-orphaned") := by
  unfold reconciled
  cases set : row.resolvedAt with
  | none => simp [RunRow.stamp,coalesce]
  | some stamp =>
    obtain ⟨outcome,recorded⟩ := Option.ne_none_iff_exists'.mp (mt valid.together.mpr (by simp [set]))
    simp [recorded]

theorem reconciled_dispatched (unresolved : row.resolvedAt = none ∨ row.dispatchedAt ≠ none) : (reconciled now row).dispatchedAt ≠ none := by
  unfold reconciled
  split
  · exact coalesce_ne_none _ _
  · rename_i set
    rcases unresolved with none | dispatched
    · rw [none] at set
      exact absurd rfl set
    · exact dispatched

theorem reconcile_rows (accepted : (RunsStmt.reconcileOrphans now).exec found = .ok next) (runId : String) :
    next.row? runId = (found.row? runId).map (reconciled now) := exec_update_row? rfl accepted

-- The server comes up unless an open run is from the future of its clock.
theorem reconcile_ok_iff : (reconcileOrphans now found).2 = .ok () ↔
    ∀ row ∈ found.rows, row.resolvedAt = none → row.createdAt ≤ now ∧ ∀ stamp ∈ row.dispatchedAt, stamp ≤ now := by
  have verdict : (reconcileOrphans now found).2 = .ok () ↔ ∃ next, (RunsStmt.reconcileOrphans now).exec found = .ok next := by
    unfold reconcileOrphans
    cases (RunsStmt.reconcileOrphans now).exec found <;> simp
  rw [verdict,accepts_iff rfl]
  refine forall₂_congr fun row member => ?_
  have chosen : (RunsStmt.reconcileOrphans now).selects row = true ↔ row.resolvedAt = none := Option.isNone_iff_eq_none
  rw [chosen]
  refine forall_congr' fun unresolved => ?_
  have valid := found.checked row member
  have blank : row.outcome = none := valid.together.mp unresolved
  constructor
  · intro checks
    refine ⟨checks.resolved now (by simp [RunsStmt.sets,RunRow.stamp,unresolved]),fun stamp sent => ?_⟩
    exact checks.ordered now (by simp [RunsStmt.sets,RunRow.stamp,unresolved]) stamp
      (by simp [RunsStmt.sets,RunRow.stamp,Option.mem_def.mp sent])
  · intro timely
    obtain ⟨created,ordered⟩ := timely
    constructor
    · intro stamp sent
      cases dispatched : row.dispatchedAt with
      | none => simp_all [RunsStmt.sets,RunRow.stamp]
      | some other =>
        have same : other = stamp := by simpa [RunsStmt.sets,RunRow.stamp,dispatched] using sent
        exact valid.dispatched stamp (by rw [dispatched,same]; rfl)
    · simpa [RunsStmt.sets,RunRow.stamp,unresolved] using created
    · intro resolvedAt stamped dispatchedAt sent
      have last : resolvedAt = now := by simpa [RunsStmt.sets,RunRow.stamp,unresolved,eq_comm] using stamped
      subst last
      cases dispatched : row.dispatchedAt with
      | none =>
        have same : resolvedAt = dispatchedAt := by simpa [RunsStmt.sets,RunRow.stamp,dispatched] using sent
        exact Int.le_of_eq same.symm
      | some other =>
        have same : other = dispatchedAt := by simpa [RunsStmt.sets,RunRow.stamp,dispatched] using sent
        exact ordered dispatchedAt (by rw [dispatched,same]; rfl)
    · simp [RunsStmt.sets,RunRow.stamp]
    · simp [RunsStmt.sets,RunRow.stamp,blank,outcomes]

theorem start_since (accepted : (RunsStmt.reconcileOrphans now).exec found = .ok next) : Since found now ⟨next,[]⟩ where
  old := by
    intro runId row there
    exact ⟨reconciled now row,by rw [reconcile_rows accepted,there]; rfl,.refl _⟩
  new := by
    intro runId row there absent
    rw [reconcile_rows accepted,absent] at there
    cases there
  handed := fun _ _ _ _ member => nomatch member

end Starts

section Calls
variable {call next : Call} {db : RunsTable}

theorem insert_call (issued : call.statement now = some (.insertRun run stamp)) : call = .createInsert run := by
  unfold Call.statement at issued
  split at issued <;> first | cases issued | (split at issued <;> cases issued) | rfl
  rfl

theorem reads_fetched (ran : call.reads now db = some next) (fetched : Call.fetched runId next) :
    ∃ row, db.row? runId = some row ∧ row.dispatchedAt = none := by
  unfold Call.reads at ran
  split at ran
  · cases ran; exact fetched.elim
  · split at ran <;> cases ran <;> exact fetched.elim
  · split at ran
    · rename_i selected
      cases ran
      obtain rfl := fetched
      unfold selectBootstrap at selected
      split at selected
      · cases selected
      · rename_i row there
        split at selected
        · cases selected
        · rename_i undispatched
          exact ⟨row,there,by simpa using undispatched⟩
    · cases ran; exact fetched.elim
  · cases ran; exact fetched.elim
  · cases ran; exact fetched.elim
  · cases ran

theorem accepted_fetched (fetched : Call.fetched runId call.accepted) : Call.fetched runId call := by
  unfold Call.accepted at fetched
  split at fetched <;> first | exact fetched | exact fetched.elim

theorem refused_fetched : ¬ Call.fetched runId (call.refused error) := by
  unfold Call.refused
  split <;> exact fun fetched => fetched

end Calls

section Steps
variable {found : RunsTable} {now : Int} {before after : Server} {action : Action}

theorem forward_row (step : Acts before action after) (there : before.db.row? runId = some row) :
    ∃ next, after.db.row? runId = some next ∧ Forward row next := step.forward runId row there

-- A finished create stays in the list.
theorem done_kept (step : Acts before action after) (done : .createDone run result ∈ before.calls) : .createDone run result ∈ after.calls := by
  cases action with
  | begin call =>
    rw [(acts_begin step).2]
    exact List.mem_append_left _ done
  | advance index reading =>
    obtain ⟨call,held,advanced⟩ := acts_advance step
    obtain ⟨place,bound,same⟩ := List.getElem_of_mem done
    have there : before.calls[place]? = some (.createDone run result) := by rw [List.getElem?_eq_getElem bound,same]
    have apart : index ≠ place := by
      rintro rfl
      cases held.symm.trans there
      cases advanced with
      | read _ ran _ => cases ran
      | wrote issued _ _ | refused issued _ _ => cases issued
    have kept : ∀ next, .createDone run result ∈ before.calls.set index next := fun next =>
      List.mem_of_getElem? ((List.getElem?_set_ne apart).trans there)
    cases advanced with
    | read _ _ same => rw [same]; exact kept _
    | wrote _ _ same => rw [same]; exact kept _
    | refused _ _ same => rw [same]; exact kept _

-- A row that was not there is that of a create that has just finished.
theorem enters_done (step : Acts before action after) (absent : before.db.row? runId = none) (there : after.db.row? runId = some row) :
    ∃ run, .createDone run (.ok ()) ∈ after.calls ∧ run.id = runId := by
  have unchanged : after.db = before.db → False := fun same => by
    rw [same,absent] at there
    cases there
  cases action with
  | begin call => exact (unchanged (by rw [(acts_begin step).2])).elim
  | advance index reading =>
    obtain ⟨call,held,advanced⟩ := acts_advance step
    have bound := (List.getElem?_eq_some_iff.mp held).1
    cases advanced with
    | read _ _ result => exact (unchanged (by rw [result])).elim
    | refused _ _ result => exact (unchanged (by rw [result])).elim
    | @wrote stmt db issued accepted result =>
      rw [result] at there
      cases update : stmt.isInsert with
      | false =>
        obtain ⟨old,was,_⟩ := exec_origin update accepted there
        cases absent.symm.trans was
      | true =>
        cases stmt with
        | insertRun run stamp =>
          rw [exec_insert_row? accepted] at there
          split at there
          · rename_i same
            obtain rfl := insert_call issued
            exact ⟨run,by rw [result]; exact List.mem_set bound _,same.symm⟩
          · cases absent.symm.trans there
        | _ => cases update

-- What a call has read it read from a row that was not dispatched.
theorem fetched_cases (step : Acts before action after) (member : call ∈ after.calls) (fetched : Call.fetched runId call) :
    (∃ earlier ∈ before.calls, Call.fetched runId earlier) ∨ ∃ row, before.db.row? runId = some row ∧ row.dispatchedAt = none := by
  cases action with
  | begin other =>
    obtain ⟨starts,same⟩ := acts_begin step
    rw [same] at member
    rcases List.mem_append.mp member with old | new
    · exact .inl ⟨call,old,fetched⟩
    · rw [List.mem_singleton.mp new] at fetched
      cases other <;> first | exact fetched.elim | cases starts
  | advance index reading =>
    obtain ⟨earlier,held,advanced⟩ := acts_advance step
    have there := List.mem_of_getElem? held
    cases advanced with
    | read _ ran same =>
      rw [same] at member
      rcases List.mem_or_eq_of_mem_set member with old | rfl
      · exact .inl ⟨call,old,fetched⟩
      · exact .inr (reads_fetched ran fetched)
    | wrote _ _ same =>
      rw [same] at member
      rcases List.mem_or_eq_of_mem_set member with old | rfl
      · exact .inl ⟨call,old,fetched⟩
      · exact .inl ⟨earlier,there,accepted_fetched fetched⟩
    | refused _ _ same =>
      rw [same] at member
      rcases List.mem_or_eq_of_mem_set member with old | rfl
      · exact .inl ⟨call,old,fetched⟩
      · exact (refused_fetched fetched).elim

theorem since_step (since : Since found now before) (step : Acts before action after) : Since found now after where
  old := by
    intro runId row there
    obtain ⟨middle,present,first⟩ := since.old runId row there
    obtain ⟨final,last,second⟩ := forward_row step present
    exact ⟨final,last,first.trans second⟩
  new := by
    intro runId row there absent
    cases was : before.db.row? runId with
    | none => exact enters_done step was there
    | some old =>
      obtain ⟨run,done,same⟩ := since.new runId old was absent
      exact ⟨run,done_kept step done,same⟩
  handed := by
    intro runId row there call member fetched
    rcases fetched_cases step member fetched with ⟨earlier,inside,was⟩ | ⟨read,present,undispatched⟩
    · exact since.handed runId row there earlier inside was
    · obtain ⟨middle,same,forward⟩ := since.old runId row there
      cases present.symm.trans same
      have queued : ¬ (row.resolvedAt = none ∨ row.dispatchedAt ≠ none) := fun open_ =>
        forward.dispatched (reconciled_dispatched open_) undispatched
      exact ⟨fun none => queued (.inl none),Classical.byContradiction fun sent => queued (.inr sent)⟩

end Steps

section Lives
variable {s before after : Host} {events : List Event}

inductive Change (before : Host) (event : Event) (after : Host) : Prop where
  | comesUp (starts : event = .start now) (down : before.calls = none) (accepted : (RunsStmt.reconcileOrphans now).exec before.db = .ok next)
      (result : after = ⟨next,some []⟩)
  | staysDown (starts : event = .start now) (down : before.calls = none)
      (rejected : (RunsStmt.reconcileOrphans now).exec before.db = .error error) (result : after = ⟨before.db,none⟩)
  | stops (stopping : event = .stop) (result : after = ⟨before.db,none⟩)
  | serves (serving : event = .serve action) (up : before.calls = some calls) (step : Acts ⟨before.db,calls⟩ action next)
      (result : after = ⟨next.db,some next.calls⟩)

theorem lives_change (step : Lives before event after) : Change before event after := by
  unfold Lives Host.act at step
  split at step
  · split at step
    · cases step
    · rename_i down
      unfold reconcileOrphans at step
      cases executed : (RunsStmt.reconcileOrphans _).exec before.db with
      | ok next =>
        rw [executed] at step
        cases step
        exact .comesUp rfl down executed rfl
      | error error =>
        rw [executed] at step
        cases step
        exact .staysDown rfl down executed rfl
  · obtain ⟨calls,_,rfl⟩ := Option.map_eq_some_iff.mp step
    exact .stops rfl rfl
  · cases step
  · obtain ⟨calls,up,step⟩ := Option.bind_eq_some_iff.mp step
    obtain ⟨next,taken,rfl⟩ := Option.map_eq_some_iff.mp step
    exact .serves rfl up taken rfl

-- A server that is up has been serving since its start.
theorem lives_since (path : Runs Lives Host.start events s) (up : s.calls = some calls) :
    ∃ earlier now later found next, events = earlier ++ .start now :: later ∧ Runs Lives Host.start earlier ⟨found,none⟩ ∧
      (∀ event ∈ later, ∃ action, event = .serve action) ∧ (RunsStmt.reconcileOrphans now).exec found = .ok next ∧
      Since found now ⟨s.db,calls⟩ := by
  generalize origin : Host.start = first at path
  induction path generalizing calls with
  | nil =>
    subst origin
    cases up
  | @step earlier middle event after prior step ih =>
    cases lives_change step with
    | comesUp starts down accepted result =>
      subst result starts
      cases up
      obtain ⟨db,_⟩ := middle
      cases down
      exact ⟨earlier,_,[],db,_,rfl,prior,nofun,accepted,start_since accepted⟩
    | staysDown _ _ _ result | stops _ result =>
      subst result
      cases up
    | @serves action calls next serving was acts result =>
      subst result serving
      cases up
      obtain ⟨first,now,later,found,last,rfl,reached,serving,accepted,since⟩ := ih was
      refine ⟨first,now,later ++ [.serve action],found,last,by simp,reached,?_,accepted,since_step since acts⟩
      intro event member
      rcases List.mem_append.mp member with old | new
      · exact serving event old
      · exact ⟨_,List.mem_singleton.mp new⟩

-- A server comes up unless its clock is behind an open run. While it is up the
-- runs it found are over and stay as they ended, none of those it ended is
-- handed out, and the open runs are of its own creation.
theorem restart_settles :
    (∀ found now after, Lives ⟨found,none⟩ (.start now) after → (after.calls = some [] ↔
      ∀ row ∈ found.rows, row.resolvedAt = none → row.createdAt ≤ now ∧ ∀ stamp ∈ row.dispatchedAt, stamp ≤ now)) ∧
    ∀ events s calls, Runs Lives Host.start events s → s.calls = some calls →
      ∃ earlier now later found, events = earlier ++ .start now :: later ∧ Runs Lives Host.start earlier ⟨found,none⟩ ∧
        (∀ event ∈ later, ∃ action, event = .serve action) ∧
        (∀ runId row, found.row? runId = some row → ∃ final, s.db.row? runId = some final ∧
          final.resolvedAt = some (row.resolvedAt.getD now) ∧ final.outcome = some (row.outcome.getD "failed-orphaned") ∧
          ∀ token bootstrap, .bootstrapDone token runId (.ok bootstrap) ∈ calls → row.resolvedAt ≠ none ∧ row.dispatchedAt = none) ∧
        ∀ runId row, s.db.row? runId = some row → row.resolvedAt = none →
          found.row? runId = none ∧ ∃ run, .createDone run (.ok ()) ∈ calls ∧ run.id = runId := by
  constructor
  · intro found now after step
    rw [← reconcile_ok_iff]
    unfold reconcileOrphans
    cases lives_change step with
    | comesUp starts _ accepted result =>
      cases starts
      rw [accepted,result]
      simp
    | staysDown starts _ rejected result =>
      cases starts
      rw [rejected,result]
      simp
    | stops stopping => cases stopping
    | serves serving => cases serving
  · intro events s calls path up
    obtain ⟨earlier,now,later,found,next,split,reached,serving,accepted,since⟩ := lives_since path up
    refine ⟨earlier,now,later,found,split,reached,serving,?_,?_⟩
    · intro runId row there
      obtain ⟨final,present,forward⟩ := since.old runId row there
      have ended := reconciled_resolved now row
      have outcome := reconciled_outcome now (row_checks there)
      refine ⟨final,present,?_,?_,fun token bootstrap member => since.handed runId row there _ member rfl⟩
      · rw [forward.resolvedAt (by rw [ended]; exact Option.some_ne_none _),ended]
      · rw [forward.outcome (by rw [outcome]; exact Option.some_ne_none _),outcome]
    · intro runId row present unresolved
      cases there : found.row? runId with
      | none => exact ⟨rfl,since.new runId row present there⟩
      | some old =>
        obtain ⟨final,same,forward⟩ := since.old runId old there
        cases present.symm.trans same
        have ended := reconciled_resolved now old
        rw [← forward.resolvedAt (by rw [ended]; exact Option.some_ne_none _),unresolved] at ended
        cases ended

end Lives

-- The server stops in the middle of a run, and comes back.
def crashedRun : List Event := [.start 0,
  .serve (.begin (.createSelect ⟨"run-7","crash.git","refs/heads/main","abc123",5,some "token-7"⟩)),
  .serve (.advance 0 10),.serve (.advance 0 10),.serve (.advance 0 10),
  .serve (.begin (.dispatch ⟨"run-7",false,false⟩)),.serve (.advance 1 11),.stop,.start 20]

theorem restart_settles_crash : ∃ s, Runs Lives Host.start crashedRun s ∧ s.calls = some [] ∧
    (s.db.row? "run-7").isSome = true ∧ ∀ runId row, s.db.row? runId = some row → row.resolvedAt ≠ none := by
  let lived := attempt Host.act (fun _ _ => True) Host.start crashedRun
  have calls : (lived.bind Host.calls).map List.isEmpty = some true := by decide
  have kept : (lived.bind fun s => s.db.row? "run-7").isSome = true := by decide
  obtain ⟨calls,running,none⟩ := Option.map_eq_some_iff.mp calls
  obtain ⟨s,ran,idle⟩ := Option.bind_eq_some_iff.mp running
  obtain rfl := List.isEmpty_iff.mp none
  rw [ran,Option.bind_some] at kept
  have path : Runs Lives Host.start crashedRun s := (attempt_runs ran).unguarded
  refine ⟨s,path,idle,kept,fun runId row there unresolved => ?_⟩
  obtain ⟨_,_,_,_,_,_,_,_,own⟩ := restart_settles.2 crashedRun s [] path idle
  obtain ⟨_,_,done,_⟩ := own runId row there unresolved
  cases done

end Quire.ServerRestart
