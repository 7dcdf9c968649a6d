import Quire.StepSystem
import Quire.RunLifecycle
import Quire.RunsCalls

namespace Quire.RunsServer
open KeyedTable RunsTable RunLifecycle RunsCalls StepSystem

-- A call that is under way, by the SQL statement it is about to issue. The
-- finished ones stay in the list and keep what they returned.
inductive Call where
  | createSelect (run : NewRun)
  | createCancel (run : NewRun) (cancelNow : Int) (activeIds : List String)
  | createInsert (run : NewRun)
  | createDone (run : NewRun) (result : Except RunsError Unit)
  | dispatch (self : Run)
  | resolve (self : Run) (outcome : String)
  | reconcile
  | storeBootstrap (self : Run) (traceparent : Option String)
  | done (result : Except RunsError Unit)
  | bootstrapVerify (token : String)
  | bootstrapRefused (token : String)
  | bootstrapSelect (token runId : String)
  | bootstrapFetched (token runId : String) (bootstrap : Bootstrap)
  | bootstrapDone (token runId : String) (result : Except ApiError Bootstrap)

-- A call starts at its first statement.
def Call.starts : Call → Bool
  | .createSelect _ | .dispatch _ | .resolve _ _ | .reconcile | .storeBootstrap _ _ | .bootstrapVerify _ => true
  | _ => false

-- The next statement when it writes. A `Run` whose flags refuse the call
-- issues none.
def Call.statement (now : Int) : Call → Option RunsStmt
  | .createCancel run cancelNow [] => some (.cancelQueued cancelNow run.repo run.refName)
  | .createCancel _ cancelNow (runId :: _) => some (.cancelActive cancelNow runId)
  | .createInsert run => some (.insertRun run now)
  | .dispatch self => if self.dispatched || self.resolved then none else some (.dispatch now self.id)
  | .resolve self outcome => if self.resolved then none else some (.resolve now outcome self.id)
  | .reconcile => some (.reconcileOrphans now)
  | .storeBootstrap self traceparent => some (.storeBootstrapData traceparent self.id)
  | .bootstrapFetched _ runId _ => some (.bootstrapFetched now runId)
  | _ => none

def Call.accepted : Call → Call
  | .createCancel run _ [] => .createInsert run
  | .createCancel run cancelNow (_ :: rest) => .createCancel run cancelNow rest
  | .createInsert run => .createDone run (.ok ())
  | .bootstrapFetched token runId bootstrap => .bootstrapDone token runId (.ok bootstrap)
  | _ => .done (.ok ())

def Call.refused (error : ConstraintError) : Call → Call
  | .createCancel run _ _ | .createInsert run => .createDone run (.error (.sql error))
  | .bootstrapFetched token runId _ => .bootstrapDone token runId (.error (.db error))
  | _ => .done (.error (.sql error))

-- The next statement when it only reads. The clock of `cancel_existing` is
-- read here, before its SELECT.
def Call.reads (now : Int) (db : RunsTable) : Call → Option Call
  | .createSelect run => some (.createCancel run now (activeIds db run.repo run.refName))
  | .bootstrapVerify token =>
    match verifyRunToken db token with
    | .ok runId => some (.bootstrapSelect token runId)
    | .error _ => some (.bootstrapRefused token)
  | .bootstrapSelect token runId =>
    match selectBootstrap db runId with
    | .ok bootstrap => some (.bootstrapFetched token runId bootstrap)
    | .error error => some (.bootstrapDone token runId (.error error))
  | .dispatch _ => some (.done (.error .alreadyDispatched))
  | .resolve _ _ => some (.done (.error .alreadyResolved))
  | _ => none

def Call.step (now : Int) (db : RunsTable) (call : Call) : Option (RunsTable × Call) :=
  match call.statement now with
  | some stmt =>
    match stmt.exec db with
    | .ok next => some (next,call.accepted)
    | .error error => some (db,call.refused error)
  | none => (call.reads now db).map (db,·)

structure Server where
  db : RunsTable
  calls : List Call

def Server.start : Server := ⟨.empty,[]⟩

-- Any call may begin at any time, and any call that is under way may be the
-- next one whose statement reaches the database.
inductive Action where
  | begin (call : Call)
  | advance (index : Nat) (now : Int)

def Server.act (s : Server) : Action → Option Server
  | .begin call => if call.starts then some { s with calls := s.calls ++ [call] } else none
  | .advance index now =>
    match s.calls[index]? with
    | none => none
    | some call => (call.step now s.db).map fun (db,next) => ⟨db,s.calls.set index next⟩

def Acts (before : Server) (action : Action) (after : Server) : Prop := before.act action = some after

theorem acts_functional {condition : Server → Action → Prop} : Functional (Guarded condition Acts) :=
  fun _ _ _ _ left right => Option.some.inj (left.2.symm.trans right.2)

def Server.run (s : Server) : List Action → Option Server
  | [] => some s
  | action :: rest => (s.act action).bind (·.run rest)

-- The statement an action puts through, if it is a write that was accepted.
def Server.writes (s : Server) : Action → Option RunsStmt
  | .begin _ => none
  | .advance index now => (s.calls[index]?.bind (Call.statement now)).filter fun stmt => (stmt.exec s.db).isOk

theorem acts_begin (step : Acts before (.begin call) after) :
    call.starts = true ∧ after = ⟨before.db,before.calls ++ [call]⟩ := by
  simp only [Acts,Server.act] at step
  split at step
  · rename_i starts; cases step; exact ⟨starts,rfl⟩
  · cases step

-- The list of calls after an advance, position by position.
theorem set_cases {calls : List Call} (held : (calls.set index next)[other]? = some call) :
    (other = index ∧ call = next) ∨ (other ≠ index ∧ calls[other]? = some call) := by
  rw [List.getElem?_set] at held
  by_cases same : index = other
  · rw [if_pos same] at held
    split at held
    · exact .inl ⟨same.symm,(Option.some.inj held).symm⟩
    · cases held
  · rw [if_neg same] at held
    exact .inr ⟨fun eq => same eq.symm,held⟩

-- A call after a beginning is one that was there, or the one that has begun at
-- the end.
theorem append_at {calls : List Call} {index : Nat} (held : (calls ++ [call])[index]? = some other) :
    calls[index]? = some other ∨ (index = calls.length ∧ other = call) := by
  rw [List.getElem?_append] at held
  split at held
  · exact .inl held
  · obtain ⟨bound,_⟩ := List.getElem?_eq_some_iff.mp held
    simp only [List.length_singleton] at bound
    exact .inr ⟨by omega,List.mem_singleton.mp (List.mem_of_getElem? held)⟩

theorem append_cases {calls : List Call} {index : Nat} (held : (calls ++ [call])[index]? = some other) :
    calls[index]? = some other ∨ other = call :=
  (append_at held).imp_right And.right

-- The three things one advance can be: a SELECT, a write the schema accepts,
-- and a write it refuses.
inductive Advance (before : Server) (index : Nat) (now : Int) (call : Call) (after : Server) : Prop where
  | read (silent : call.statement now = none) (ran : call.reads now before.db = some next)
      (result : after = ⟨before.db,before.calls.set index next⟩)
  | wrote (issued : call.statement now = some stmt) (accepted : stmt.exec before.db = .ok db)
      (result : after = ⟨db,before.calls.set index call.accepted⟩)
  | refused (issued : call.statement now = some stmt) (rejected : stmt.exec before.db = .error error)
      (result : after = ⟨before.db,before.calls.set index (call.refused error)⟩)

theorem acts_advance (step : Acts before (.advance index now) after) :
    ∃ call, before.calls[index]? = some call ∧ Advance before index now call after := by
  simp only [Acts,Server.act] at step
  cases found : before.calls[index]? with
  | none => simp [found] at step
  | some call =>
    refine ⟨call,rfl,?_⟩
    simp only [found,Call.step] at step
    cases issued : call.statement now with
    | none =>
      cases ran : call.reads now before.db with
      | none => simp [issued,ran] at step
      | some next =>
        simp only [issued,ran,Option.map_some,Option.some.injEq] at step
        exact .read issued ran step.symm
    | some stmt =>
      simp only [issued] at step
      cases executed : stmt.exec before.db with
      | ok db =>
        simp only [executed,Option.map_some,Option.some.injEq] at step
        exact .wrote issued executed step.symm
      | error error =>
        simp only [executed,Option.map_some,Option.some.injEq] at step
        exact .refused issued executed step.symm

theorem Acts.forward (step : Acts before action after) : Evolves Forward before.db after.db := by
  cases action with
  | begin call => rw [(acts_begin step).2]; exact Evolves.refl Forward.refl _
  | advance index now =>
    obtain ⟨call,_,advanced⟩ := acts_advance step
    cases advanced with
    | read _ _ result => rw [result]; exact Evolves.refl Forward.refl _
    | wrote _ accepted result => rw [result]; exact exec_forward accepted
    | refused _ _ result => rw [result]; exact Evolves.refl Forward.refl _

def Resolved (runId : String) (s : Server) : Prop :=
  ∃ row, s.db.row? runId = some row ∧ row.resolvedAt ≠ none

theorem Acts.resolved (step : Acts before action after) (resolved : Resolved runId before) : Resolved runId after := by
  obtain ⟨row,found,set⟩ := resolved
  obtain ⟨next,present,forward⟩ := step.forward runId row found
  exact ⟨next,present,by rwa [forward.resolvedAt set]⟩

theorem run_runs (ran : before.run actions = some after) : Runs Acts before actions after := by
  induction actions generalizing before with
  | nil => cases ran; exact .nil
  | cons action rest ih =>
    obtain ⟨middle,first,remaining⟩ := Option.bind_eq_some_iff.mp ran
    have single : Runs Acts before [action] middle := .single first
    exact single.append (ih remaining)

-- A run that stops at the first action its condition forbids.
def Server.runUnder (condition : Server → Action → Prop) [∀ s a, Decidable (condition s a)] (s : Server) :
    List Action → Option Server
  | [] => some s
  | action :: rest => if condition s action then (s.act action).bind (·.runUnder condition rest) else none

theorem runUnder_runs {condition : Server → Action → Prop} [∀ s a, Decidable (condition s a)]
    (ran : before.runUnder condition actions = some after) : Runs (Guarded condition Acts) before actions after := by
  induction actions generalizing before with
  | nil => cases ran; exact .nil
  | cons action rest ih =>
    rw [Server.runUnder] at ran
    split at ran
    · rename_i permitted
      obtain ⟨middle,first,remaining⟩ := Option.bind_eq_some_iff.mp ran
      have single : Runs (Guarded condition Acts) before [action] middle := .single ⟨permitted,first⟩
      exact single.append (ih remaining)
    · cases ran

theorem evolves_trans {first second third : RunsTable} (left : Evolves Forward first second)
    (right : Evolves Forward second third) : Evolves Forward first third :=
  Evolves.trans (fun _ _ _ => Forward.trans) left right

theorem runs_forward (path : Runs Acts before actions after) : Evolves Forward before.db after.db := by
  induction path with
  | nil => exact Evolves.refl Forward.refl _
  | step prior step ih => exact evolves_trans ih step.forward

-- A call whose statements nothing comes between does what the function of its
-- name does.
def Alone (before : RunsTable × Call) (now : Int) (after : RunsTable × Call) : Prop :=
  before.2.step now before.1 = some after

theorem dispatch_alone (self : Run) (now : Int) (db : RunsTable) :
    Alone (db,.dispatch self) now ((self.dispatch now db).1,.done ((self.dispatch now db).2.map fun _ => ())) := by
  by_cases refused : (self.dispatched || self.resolved) = true
  · simp [Alone,Call.step,Call.statement,Call.reads,Run.dispatch,refused,Except.map]
  · cases executed : (RunsStmt.dispatch now self.id).exec db <;>
      simp [Alone,Call.step,Call.statement,Call.accepted,Call.refused,Run.dispatch,refused,executed,Except.map]

theorem resolve_alone (self : Run) (outcome : String) (now : Int) (db : RunsTable) :
    Alone (db,.resolve self outcome) now
      ((self.resolve outcome now db).1,.done ((self.resolve outcome now db).2.map fun _ => ())) := by
  by_cases refused : self.resolved = true
  · simp [Alone,Call.step,Call.statement,Call.reads,Run.resolve,refused,Except.map]
  · cases executed : (RunsStmt.resolve now outcome self.id).exec db <;>
      simp [Alone,Call.step,Call.statement,Call.accepted,Call.refused,Run.resolve,refused,executed,Except.map]

theorem reconcile_alone (now : Int) (db : RunsTable) :
    Alone (db,.reconcile) now ((reconcileOrphans now db).1,.done (reconcileOrphans now db).2) := by
  cases executed : (RunsStmt.reconcileOrphans now).exec db <;>
    simp [Alone,Call.step,Call.statement,Call.accepted,Call.refused,reconcileOrphans,executed]

theorem storeBootstrap_alone (self : Run) (traceparent : Option String) (now : Int) (db : RunsTable) :
    Alone (db,.storeBootstrap self traceparent) now
      ((self.storeBootstrapData traceparent db).1,.done (self.storeBootstrapData traceparent db).2) := by
  cases executed : (RunsStmt.storeBootstrapData traceparent self.id).exec db <;>
    simp [Alone,Call.step,Call.statement,Call.accepted,Call.refused,Run.storeBootstrapData,executed]

theorem getBootstrap_alone (token : String) (now : Int) (db : RunsTable)
    (verified : verifyRunToken db token = .ok runId) : ∃ readings, Runs Alone (db,.bootstrapVerify token) readings
      ((getBootstrap runId now db).1,.bootstrapDone token runId (getBootstrap runId now db).2) := by
  have first : Alone (db,.bootstrapVerify token) now (db,.bootstrapSelect token runId) := by
    simp [Alone,Call.step,Call.statement,Call.reads,verified]
  cases selected : selectBootstrap db runId with
  | error error =>
    have second : Alone (db,.bootstrapSelect token runId) now (db,.bootstrapDone token runId (.error error)) := by
      simp [Alone,Call.step,Call.statement,Call.reads,selected]
    exact ⟨_,by simpa [getBootstrap,selected] using (Runs.single first).append (.single second)⟩
  | ok bootstrap =>
    have second : Alone (db,.bootstrapSelect token runId) now (db,.bootstrapFetched token runId bootstrap) := by
      simp [Alone,Call.step,Call.statement,Call.reads,selected]
    have third : Alone (db,.bootstrapFetched token runId bootstrap) now
        ((getBootstrap runId now db).1,.bootstrapDone token runId (getBootstrap runId now db).2) := by
      cases executed : (RunsStmt.bootstrapFetched now runId).exec db <;>
        simp [Alone,Call.step,Call.statement,Call.accepted,Call.refused,getBootstrap,selected,executed]
    exact ⟨_,((Runs.single first).append (.single second)).append (.single third)⟩

-- The UPDATEs of `cancel_existing`, one for each id and the last for the queue.
theorem cancelling_alone (run : NewRun) (cancelNow insertNow : Int) (ids : List String) (db : RunsTable) :
    ∃ readings,
      match cancelActiveRuns cancelNow ids db with
      | (next,.error error) => Runs Alone (db,.createCancel run cancelNow ids) readings
          (next,.createDone run (.error (.sql error)))
      | (next,.ok ()) => Runs Alone (db,.createCancel run cancelNow ids) readings
          (next,.createCancel run cancelNow []) := by
  induction ids generalizing db with
  | nil => exact ⟨[],.nil⟩
  | cons runId rest ih =>
    cases executed : (RunsStmt.cancelActive cancelNow runId).exec db with
    | error error =>
      refine ⟨[insertNow],?_⟩
      simp only [cancelActiveRuns,executed]
      exact .single (by simp [Alone,Call.step,Call.statement,Call.refused,executed])
    | ok next =>
      have first : Alone (db,.createCancel run cancelNow (runId :: rest)) insertNow
          (next,.createCancel run cancelNow rest) := by
        simp [Alone,Call.step,Call.statement,Call.accepted,executed]
      obtain ⟨readings,path⟩ := ih next
      refine ⟨[insertNow] ++ readings,?_⟩
      simp only [cancelActiveRuns,executed]
      rcases ran : cancelActiveRuns cancelNow rest next with ⟨last,error | done⟩ <;> simp only [ran] at path
      · exact (Runs.single first).append path
      · exact (Runs.single first).append path

theorem create_alone (run : NewRun) (cancelNow insertNow : Int) (db : RunsTable) :
    ∃ readings, Runs Alone (db,.createSelect run) readings
      ((create run cancelNow insertNow true db).1,
        .createDone run ((create run cancelNow insertNow true db).2.map fun _ => ())) := by
  have first : Alone (db,.createSelect run) cancelNow
      (db,.createCancel run cancelNow (activeIds db run.repo run.refName)) := rfl
  obtain ⟨readings,path⟩ := cancelling_alone run cancelNow insertNow (activeIds db run.repo run.refName) db
  rcases ran : cancelActiveRuns cancelNow (activeIds db run.repo run.refName) db with ⟨next,error | done⟩ <;>
    simp only [ran] at path
  · have whole : create run cancelNow insertNow true db = (next,.error (.sql error)) := by
      simp only [create,cancelExisting,ran]
    exact ⟨_,by rw [whole]; exact (Runs.single first).append path⟩
  · cases queued : (RunsStmt.cancelQueued cancelNow run.repo run.refName).exec next with
    | error error =>
      have whole : create run cancelNow insertNow true db = (next,.error (.sql error)) := by
        simp only [create,cancelExisting,ran,queued]
      have last : Alone (next,.createCancel run cancelNow []) insertNow (next,.createDone run (.error (.sql error))) := by
        simp [Alone,Call.step,Call.statement,Call.refused,queued]
      exact ⟨_,by rw [whole]; exact ((Runs.single first).append path).append (.single last)⟩
    | ok cancelled =>
      have third : Alone (next,.createCancel run cancelNow []) insertNow (cancelled,.createInsert run) := by
        simp [Alone,Call.step,Call.statement,Call.accepted,queued]
      have cancelling := ((Runs.single first).append path).append (.single third)
      cases inserted : (RunsStmt.insertRun run insertNow).exec cancelled with
      | error error =>
        have whole : create run cancelNow insertNow true db = (cancelled,.error (.sql error)) := by
          simp only [create,cancelExisting,ran,queued,inserted]
        have last : Alone (cancelled,.createInsert run) insertNow (cancelled,.createDone run (.error (.sql error))) := by
          simp [Alone,Call.step,Call.statement,Call.refused,inserted]
        exact ⟨_,by rw [whole]; exact cancelling.append (.single last)⟩
      | ok final =>
        have whole : create run cancelNow insertNow true db = (final,.ok ⟨run.id,false,false⟩) := by
          simp only [create,cancelExisting,ran,queued,inserted,if_true]
        have last : Alone (cancelled,.createInsert run) insertNow (final,.createDone run (.ok ())) := by
          simp [Alone,Call.step,Call.statement,Call.accepted,inserted]
        exact ⟨_,by rw [whole]; exact cancelling.append (.single last)⟩

end Quire.RunsServer
