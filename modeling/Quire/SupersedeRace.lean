import Quire.RunsServer

namespace Quire.SupersedeRace
open KeyedTable RunsTable RunLifecycle RunsCalls RunsServer StepSystem

-- A run that a push to its ref must still supersede.
def Open (db : RunsTable) (repo refName : String) (row : RunRow) : Prop :=
  db.row? row.id = some row ∧ row.resolvedAt = none ∧ row.repo = repo ∧ row.refName = refName

def AtMostOneOpen (db : RunsTable) : Prop :=
  ∀ repo refName first second, Open db repo refName first → Open db repo refName second → first.id = second.id

def Call.creating : Call → Bool
  | .createSelect _ | .createCancel _ _ _ | .createInsert _ => true
  | _ => false

-- A create on the ref that has listed the active runs and not yet finished
-- cancelling, and one that has finished and not yet inserted its own row.
def Cancelling (repo refName : String) : Call → Prop
  | .createCancel run _ _ => run.repo = repo ∧ run.refName = refName
  | _ => False

def Inserting (repo refName : String) : Call → Prop
  | .createInsert run => run.repo = repo ∧ run.refName = refName
  | _ => False

-- No INSERT lands while another create on the ref is past its cancellation,
-- and no queued run is dispatched while a create on its ref is cancelling.
def Permitted (s : Server) (index : Nat) : RunsStmt → Prop
  | .insertRun run _ => ∀ other < s.calls.length, other ≠ index → ∀ held ∈ s.calls[other]?,
      ¬ Inserting run.repo run.refName held
  | .dispatch _ runId | .bootstrapFetched _ runId => ∀ row ∈ s.db.row? runId,
      row.dispatchedAt = none → row.resolvedAt = none → ∀ held ∈ s.calls, ¬ Cancelling row.repo row.refName held
  | _ => True

def Orderly (s : Server) : Action → Prop
  | .begin _ => True
  | .advance index now => ∀ call ∈ s.calls[index]?, ∀ stmt ∈ call.statement now, Permitted s index stmt

instance (repo refName : String) : DecidablePred (Cancelling repo refName)
  | .createCancel run _ _ => inferInstanceAs (Decidable (run.repo = repo ∧ run.refName = refName))
  | .createSelect _ | .createInsert _ | .createDone _ _ | .dispatch _ | .resolve _ _ | .reconcile
  | .storeBootstrap _ _ | .done _ | .bootstrapVerify _ | .bootstrapRefused _ | .bootstrapSelect _ _
  | .bootstrapFetched _ _ _ | .bootstrapDone _ _ _ => .isFalse id

instance (repo refName : String) : DecidablePred (Inserting repo refName)
  | .createInsert run => inferInstanceAs (Decidable (run.repo = repo ∧ run.refName = refName))
  | .createSelect _ | .createCancel _ _ _ | .createDone _ _ | .dispatch _ | .resolve _ _ | .reconcile
  | .storeBootstrap _ _ | .done _ | .bootstrapVerify _ | .bootstrapRefused _ | .bootstrapSelect _ _
  | .bootstrapFetched _ _ _ | .bootstrapDone _ _ _ => .isFalse id

instance (s : Server) (index : Nat) : DecidablePred (Permitted s index)
  | .insertRun run _ => inferInstanceAs (Decidable (∀ other < s.calls.length, other ≠ index →
      ∀ held ∈ s.calls[other]?, ¬ Inserting run.repo run.refName held))
  | .dispatch _ runId | .bootstrapFetched _ runId => inferInstanceAs (Decidable (∀ row ∈ s.db.row? runId,
      row.dispatchedAt = none → row.resolvedAt = none → ∀ held ∈ s.calls, ¬ Cancelling row.repo row.refName held))
  | .cancelActive _ _ | .cancelQueued _ _ _ | .reconcileOrphans _ | .storeBootstrapData _ _
  | .resolve _ _ _ => .isTrue trivial

instance (s : Server) : DecidablePred (Orderly s)
  | .begin _ => .isTrue trivial
  | .advance index now => inferInstanceAs (Decidable
      (∀ call ∈ s.calls[index]?, ∀ stmt ∈ call.statement now, Permitted s index stmt))

-- What each pending create has already achieved.
def Promise (db : RunsTable) : Call → Prop
  | .createCancel run _ ids =>
    ∀ row, Open db run.repo run.refName row → row.dispatchedAt ≠ none → row.id ∈ ids
  | .createInsert run => ∀ row, ¬ Open db run.repo run.refName row
  | _ => True

structure Invariant (s : Server) : Prop where
  single : AtMostOneOpen s.db
  promised : ∀ (index : Nat) call, s.calls[index]? = some call → Promise s.db call

-- An open row after an UPDATE was open before it.
theorem open_origin {db next : RunsTable} {stmt : RunsStmt} (update : stmt.isInsert = false)
    (accepted : stmt.exec db = .ok next) (after : Open next repo refName row) :
    ∃ old, Open db repo refName old ∧ old.id = row.id ∧
      row = if stmt.selects old then stmt.sets old else old := by
  obtain ⟨found,unresolved,sameRepo,sameRef⟩ := after
  rw [exec_update_row? update accepted] at found
  obtain ⟨old,present,written⟩ := Option.map_eq_some_iff.mp found
  have forward : Forward old row := by
    rw [← written]
    split
    · exact sets_forward stmt old
    · exact .refl old
  have stillOpen : old.resolvedAt = none := by
    cases stamp : old.resolvedAt with
    | none => rfl
    | some value => simp [forward.resolvedAt (by simp [stamp]),stamp] at unresolved
  have key : old.id = row.id := row?_key present
  refine ⟨old,⟨key ▸ present,stillOpen,?_,?_⟩,key,written.symm⟩
  · rw [← forward.repo,sameRepo]
  · rw [← forward.refName,sameRef]

theorem open_inserted {db next : RunsTable} (accepted : (RunsStmt.insertRun run now).exec db = .ok next)
    (after : Open next repo refName row) :
    Open db repo refName row ∨ (row = run.row now ∧ run.repo = repo ∧ run.refName = refName) := by
  obtain ⟨found,unresolved,sameRepo,sameRef⟩ := after
  rw [exec_insert_row? accepted] at found
  split at found
  · cases found; exact .inr ⟨rfl,sameRepo,sameRef⟩
  · exact .inl ⟨found,unresolved,sameRepo,sameRef⟩

-- Only two statements send out a run without resolving it.
theorem sends {stmt : RunsStmt} (selected : stmt.selects old = true) (queued : old.dispatchedAt = none)
    (sent : (stmt.sets old).dispatchedAt ≠ none) (unresolved : (stmt.sets old).resolvedAt = none) :
    ∃ now, stmt = .dispatch now old.id ∨ stmt = .bootstrapFetched now old.id := by
  cases stmt <;> simp_all [RunsStmt.selects,RunsStmt.sets,RunRow.stamp]

theorem update_keeps {db next : RunsTable} {stmt : RunsStmt} (update : stmt.isInsert = false)
    (accepted : stmt.exec db = .ok next) (promised : Promise db held)
    (quiet : ∀ now runId row, stmt = .dispatch now runId ∨ stmt = .bootstrapFetched now runId →
      db.row? runId = some row → row.dispatchedAt = none → row.resolvedAt = none →
      ¬ Cancelling row.repo row.refName held) : Promise next held := by
  cases held with
  | createInsert run =>
    intro row after
    obtain ⟨old,before,_⟩ := open_origin update accepted after
    exact promised old before
  | createCancel run cancelNow ids =>
    intro row after sent
    obtain ⟨old,before,same,written⟩ := open_origin update accepted after
    rw [← same]
    apply promised old before
    intro queued
    by_cases selected : stmt.selects old = true
    · rw [if_pos selected] at written
      obtain ⟨now,which⟩ := sends selected queued (written ▸ sent) (written ▸ after.2.1)
      exact quiet now old.id old which before.1 queued before.2.1
        ⟨before.2.2.1.symm,before.2.2.2.symm⟩
    · rw [if_neg selected] at written
      exact sent (written ▸ queued)
  | _ => trivial

theorem update_single {db next : RunsTable} {stmt : RunsStmt} (update : stmt.isInsert = false)
    (accepted : stmt.exec db = .ok next) (single : AtMostOneOpen db) : AtMostOneOpen next := by
  intro repo refName first second one two
  obtain ⟨left,leftOpen,leftId,_⟩ := open_origin update accepted one
  obtain ⟨right,rightOpen,rightId,_⟩ := open_origin update accepted two
  rw [← leftId,← rightId]
  exact single repo refName left right leftOpen rightOpen

-- One UPDATE of `cancel_existing` crosses its run off the list, and the last
-- one leaves no open run on the ref.
theorem cancel_promises {db next : RunsTable} (issued : (Call.createCancel run cancelNow ids).statement now = some stmt)
    (accepted : stmt.exec db = .ok next) (promised : Promise db (.createCancel run cancelNow ids)) :
    Promise next (Call.createCancel run cancelNow ids).accepted := by
  cases ids with
  | nil =>
    cases issued
    intro row after
    obtain ⟨old,before,_,written⟩ := open_origin rfl accepted after
    cases sent : old.dispatchedAt with
    | some stamp => exact absurd (promised old before (by simp [sent])) (by simp)
    | none =>
      have selected : (RunsStmt.cancelQueued cancelNow run.repo run.refName).selects old = true := by
        simp [RunsStmt.selects,sent,before.2.1,before.2.2.1,before.2.2.2]
      rw [if_pos selected] at written
      exact absurd after.2.1 (by simp [written,RunsStmt.sets])
  | cons runId rest =>
    cases issued
    intro row after sent
    obtain ⟨old,before,_,written⟩ := open_origin rfl accepted after
    by_cases selected : (RunsStmt.cancelActive cancelNow runId).selects old = true
    · rw [if_pos selected] at written
      exact absurd after.2.1 (by simp [written,RunsStmt.sets,RunRow.stamp])
    · rw [if_neg selected] at written
      subst row
      have other : old.id ≠ runId := by simpa [RunsStmt.selects] using selected
      exact (List.mem_cons.mp (promised old before sent)).resolve_left other

theorem insert_invariant {db next : RunsTable} (accepted : (RunsStmt.insertRun run now).exec db = .ok next)
    (cleared : Promise db (.createInsert run)) (single : AtMostOneOpen db) : AtMostOneOpen next := by
  intro repo refName first second one two
  rcases open_inserted accepted one with old | ⟨new,sameRepo,sameRef⟩
  · rcases open_inserted accepted two with older | ⟨_,sameRepo,sameRef⟩
    · exact single repo refName first second old older
    · exact absurd old (by rw [← sameRepo,← sameRef]; exact cleared first)
  · rcases open_inserted accepted two with old | ⟨newer,_,_⟩
    · exact absurd old (by rw [← sameRepo,← sameRef]; exact cleared second)
    · rw [new,newer]

theorem insert_keeps {db next : RunsTable} (accepted : (RunsStmt.insertRun run now).exec db = .ok next)
    (promised : Promise db held) (alone : ¬ Inserting run.repo run.refName held) : Promise next held := by
  cases held with
  | createInsert pending =>
    intro row after
    rcases open_inserted accepted after with old | ⟨_,sameRepo,sameRef⟩
    · exact promised row old
    · exact alone ⟨sameRepo.symm,sameRef.symm⟩
  | createCancel pending cancelNow ids =>
    intro row after sent
    rcases open_inserted accepted after with old | ⟨new,_,_⟩
    · exact promised row old sent
    · exact absurd (by rw [new]; rfl) sent
  | _ => trivial

theorem refused_promises (db : RunsTable) (issued : Call.statement now call = some stmt) :
    Promise db (call.refused error) := by
  cases call <;> simp_all [Call.refused,Call.statement,Promise]

theorem read_promises (ran : Call.reads now db call = some next) : Promise db next := by
  cases call with
  | createSelect run =>
    cases ran
    intro row before sent
    exact mem_activeIds.mpr ⟨row,before.1,before.2.2.1,before.2.2.2,sent,before.2.1⟩
  | bootstrapVerify token =>
    simp only [Call.reads] at ran
    split at ran <;> cases ran <;> trivial
  | bootstrapSelect token runId =>
    simp only [Call.reads] at ran
    split at ran <;> cases ran <;> trivial
  | dispatch self => cases ran; trivial
  | resolve self outcome => cases ran; trivial
  | _ => cases ran

theorem statement_insert (issued : Call.statement now call = some (.insertRun run stamp)) :
    call = .createInsert run ∧ stamp = now := by
  cases call with
  | createInsert pending => cases issued; exact ⟨rfl,rfl⟩
  | createCancel pending cancelNow ids => cases ids <;> cases issued
  | dispatch self => simp [Call.statement] at issued
  | resolve self outcome => simp [Call.statement] at issued
  | _ => cases issued

theorem wrote_invariant {s : Server} (valid : Invariant s) (orderly : Orderly s (.advance index now))
    (found : s.calls[index]? = some call) (issued : call.statement now = some stmt)
    (accepted : stmt.exec s.db = .ok db) : Invariant ⟨db,s.calls.set index call.accepted⟩ := by
  have rule := orderly call found stmt issued
  cases update : stmt.isInsert with
  | true =>
    cases stmt with
    | insertRun run stamp =>
      obtain ⟨rfl,rfl⟩ := statement_insert issued
      refine ⟨insert_invariant accepted (valid.promised index _ found) valid.single,?_⟩
      intro other held present
      rcases set_cases present with ⟨_,rfl⟩ | ⟨apart,before⟩
      · trivial
      · have inside := (List.getElem?_eq_some_iff.mp before).1
        exact insert_keeps accepted (valid.promised other held before) (rule other inside apart held before)
    | _ => cases update
  | false =>
    refine ⟨update_single update accepted valid.single,?_⟩
    intro other held present
    rcases set_cases present with ⟨_,rfl⟩ | ⟨apart,before⟩
    · cases call with
      | createCancel run cancelNow ids =>
        exact cancel_promises issued accepted (valid.promised index _ found)
      | createInsert run => cases issued; cases update
      | _ => trivial
    · apply update_keeps update accepted (valid.promised other held before)
      intro stamp runId row cancels present queued unresolved
      rcases cancels with rfl | rfl
      · exact rule row present queued unresolved held (List.mem_of_getElem? before)
      · exact rule row present queued unresolved held (List.mem_of_getElem? before)

-- A call that goes on without writing leaves the other promises as they are.
theorem call_invariant {s : Server} (valid : Invariant s) (promise : Promise s.db next) : Invariant ⟨s.db,s.calls.set index next⟩ := by
  refine ⟨valid.single,fun other held present => ?_⟩
  rcases set_cases present with ⟨_,rfl⟩ | ⟨_,before⟩
  · exact promise
  · exact valid.promised other held before

theorem step_invariant {s t : Server} (valid : Invariant s) (step : Guarded Orderly Acts s action t) :
    Invariant t := by
  obtain ⟨orderly,acted⟩ := step
  cases action with
  | begin call =>
    obtain ⟨starts,rfl⟩ := acts_begin acted
    refine ⟨valid.single,?_⟩
    intro index held present
    rcases append_cases present with before | rfl
    · exact valid.promised index held before
    · cases held <;> trivial
  | advance index now =>
    obtain ⟨call,found,advanced⟩ := acts_advance acted
    cases advanced with
    | wrote issued accepted result => rw [result]; exact wrote_invariant valid orderly found issued accepted
    | read silent ran result =>
      rw [result]
      exact call_invariant valid (read_promises ran)
    | refused issued rejected result =>
      rw [result]
      exact call_invariant valid (refused_promises s.db issued)

theorem supersede_kept (before after : Server) (actions : List Action) (idle : before.calls = [])
    (start : AtMostOneOpen before.db) (path : Runs (Guarded Orderly Acts) before actions after) :
    AtMostOneOpen after.db := by
  have initial : Invariant before := ⟨start,by simp [idle]⟩
  exact (path.invariant Invariant (fun _ _ _ => step_invariant) initial).single

def pushes : List Action :=
  [.begin (.createSelect ⟨"run-1","test.git","refs/heads/main","abc123",5,some "token-1"⟩),
    .begin (.createSelect ⟨"run-2","test.git","refs/heads/main","def456",5,some "token-2"⟩)]

def oneAfterTheOther : List Action :=
  pushes ++ [.advance 0 10,.advance 0 10,.advance 0 10,.advance 1 20,.advance 1 20,.advance 1 20]

-- Both creates cancel before either inserts.
def overlapping : List Action :=
  pushes ++ [.advance 0 10,.advance 0 10,.advance 1 10,.advance 1 10,.advance 0 10,.advance 1 10]

def queuedRun (id sha token : String) : RunRow :=
  ⟨id,"test.git","refs/heads/main",sha,5,10,none,none,none,some token,none⟩

theorem supersede_kept_sequential : ∃ after, Server.start.runUnder Orderly oneAfterTheOther = some after ∧
    AtMostOneOpen after.db := by
  obtain ⟨after,ran⟩ := Option.isSome_iff_exists.mp
    (show (Server.start.runUnder Orderly oneAfterTheOther).isSome = true by decide)
  exact ⟨after,ran,supersede_kept .start after oneAfterTheOther rfl
    (fun _ _ first _ one => absurd one.1 (by simp [Server.start,Table.empty,Table.row?])) (runUnder_runs ran)⟩

theorem overlapping_pushes : ¬ ∀ actions after, Runs Acts .start actions after →
    (∀ call ∈ after.calls, Call.creating call = false) → AtMostOneOpen after.db := by
  intro claim
  obtain ⟨after,ran⟩ := Option.isSome_iff_exists.mp
    (show (Server.start.run overlapping).isSome = true by decide)
  have finished : (Server.start.run overlapping).all fun s => s.calls.all fun call => !Call.creating call := by
    decide
  have first : (Server.start.run overlapping).bind (fun s => s.db.row? "run-1") =
    some (queuedRun "run-1" "abc123" "token-1") := by decide
  have second : (Server.start.run overlapping).bind (fun s => s.db.row? "run-2") =
    some (queuedRun "run-2" "def456" "token-2") := by decide
  rw [ran,Option.bind_some] at first second
  rw [ran,Option.all_some] at finished
  have idle : ∀ call ∈ after.calls, Call.creating call = false := by simpa using finished
  have one : Open after.db "test.git" "refs/heads/main" (queuedRun "run-1" "abc123" "token-1") := ⟨first,rfl,rfl,rfl⟩
  have two : Open after.db "test.git" "refs/heads/main" (queuedRun "run-2" "def456" "token-2") := ⟨second,rfl,rfl,rfl⟩
  exact absurd (claim overlapping after (run_runs ran) idle _ _ _ _ one two) (by decide)

end Quire.SupersedeRace
