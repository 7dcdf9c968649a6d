import Quire.BootstrapRace
import Quire.RunHistory
import Quire.Secret

namespace Quire.TokenLifetime
open KeyedTable RunsTable RunLifecycle RunsCalls RunsServer RunHistory BootstrapRace StepSystem

inductive ApiRequest where
  | bootstrap (now : Int)
  | secret (name : String)

inductive Payload where
  | bootstrap (payload : Bootstrap)
  | secret (value : String)
  deriving DecidableEq, Repr

inductive HandlerError where
  | api (error : ApiError)
  | secret (error : Secret.Error)
  deriving DecidableEq, Repr

-- The middleware: the run of the token in the Authorization header.
def authorize (db : RunsTable) : Option String → Except ApiError String
  | none => .error .unauthorized
  | some token => verifyRunToken db token

-- The `secrets` of the global config and what lies outside the process.
structure Config where
  secrets : AList (fun _ : String => Secret.SecretString)
  sources : Secret.Sources

def getSecret (config : Config) (name : String) : Except HandlerError String :=
  match config.secrets.lookup name with
  | none => .error (.api .notFound)
  | some secret => (secret.reveal config.sources).1.mapError .secret

-- `get_bootstrap` with its SELECT on one table and its UPDATE on a later one.
def bootstrapReply (runId : String) (now : Int) (selected marked : RunsTable) : Except ApiError Bootstrap :=
  match selectBootstrap selected runId with
  | .error error => .error error
  | .ok bootstrap =>
    match (RunsStmt.bootstrapFetched now runId).exec marked with
    | .ok _ => .ok bootstrap
    | .error error => .error (.db error)

theorem bootstrapReply_alone (runId : String) (now : Int) (db : RunsTable) :
    bootstrapReply runId now db db = (getBootstrap runId now db).2 := by
  unfold bootstrapReply getBootstrap
  cases selectBootstrap db runId with
  | error error => rfl
  | ok bootstrap => cases (RunsStmt.bootstrapFetched now runId).exec db <;> rfl

def handle (config : Config) (runId : String) (selected marked : RunsTable) : ApiRequest → Except HandlerError Payload
  | .bootstrap now => ((bootstrapReply runId now selected marked).map .bootstrap).mapError .api
  | .secret name => (getSecret config name).map .secret

-- A run of the table whose resolved_at is NULL.
def Open (db : RunsTable) (runId : String) : Prop := ∃ row, db.row? runId = some row ∧ row.resolvedAt = none

-- A request is let through for an open run only, and hands something out only
-- while that run is open.
structure DiesWithRun (config : Config) (verified selected marked : RunsTable) (bearer : Option String)
    (request : ApiRequest) : Prop where
  passes : ∀ runId, authorize verified bearer = .ok runId → Open verified runId
  obtains : ∀ runId payload, authorize verified bearer = .ok runId →
    handle config runId selected marked request = .ok payload → Open marked runId

-- Some statement of the history has finished, superseded or orphaned the run.
def Ended (runId : String) (actions : List Action) (s : Server) : Prop :=
  ∃ stmt, ResolvedBy runId Server.start actions s stmt ∧ stmt.outcome? ≠ none

def ownerOf (db : RunsTable) (bearer : Option String) : Option RunRow :=
  bearer.bind fun token => db.rows.find? fun row => row.runToken == some token

-- The handler has nothing to hand out, whoever asks.
def Refused (config : Config) (runId : String) (selected marked : RunsTable) : ApiRequest → Prop
  | .bootstrap now => (∀ row ∈ selected.row? runId, row.dispatchedAt ≠ none) ∨
      ∃ row ∈ marked.row? runId, now < row.createdAt ∨ ∃ stamp ∈ row.resolvedAt, stamp < now
  | .secret name => ∀ secret ∈ config.secrets.lookup name, ∃ error, (secret.reveal config.sources).1 = .error error

theorem authorize_iff : authorize db bearer = .ok runId ↔ ∃ row, ownerOf db bearer = some row ∧ row.id = runId := by
  cases bearer with
  | none => simp [authorize,ownerOf]
  | some token => exact verifyRunToken_ok_iff

theorem owner_row (owner : ownerOf db bearer = some row) : db.row? row.id = some row := by
  obtain ⟨token,_,found⟩ := Option.bind_eq_some_iff.mp owner
  exact row?_of_mem (List.mem_of_find?_eq_some found)

-- A run enters the table unresolved.
theorem acts_enters (step : Acts before action after) (absent : before.db.row? runId = none)
    (present : after.db.row? runId = some row) : row.resolvedAt = none := by
  have unchanged : after.db = before.db → row.resolvedAt = none := by
    intro same
    rw [same,absent] at present
    cases present
  cases action with
  | begin call => exact unchanged (by rw [(acts_begin step).2])
  | advance index now =>
    obtain ⟨call,_,advanced⟩ := acts_advance step
    cases advanced with
    | read _ _ result => exact unchanged (by rw [result])
    | refused _ _ result => exact unchanged (by rw [result])
    | @wrote stmt db issued accepted result =>
      rw [result] at present
      cases update : stmt.isInsert with
      | false =>
        obtain ⟨old,was,_⟩ := exec_origin update accepted present
        cases absent.symm.trans was
      | true =>
        cases stmt with
        | insertRun run stamp =>
          rw [exec_insert_row? accepted] at present
          split at present
          · cases present; rfl
          · cases absent.symm.trans present
        | _ => cases update

-- An accepted write leaves its SET clause on the rows it selected.
theorem acts_writes (step : Acts before action after) (written : before.writes action = some stmt)
    (found : before.db.row? runId = some row) (selected : stmt.selects row = true) :
    after.db.row? runId = some (stmt.sets row) := by
  cases action with
  | begin call => cases written
  | advance index now =>
    obtain ⟨call,held,advanced⟩ := acts_advance step
    simp only [Server.writes,held,Option.bind_some,Option.filter_eq_some_iff] at written
    obtain ⟨issued,fine⟩ := written
    cases advanced with
    | read silent _ _ => cases silent.symm.trans issued
    | refused other rejected _ =>
      cases other.symm.trans issued
      rw [rejected] at fine
      cases fine
    | wrote other accepted result =>
      cases other.symm.trans issued
      have update : stmt.isInsert = false := by
        cases stmt with
        | insertRun run stamp => cases selected
        | _ => rfl
      rw [result,exec_update_row? update accepted,found,Option.map_some,if_pos selected]

theorem resolving_sets {stmt : RunsStmt} (records : stmt.outcome? ≠ none) : (stmt.sets row).resolvedAt ≠ none := by
  cases stmt <;> simp_all [RunsStmt.outcome?,RunsStmt.sets,RunRow.stamp]

-- A row of a history is resolved when one of its statements has done it.
theorem ended_iff (history : Runs Acts Server.start actions s) (found : s.db.row? runId = some row) :
    row.resolvedAt ≠ none ↔ Ended runId actions s := by
  constructor
  · intro resolved
    have fails : ¬ Resolved runId Server.start := fun other => by
      obtain ⟨_,present,_⟩ := other
      cases present
    obtain ⟨earlier,action,later,before,after,split,reached,turned,remaining,no,next,present,set⟩ :=
      history.turning (Resolved runId) fails ⟨row,found,resolved⟩
    cases was : before.db.row? runId with
    | none => exact absurd (acts_enters turned was present) set
    | some middle =>
      have unresolved : middle.resolvedAt = none := by_contra fun stamped => no ⟨middle,was,stamped⟩
      obtain ⟨stmt,written,selected,_,records⟩ := acts_resolves turned was unresolved present set
      exact ⟨stmt,⟨earlier,action,later,before,after,middle,split,reached,turned,remaining,written,was,unresolved,selected⟩,records⟩
  · intro ended
    obtain ⟨stmt,⟨_,_,_,_,_,middle,_,_,turned,remaining,written,was,_,selected⟩,records⟩ := ended
    obtain ⟨final,last,forward⟩ := runs_forward remaining runId _ (acts_writes turned written was selected)
    cases found.symm.trans last
    rw [forward.resolvedAt (resolving_sets records)]
    exact resolving_sets records

theorem open_iff (history : Runs Acts Server.start actions s) (found : s.db.row? runId = some row) :
    Open s.db runId ↔ ¬ Ended runId actions s := by
  rw [← ended_iff history found,not_not]
  constructor
  · intro held
    obtain ⟨other,same,unresolved⟩ := held
    cases found.symm.trans same
    exact unresolved
  · exact fun unresolved => ⟨row,found,unresolved⟩

theorem mark_iff {db : RunsTable} (found : db.row? runId = some row) :
    (∃ next, (RunsStmt.bootstrapFetched now runId).exec db = .ok next) ↔
      row.createdAt ≤ now ∧ ∀ stamp ∈ row.resolvedAt, now ≤ stamp := by
  have valid := row_checks found
  have fits : ∀ other, db.row? runId = some other →
      (((RunsStmt.bootstrapFetched now runId).sets other).Checks ↔
        other.createdAt ≤ now ∧ ∀ stamp ∈ other.resolvedAt, now ≤ stamp) := by
    intro other same
    cases found.symm.trans same
    refine ⟨fun checks => ⟨checks.dispatched now rfl,fun stamp set => checks.ordered stamp set now rfl⟩,fun bounds => ?_⟩
    exact ⟨by simpa [RunsStmt.sets] using bounds.1,valid.resolved,by simpa [RunsStmt.sets] using bounds.2,
      valid.together,valid.allowed⟩
  rw [accepts_row_iff (.bootstrapFetched now runId) rfl (by simp [RunsStmt.selects]) fits]
  exact ⟨fun all => all row found,fun bounds other same => by cases found.symm.trans same; exact bounds⟩

theorem bootstrapReply_ok_iff {selected marked : RunsTable} (now : Int) (found : selected.row? runId = some row)
    (held : marked.row? runId = some last) :
    (∃ payload, bootstrapReply runId now selected marked = .ok payload) ↔
      row.dispatchedAt = none ∧ last.createdAt ≤ now ∧ ∀ stamp ∈ last.resolvedAt, now ≤ stamp := by
  rw [← mark_iff held]
  unfold bootstrapReply selectBootstrap
  simp only [found]
  cases sent : row.dispatchedAt with
  | some stamp => simp
  | none => cases marks : (RunsStmt.bootstrapFetched now runId).exec marked <;> simp

theorem getSecret_ok_iff {config : Config} : (∃ value, getSecret config name = .ok value) ↔
    ∃ secret, config.secrets.lookup name = some secret ∧ ∀ error, (secret.reveal config.sources).1 ≠ .error error := by
  unfold getSecret
  cases config.secrets.lookup name with
  | none => simp
  | some secret => cases answer : (secret.reveal config.sources).1 <;> simp [Except.mapError,answer]

theorem handle_refused_iff {config : Config} {selected marked : RunsTable} (request : ApiRequest)
    (found : selected.row? runId = some row) (held : marked.row? runId = some last) :
    Refused config runId selected marked request ↔ ∀ payload, handle config runId selected marked request ≠ .ok payload := by
  cases request with
  | bootstrap now =>
    have reply := bootstrapReply_ok_iff now found held
    have same : (∃ payload, handle config runId selected marked (.bootstrap now) = .ok payload) ↔
        ∃ payload, bootstrapReply runId now selected marked = .ok payload := by
      simp only [handle]
      cases answer : bootstrapReply runId now selected marked <;> simp [Except.map,Except.mapError]
    rw [← not_exists,same,reply]
    simp only [Refused,found,held,Option.mem_some_iff,forall_eq',exists_eq_left']
    by_cases sent : row.dispatchedAt = none
    · simp only [sent,ne_eq,not_true,false_or,true_and,not_and_or,not_le,not_forall,exists_prop]
    · simp [sent]
  | secret name =>
    have same : (∃ payload, handle config runId selected marked (.secret name) = .ok payload) ↔
        ∃ value, getSecret config name = .ok value := by
      simp only [handle]
      cases answer : getSecret config name <;> simp [Except.map]
    rw [← not_exists,same,getSecret_ok_iff]
    simp [Refused]

-- The middleware looks at the token alone, so a request is in keeping with the
-- life of its run when nothing has ended that run.
theorem token_dies_iff (config : Config) (bearer : Option String) (request : ApiRequest)
    (history : Runs Acts Server.start actions s) (meanwhile : Runs Acts s more t) (later : Runs Acts t rest u) :
    DiesWithRun config s.db t.db u.db bearer request ↔
      ∀ row, ownerOf s.db bearer = some row → ¬ Ended row.id actions s ∧
        (Ended row.id (actions ++ more ++ rest) u → Refused config row.id t.db u.db request) := by
  have whole := (history.append meanwhile).append later
  constructor
  · intro dies row owner
    have found := owner_row owner
    obtain ⟨middle,atSelect,_⟩ := runs_forward meanwhile row.id row found
    obtain ⟨last,atMark,_⟩ := runs_forward later row.id middle atSelect
    have passed := authorize_iff.mpr ⟨row,owner,rfl⟩
    refine ⟨(open_iff history found).mp (dies.passes row.id passed),fun ended => ?_⟩
    apply (handle_refused_iff request atSelect atMark).mpr
    intro payload answered
    exact (open_iff whole atMark).mp (dies.obtains row.id payload passed answered) ended
  · intro lives
    constructor
    · intro runId passed
      obtain ⟨row,owner,rfl⟩ := authorize_iff.mp passed
      exact (open_iff history (owner_row owner)).mpr (lives row owner).1
    · intro runId payload passed answered
      obtain ⟨row,owner,rfl⟩ := authorize_iff.mp passed
      obtain ⟨middle,atSelect,_⟩ := runs_forward meanwhile row.id row (owner_row owner)
      obtain ⟨last,atMark,_⟩ := runs_forward later row.id middle atSelect
      apply (open_iff whole atMark).mpr
      intro ended
      exact (handle_refused_iff request atSelect atMark).mp ((lives row owner).2 ended) payload answered

-- A run is created, dispatched and finished.
def finishedRun : List Action :=
  [.begin (.createSelect ⟨"run-1","test.git","refs/heads/main","abc123",5,some "token-1"⟩),
    .advance 0 10,.advance 0 10,.advance 0 10,.begin (.dispatch ⟨"run-1",false,false⟩),.advance 1 11,
    .begin (.resolve ⟨"run-1",true,false⟩ "succeeded"),.advance 2 12]

def oneSecret : Config where
  secrets := AList.insert "deploy_key" (.plain "hunter2-hunter2") ∅
  sources := ⟨fun _ => .error "",fun name => .error (.unknownSecret name)⟩

theorem token_dies_iff_fresh_run : ∃ s, Server.start.run (finishedRun.take 4) = some s ∧
    (DiesWithRun oneSecret s.db s.db s.db (some "token-1") (.secret "deploy_key") ↔
      ∀ row, ownerOf s.db (some "token-1") = some row → ¬ Ended row.id (finishedRun.take 4) s ∧
        (Ended row.id (finishedRun.take 4 ++ [] ++ []) s → Refused oneSecret row.id s.db s.db (.secret "deploy_key"))) := by
  obtain ⟨s,ran⟩ := Option.isSome_iff_exists.mp
    (show (Server.start.run (finishedRun.take 4)).isSome = true by decide)
  exact ⟨s,ran,token_dies_iff oneSecret (some "token-1") (.secret "deploy_key") (run_runs ran) .nil .nil⟩

-- The run has succeeded, and its token still fetches the deploy key.
theorem finished_run_reads_secret : ¬ ∀ (config : Config) (bearer : Option String) (request : ApiRequest)
    (actions more rest : List Action) (s t u : Server), Runs Acts Server.start actions s → Runs Acts s more t →
    Runs Acts t rest u → DiesWithRun config s.db t.db u.db bearer request := by
  intro claim
  obtain ⟨s,ran⟩ := Option.isSome_iff_exists.mp (show (Server.start.run finishedRun).isSome = true by decide)
  have passed : (Server.start.run finishedRun).map (fun s => authorize s.db (some "token-1")) = some (.ok "run-1") := by
    decide
  have row : (Server.start.run finishedRun).bind (fun s => s.db.row? "run-1") = some
      ⟨"run-1","test.git","refs/heads/main","abc123",5,10,some 11,some 12,some "succeeded",some "token-1",none⟩ := by
    decide
  rw [ran] at passed row
  have dies := claim oneSecret (some "token-1") (.secret "deploy_key") finishedRun [] [] s s s (run_runs ran) .nil .nil
  obtain ⟨other,found,unresolved⟩ := dies.passes "run-1" (Option.some.inj passed)
  cases found.symm.trans row
  cases unresolved

example : handle oneSecret "run-1" .empty .empty (.secret "deploy_key") = .ok (.secret "hunter2-hunter2") := by decide

end Quire.TokenLifetime
