import Quire.RunsServer

namespace Quire.BootstrapRace
open KeyedTable RunsTable RunLifecycle RunsCalls RunsServer StepSystem

-- A request whose SELECT found the run queued, and one that got the payload.
def Fetching (runId : String) : Call → Prop
  | .bootstrapFetched _ held _ => held = runId
  | _ => False

def Paid (runId : String) : Call → Prop
  | .bootstrapDone _ held (.ok _) => held = runId
  | _ => False

-- The token and the run id of a request that is past its verification.
def grant : Call → Option (String × String)
  | .bootstrapSelect token runId | .bootstrapFetched token runId _ | .bootstrapDone token runId _ =>
    some (token,runId)
  | _ => none

-- A SELECT finds the run dispatched, or neither resolved nor found queued by a
-- request that has yet to mark it; and a mark lies between the two stamps of
-- its row.
def Unraced (s : Server) (now : Int) : Call → Prop
  | .bootstrapSelect _ runId => ∀ row ∈ s.db.row? runId, row.dispatchedAt = none →
      row.resolvedAt = none ∧ ∀ held ∈ s.calls, ¬ Fetching runId held
  | .bootstrapFetched _ runId _ => ∀ row ∈ s.db.row? runId,
      row.createdAt ≤ now ∧ ∀ stamp ∈ row.resolvedAt, now ≤ stamp
  | _ => True

def Exclusive (s : Server) : Action → Prop
  | .begin _ => True
  | .advance index now => ∀ call ∈ s.calls[index]?, Unraced s now call

instance (runId : String) : DecidablePred (Fetching runId)
  | .bootstrapFetched _ held _ => inferInstanceAs (Decidable (held = runId))
  | .createSelect _ | .createCancel _ _ _ | .createInsert _ | .createDone _ _ | .dispatch _ | .resolve _ _
  | .reconcile | .storeBootstrap _ _ | .done _ | .bootstrapVerify _ | .bootstrapRefused _
  | .bootstrapSelect _ _ | .bootstrapDone _ _ _ => .isFalse id

instance (s : Server) (now : Int) : DecidablePred (Unraced s now)
  | .bootstrapSelect _ runId => inferInstanceAs (Decidable (∀ row ∈ s.db.row? runId, row.dispatchedAt = none →
      row.resolvedAt = none ∧ ∀ held ∈ s.calls, ¬ Fetching runId held))
  | .bootstrapFetched _ runId _ => inferInstanceAs (Decidable (∀ row ∈ s.db.row? runId,
      row.createdAt ≤ now ∧ ∀ stamp ∈ row.resolvedAt, now ≤ stamp))
  | .createSelect _ | .createCancel _ _ _ | .createInsert _ | .createDone _ _ | .dispatch _ | .resolve _ _
  | .reconcile | .storeBootstrap _ _ | .done _ | .bootstrapVerify _ | .bootstrapRefused _
  | .bootstrapDone _ _ _ => .isTrue trivial

instance (s : Server) : DecidablePred (Exclusive s)
  | .begin _ => .isTrue trivial
  | .advance index now => inferInstanceAs (Decidable (∀ call ∈ s.calls[index]?, Unraced s now call))

-- No statement changes which run a token belongs to.
theorem token_kept {db next : RunsTable} {stmt : RunsStmt} (accepted : stmt.exec db = .ok next)
    (verified : verifyRunToken db token = .ok runId) : verifyRunToken next token = .ok runId := by
  obtain ⟨row,found,rfl⟩ := verifyRunToken_ok_iff.mp verified
  rw [verifyRunToken_ok_iff]
  cases update : stmt.isInsert with
  | true =>
    cases stmt with
    | insertRun run now =>
      rw [insert_rows accepted,List.find?_append,found]
      exact ⟨row,rfl,rfl⟩
    | _ => cases update
  | false =>
    rw [exec_update update] at accepted
    have forward : ∀ old, Forward old (if stmt.selects old then stmt.assignment.set old else old) := by
      intro old
      split
      · exact sets_forward stmt old
      · exact .refl old
    have same : ((fun row => row.runToken == some token) ∘ fun old =>
        if stmt.selects old then stmt.assignment.set old else old) =
        fun row => row.runToken == some token := by
      funext old
      simp only [Function.comp,(forward old).runToken]
    rw [update_rows accepted,List.find?_map,same,found]
    exact ⟨_,rfl,(forward row).id⟩

theorem acts_token_kept (step : Acts before action after) (verified : verifyRunToken before.db token = .ok runId) :
    verifyRunToken after.db token = .ok runId := by
  cases action with
  | begin call => rw [(acts_begin step).2]; exact verified
  | advance index now =>
    obtain ⟨call,_,advanced⟩ := acts_advance step
    cases advanced with
    | read _ _ result => rw [result]; exact verified
    | wrote _ accepted result => rw [result]; exact token_kept accepted verified
    | refused _ _ result => rw [result]; exact verified

theorem verified_row {db : RunsTable} (verified : verifyRunToken db token = .ok runId) :
    ∃ row, db.row? runId = some row := by
  obtain ⟨row,found,rfl⟩ := verifyRunToken_ok_iff.mp verified
  exact ⟨row,row?_of_mem (List.mem_of_find?_eq_some found)⟩

-- What the requests under way and finished have established.
structure Invariant (s : Server) : Prop where
  granted : ∀ (index : Nat) call token runId, s.calls[index]? = some call → grant call = some (token,runId) →
    verifyRunToken s.db token = .ok runId
  single : ∀ (i j : Nat) first second runId, s.calls[i]? = some first → s.calls[j]? = some second →
    Fetching runId first ∨ Paid runId first → Fetching runId second ∨ Paid runId second → i = j
  sent : ∀ (index : Nat) call runId, s.calls[index]? = some call → Paid runId call →
    ∃ row, s.db.row? runId = some row ∧ row.dispatchedAt ≠ none

def isRequest : Call → Bool
  | .bootstrapVerify _ | .bootstrapRefused _ | .bootstrapSelect _ _ | .bootstrapFetched _ _ _
  | .bootstrapDone _ _ _ => true
  | _ => false

-- How a request can proceed, with the tables before and after its statement.
inductive Proceeds (db next : RunsTable) (now : Int) : Call → Call → Prop where
  | verified (known : verifyRunToken db token = .ok runId) :
      Proceeds db next now (.bootstrapVerify token) (.bootstrapSelect token runId)
  | unknown (unauthorized : verifyRunToken db token = .error error) :
      Proceeds db next now (.bootstrapVerify token) (.bootstrapRefused token)
  | queued (found : db.row? runId = some row) (unsent : row.dispatchedAt = none) :
      Proceeds db next now (.bootstrapSelect token runId) (.bootstrapFetched token runId (bootstrapOf row))
  | gone (found : db.row? runId = some row) (sent : row.dispatchedAt ≠ none) :
      Proceeds db next now (.bootstrapSelect token runId) (.bootstrapDone token runId (.error .gone))
  | missing (absent : db.row? runId = none) :
      Proceeds db next now (.bootstrapSelect token runId) (.bootstrapDone token runId (.error .notFound))
  | marked (accepted : (RunsStmt.bootstrapFetched now runId).exec db = .ok next) :
      Proceeds db next now (.bootstrapFetched token runId bootstrap) (.bootstrapDone token runId (.ok bootstrap))
  | unmarked (rejected : (RunsStmt.bootstrapFetched now runId).exec db = .error error) :
      Proceeds db next now (.bootstrapFetched token runId bootstrap) (.bootstrapDone token runId (.error (.db error)))
  | other (before : isRequest call = false) (after : isRequest following = false) :
      Proceeds db next now call following

theorem read_proceeds (ran : Call.reads now db call = some next) : Proceeds db db now call next := by
  cases call with
  | bootstrapVerify token =>
    simp only [Call.reads] at ran
    split at ran <;> rename_i verdict <;> cases ran
    · exact .verified verdict
    · exact .unknown verdict
  | bootstrapSelect token runId =>
    simp only [Call.reads,selectBootstrap] at ran
    cases found : db.row? runId with
    | none =>
      simp only [found,Option.some.injEq] at ran
      exact ran ▸ .missing found
    | some row =>
      by_cases sent : row.dispatchedAt.isSome = true
      · simp only [found,sent,if_true,Option.some.injEq] at ran
        exact ran ▸ .gone found (Option.isSome_iff_ne_none.mp sent)
      · simp only [found,sent,Bool.false_eq_true,if_false,Option.some.injEq] at ran
        exact ran ▸ .queued found (by simpa using sent)
  | bootstrapRefused | bootstrapFetched | bootstrapDone => cases ran
  | _ => cases ran <;> exact .other rfl rfl

theorem wrote_proceeds (issued : Call.statement now call = some stmt) (accepted : stmt.exec db = .ok next) :
    Proceeds db next now call call.accepted := by
  cases call with
  | bootstrapFetched token runId bootstrap => cases issued; exact .marked accepted
  | createCancel run cancelNow ids => cases ids <;> exact .other rfl rfl
  | bootstrapVerify | bootstrapRefused | bootstrapSelect | bootstrapDone => cases issued
  | _ => exact .other rfl rfl

theorem refused_proceeds (issued : Call.statement now call = some stmt) (rejected : stmt.exec db = .error error) :
    Proceeds db db now call (call.refused error) := by
  cases call with
  | bootstrapFetched token runId bootstrap => cases issued; exact .unmarked rejected
  | bootstrapVerify | bootstrapRefused | bootstrapSelect | bootstrapDone => cases issued
  | _ => exact .other rfl rfl

theorem advance_proceeds (step : Acts before (.advance index now) after) :
    ∃ call next, before.calls[index]? = some call ∧ after.calls = before.calls.set index next ∧
      Proceeds before.db after.db now call next := by
  obtain ⟨call,found,advanced⟩ := acts_advance step
  cases advanced with
  | read _ ran result => exact ⟨call,_,found,by rw [result],by rw [result]; exact read_proceeds ran⟩
  | wrote issued accepted result =>
    exact ⟨call,_,found,by rw [result],by rw [result]; exact wrote_proceeds issued accepted⟩
  | refused issued rejected result =>
    exact ⟨call,_,found,by rw [result],by rw [result]; exact refused_proceeds issued rejected⟩

-- A call that has not been verified holds nothing.
theorem holds_nothing (unverified : isRequest call = false ∨ call.starts = true) :
    grant call = none ∧ ∀ runId, ¬ Fetching runId call ∧ ¬ Paid runId call := by
  cases call <;> simp_all [isRequest,Call.starts,grant,Fetching,Paid]

theorem granted_step {s t : Server} (valid : Invariant s) (step : Acts s (.advance index now) t)
    (found : s.calls[index]? = some call) (proceeds : Proceeds s.db t.db now call next)
    (granted : grant next = some (token,runId)) : verifyRunToken t.db token = .ok runId := by
  apply acts_token_kept step
  cases proceeds with
  | verified known => cases granted; exact known
  | unknown unauthorized => cases granted
  | queued present unsent => cases granted; exact valid.granted index _ _ _ found rfl
  | gone present sent => cases granted; exact valid.granted index _ _ _ found rfl
  | missing absent => cases granted; exact valid.granted index _ _ _ found rfl
  | marked accepted => cases granted; exact valid.granted index _ _ _ found rfl
  | unmarked rejected => cases granted; exact valid.granted index _ _ _ found rfl
  | other before after => simp [(holds_nothing (.inl after)).1] at granted

-- The request that has just found its run queued, or been paid, is the only
-- one of that run to have come so far.
theorem alone_step {s t : Server} (valid : Invariant s) (exclusive : Exclusive s (.advance index now))
    (found : s.calls[index]? = some call) (proceeds : Proceeds s.db t.db now call next)
    (holds : Fetching runId next ∨ Paid runId next) (present : s.calls[other]? = some held)
    (rival : Fetching runId held ∨ Paid runId held) : other = index := by
  cases proceeds with
  | queued queued unsent =>
    obtain rfl : _ = runId := by simpa only [Fetching,Paid,or_false] using holds
    have free := (exclusive _ found _ queued unsent).2
    rcases rival with fetching | paid
    · exact absurd fetching (free held (List.mem_of_getElem? present))
    · obtain ⟨row,same,sent⟩ := valid.sent other held _ present paid
      cases queued.symm.trans same
      exact absurd unsent sent
  | marked accepted =>
    obtain rfl : _ = runId := by simpa only [Fetching,Paid,false_or] using holds
    exact valid.single other index held _ _ present found rival (.inl rfl)
  | other before after => exact absurd holds (not_or.mpr ((holds_nothing (.inl after)).2 runId))
  | _ => simp [Fetching,Paid] at holds

theorem sent_step {s t : Server} (valid : Invariant s) (found : s.calls[(index : Nat)]? = some call)
    (proceeds : Proceeds s.db t.db now call next) (paid : Paid runId next) :
    ∃ row, t.db.row? runId = some row ∧ row.dispatchedAt ≠ none := by
  cases proceeds with
  | marked accepted =>
    obtain rfl := paid
    obtain ⟨row,present⟩ := verified_row (valid.granted index _ _ _ found rfl)
    have key : row.id = _ := row?_key present
    rw [exec_update_row? rfl accepted,present]
    exact ⟨_,rfl,by simp [key,RunsStmt.selects,RunsStmt.sets]⟩
  | other before after => exact absurd paid ((holds_nothing (.inl after)).2 runId).2
  | _ => exact paid.elim

-- A request that begins holds nothing, so what the others hold stands.
theorem begin_invariant {s t : Server} (valid : Invariant s) (step : Acts s (.begin call) t) : Invariant t := by
  obtain ⟨starts,rfl⟩ := acts_begin step
  have silent := holds_nothing (.inr starts)
  refine ⟨?_,?_,?_⟩
  · intro index held token runId present granted
    rcases append_cases present with old | rfl
    · exact valid.granted index held token runId old granted
    · rw [silent.1] at granted; cases granted
  · intro i j first second runId one two holds rival
    rcases append_cases one with old | rfl
    · rcases append_cases two with older | rfl
      · exact valid.single i j first second runId old older holds rival
      · exact absurd rival (not_or.mpr (silent.2 runId))
    · exact absurd holds (not_or.mpr (silent.2 runId))
  · intro index held runId present paid
    rcases append_cases present with old | rfl
    · exact valid.sent index held runId old paid
    · exact absurd paid (silent.2 runId).2

theorem advance_invariant {s t : Server} (valid : Invariant s) (exclusive : Exclusive s (.advance index now))
    (step : Acts s (.advance index now) t) : Invariant t := by
  obtain ⟨call,next,found,calls,proceeds⟩ := advance_proceeds step
  refine ⟨?_,?_,?_⟩
  · intro other held token runId present granted
    rw [calls] at present
    rcases set_cases present with ⟨_,rfl⟩ | ⟨_,before⟩
    · exact granted_step valid step found proceeds granted
    · exact acts_token_kept step (valid.granted other held token runId before granted)
  · intro i j first second runId one two holds rival
    rw [calls] at one two
    rcases set_cases one with ⟨rfl,rfl⟩ | ⟨apart,left⟩
    · rcases set_cases two with ⟨rfl,_⟩ | ⟨_,right⟩
      · rfl
      · exact (alone_step valid exclusive found proceeds holds right rival).symm
    · rcases set_cases two with ⟨rfl,rfl⟩ | ⟨_,right⟩
      · exact alone_step valid exclusive found proceeds rival left holds
      · exact valid.single i j first second runId left right holds rival
  · intro other held runId present paid
    rw [calls] at present
    rcases set_cases present with ⟨_,rfl⟩ | ⟨_,before⟩
    · exact sent_step valid found proceeds paid
    · obtain ⟨row,was,sent⟩ := valid.sent other held runId before paid
      obtain ⟨later,is,forward⟩ := step.forward runId row was
      exact ⟨later,is,forward.dispatched sent⟩

theorem step_invariant {s t : Server} (valid : Invariant s) (step : Guarded Exclusive Acts s action t) :
    Invariant t := by
  obtain ⟨exclusive,acted⟩ := step
  cases action with
  | begin call => exact begin_invariant valid acted
  | advance index now => exact advance_invariant valid exclusive acted

-- How far a request gets whose token belongs to a run, and which ways are
-- closed to it when the run was resolved before it began.
inductive Progress (resolved : Prop) (token runId : String) : Call → Prop where
  | verify : Progress resolved token runId (.bootstrapVerify token)
  | select : Progress resolved token runId (.bootstrapSelect token runId)
  | fetched (live : ¬ resolved) : Progress resolved token runId (.bootstrapFetched token runId bootstrap)
  | gone : Progress resolved token runId (.bootstrapDone token runId (.error .gone))
  | payload (live : ¬ resolved) : Progress resolved token runId (.bootstrapDone token runId (.ok bootstrap))

structure Tracked (resolved : Prop) (token runId : String) (index : Nat) (s : Server) : Prop where
  verified : verifyRunToken s.db token = .ok runId
  kept : resolved → Resolved runId s
  progress : ∃ call, s.calls[index]? = some call ∧ Progress resolved token runId call

theorem mark_accepted {db : RunsTable} (marks : ∀ row ∈ db.row? runId,
    row.createdAt ≤ now ∧ ∀ stamp ∈ row.resolvedAt, now ≤ stamp) :
    ∃ next, (RunsStmt.bootstrapFetched now runId).exec db = .ok next := by
  apply (accepts_iff rfl).mpr
  intro row member selected
  have key : row.id = runId := by simpa [RunsStmt.selects] using selected
  obtain ⟨created,before⟩ := marks row (key ▸ row?_of_mem member)
  have valid := db.checked row member
  exact ⟨by simpa [RunsStmt.sets] using created,valid.resolved,
    by simpa [RunsStmt.sets] using before,valid.together,valid.allowed⟩

theorem progress_step {s t : Server} (tracked : Tracked resolved token runId index s)
    (exclusive : Unraced s now call) (proceeds : Proceeds s.db t.db now call next)
    (progress : Progress resolved token runId call) : Progress resolved token runId next := by
  cases progress with
  | verify =>
    cases proceeds with
    | verified known =>
      cases known.symm.trans tracked.verified
      exact .select
    | unknown unauthorized => cases unauthorized.symm.trans tracked.verified
    | other before after => cases before
  | select =>
    cases proceeds with
    | queued found unsent =>
      have unresolved := (exclusive _ found unsent).1
      refine .fetched fun already => ?_
      obtain ⟨row,same,set⟩ := tracked.kept already
      cases found.symm.trans same
      exact set unresolved
    | gone found sent => exact .gone
    | missing absent =>
      obtain ⟨row,present⟩ := verified_row tracked.verified
      cases absent.symm.trans present
    | other before after => cases before
  | fetched live =>
    cases proceeds with
    | marked accepted => exact .payload live
    | unmarked rejected =>
      obtain ⟨next,accepted⟩ := mark_accepted exclusive
      cases rejected.symm.trans accepted
    | other before after => cases before
  | gone => cases proceeds with
    | other before after => cases before
  | payload live => cases proceeds with
    | other before after => cases before

theorem tracked_step {s t : Server} (tracked : Tracked resolved token runId index s)
    (step : Guarded Exclusive Acts s action t) : Tracked resolved token runId index t := by
  obtain ⟨exclusive,acted⟩ := step
  refine ⟨acts_token_kept acted tracked.verified,fun already => acted.resolved (tracked.kept already),?_⟩
  obtain ⟨call,present,progress⟩ := tracked.progress
  have inside := (List.getElem?_eq_some_iff.mp present).1
  cases action with
  | begin other =>
    rw [(acts_begin acted).2]
    exact ⟨call,by rw [List.getElem?_append_left inside]; exact present,progress⟩
  | advance turn now =>
    obtain ⟨moving,next,found,calls,proceeds⟩ := advance_proceeds acted
    rw [calls]
    by_cases mine : turn = index
    · subst turn
      rw [found] at present
      cases present
      exact ⟨next,List.getElem?_set_self inside,progress_step tracked (exclusive _ found) proceeds progress⟩
    · exact ⟨call,by rw [List.getElem?_set_ne mine]; exact present,progress⟩

-- Two requests with one token hold the payload only if they are one request;
-- and every request of a known token is pending, Gone, or paid for a run that
-- was not resolved when it began.
theorem bootstrap_handed_out_once (origin after : Server) (actions : List Action) (token : String)
    (idle : origin.calls = []) (path : Runs (Guarded Exclusive Acts) origin actions after) :
    (∀ (i j : Nat) one two first second, after.calls[i]? = some (.bootstrapDone token one (.ok first)) →
      after.calls[j]? = some (.bootstrapDone token two (.ok second)) → i = j) ∧
    ∀ earlier later s runId, actions = earlier ++ .begin (.bootstrapVerify token) :: later →
      Runs (Guarded Exclusive Acts) origin earlier s → verifyRunToken s.db token = .ok runId →
      ∃ call, after.calls[s.calls.length]? = some call ∧ Progress (Resolved runId s) token runId call := by
  constructor
  · have initial : Invariant origin := ⟨by simp [idle],by simp [idle],by simp [idle]⟩
    have valid := path.invariant Invariant (fun _ _ _ => step_invariant) initial
    intro i j one two first second paid again
    have known := valid.granted i _ token one paid rfl
    cases known.symm.trans (valid.granted j _ token two again rfl)
    exact valid.single i j _ _ one paid again (.inr rfl) (.inr rfl)
  · intro earlier later s runId split reached verified
    subst split
    obtain ⟨middle,prior,rest⟩ := path.append_inv
    obtain ⟨begun,step,remaining⟩ := rest.cons_inv
    cases reached.functional acts_functional prior
    have tracked : Tracked (Resolved runId s) token runId s.calls.length begun := by
      obtain ⟨_,rfl⟩ := acts_begin step.2
      exact ⟨verified,id,_,by simp,.verify⟩
    exact (remaining.invariant _ (fun _ _ _ => tracked_step) tracked).progress

def payload? : Call → Option (String × String × Bootstrap)
  | .bootstrapDone token runId (.ok bootstrap) => some (token,runId,bootstrap)
  | _ => none

theorem payload?_done (paid : payload? call = some (token,runId,bootstrap)) :
    call = .bootstrapDone token runId (.ok bootstrap) := by
  unfold payload? at paid
  split at paid <;> cases paid
  rfl

def created : List Action :=
  [.begin (.createSelect ⟨"run-1","test.git","refs/heads/main","abc123",5,some "token-1"⟩),
    .advance 0 10,.advance 0 10,.advance 0 10]

def fetchTwice : List Action :=
  [.begin (.bootstrapVerify "token-1"),.begin (.bootstrapVerify "token-1"),.advance 1 20,.advance 2 20]

def oneAfterTheOther : List Action :=
  created ++ fetchTwice ++ [.advance 1 20,.advance 1 20,.advance 2 21]

-- Both requests read the row before either marks it.
def bothSelect : List Action :=
  created ++ fetchTwice ++ [.advance 1 20,.advance 2 20,.advance 1 20,.advance 2 20]

def handedOut : Bootstrap := ⟨⟨"abc123","refs/heads/main",5⟩,"test.git","run-1",none⟩

theorem bootstrap_handed_out_once_sequential : ∃ after call,
    Server.start.runUnder Exclusive oneAfterTheOther = some after ∧ after.calls[2]? = some call ∧
    Progress False "token-1" "run-1" call := by
  obtain ⟨after,ran⟩ := Option.isSome_iff_exists.mp
    (show (Server.start.runUnder Exclusive oneAfterTheOther).isSome = true by decide)
  obtain ⟨begun,first⟩ := Option.isSome_iff_exists.mp
    (show (Server.start.runUnder Exclusive (created ++ fetchTwice.take 1)).isSome = true by decide)
  have known : (Server.start.runUnder Exclusive (created ++ fetchTwice.take 1)).all fun s =>
      (verifyRunToken s.db "token-1").toOption == some "run-1" && s.calls.length == 2 &&
        s.db.rows.all fun row => row.resolvedAt.isNone := by decide
  rw [first,Option.all_some,Bool.and_eq_true,Bool.and_eq_true] at known
  obtain ⟨⟨token,length⟩,open_⟩ := known
  have verified : verifyRunToken begun.db "token-1" = .ok "run-1" := by
    cases verdict : verifyRunToken begun.db "token-1" with
    | error error => simp [verdict,Except.toOption] at token
    | ok runId => simpa [verdict,Except.toOption] using token
  obtain ⟨call,present,progress⟩ := (bootstrap_handed_out_once .start after oneAfterTheOther "token-1" rfl
    (runUnder_runs ran)).2 (created ++ fetchTwice.take 1) _ begun "run-1" rfl (runUnder_runs first) verified
  rw [eq_of_beq length] at present
  have live : ¬ Resolved "run-1" begun := by
    intro resolved
    obtain ⟨row,found,set⟩ := resolved
    exact set (by simpa using List.all_eq_true.mp open_ row (row?_mem found))
  simp only [live] at progress
  exact ⟨after,call,ran,present,progress⟩

theorem both_requests_paid : ¬ ∀ actions after token (i j : Nat) one two first second,
    Runs Acts .start actions after → after.calls[i]? = some (.bootstrapDone token one (.ok first)) →
    after.calls[j]? = some (.bootstrapDone token two (.ok second)) → i = j := by
  intro claim
  obtain ⟨after,ran⟩ := Option.isSome_iff_exists.mp
    (show (Server.start.run bothSelect).isSome = true by decide)
  have paid : (Server.start.run bothSelect).bind (fun s => s.calls[1]?.bind payload?) =
    some ("token-1","run-1",handedOut) := by decide
  have again : (Server.start.run bothSelect).bind (fun s => s.calls[2]?.bind payload?) =
    some ("token-1","run-1",handedOut) := by decide
  rw [ran,Option.bind_some] at paid again
  obtain ⟨first,one,paid⟩ := Option.bind_eq_some_iff.mp paid
  obtain ⟨second,two,again⟩ := Option.bind_eq_some_iff.mp again
  rw [payload?_done paid] at one
  rw [payload?_done again] at two
  exact absurd (claim bothSelect after "token-1" 1 2 _ _ _ _ (run_runs ran) one two) (by decide)

-- A push supersedes the queued run, and a request that begins afterwards, in
-- the same millisecond, is still paid.
example : (Server.start.run (created ++
    [.begin (.createSelect ⟨"run-2","test.git","refs/heads/main","def456",15,some "token-2"⟩),
      .advance 1 20,.advance 1 20,.begin (.bootstrapVerify "token-1"),.advance 2 20,.advance 2 20,.advance 2 20])).bind
    (fun s => s.calls[2]?.bind payload?) = some ("token-1","run-1",handedOut) := by decide

end Quire.BootstrapRace
