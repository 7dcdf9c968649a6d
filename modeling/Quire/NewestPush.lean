import Quire.CiRuntime
import Quire.PushEvents
import Quire.SupersedeRace

namespace Quire.NewestPush
open PushEvents KeyedTable RunsTable RunLifecycle RunsCalls RunsServer SupersedeRace StepSystem
open CiRuntime (asMillisecond)

-- Between two refs, or from the first statement of `Runs::create` until the run
-- it created has been executed.
inductive Phase where
  | idle
  | creating (call : Nat)
  deriving DecidableEq, Repr

-- A task of `handle_event_connection` in `ci::trigger`, with the refs it still
-- has to go through.
structure Handler where
  event : PushEvent
  left : List PushRef
  phase : Phase
  deriving DecidableEq, Repr

-- The event listener over the calls on the database. `pushedAt` remembers the
-- push that each run was created for.
structure Listener where
  server : Server
  handlers : List Handler
  pushedAt : String → Option Int

def Listener.start : Listener := ⟨Server.start,[],fun _ => none⟩

def newRun (event : PushEvent) (update : PushRef) (id token : String) : NewRun :=
  ⟨id,event.repo,update.refName,update.newSha,asMillisecond event.pushedAt,some token⟩

-- `skip` is a commit without a pipeline. After its create a handler goes on with
-- `next` at any later time: executing the run takes as long as it takes, and the
-- statements of that time are calls of their own.
inductive Action where
  | deliver (event : PushEvent)
  | skip (index : Nat)
  | create (index : Nat) (id token : String)
  | next (index : Nat)
  | call (call : Call)
  | advance (index : Nat) (now : Int)

-- The run a call creates, and whether the call is through.
def created? : Call → Option NewRun
  | .createSelect run | .createCancel run _ _ | .createInsert run | .createDone run _ => some run
  | _ => none

-- A create before the last UPDATE of its `cancel_existing`.
def clearing? : Call → Option NewRun
  | .createSelect run | .createCancel run _ _ => some run
  | _ => none

def inserting? : Call → Option NewRun
  | .createInsert run => some run
  | _ => none

def finished : Call → Bool
  | .createDone _ _ => true
  | _ => false

-- The events of one repository arrive in the order of their pushes, and no two
-- runs share an id.
def Listener.act (s : Listener) : Action → Option Listener
  | .deliver event =>
    if ∀ handler ∈ s.handlers, handler.event.repo = event.repo → handler.event.pushedAt ≤ event.pushedAt then
      some { s with handlers := s.handlers ++ [⟨event,event.dispatched,.idle⟩] }
    else none
  | .skip index =>
    match s.handlers[index]? with
    | some ⟨event,_ :: rest,.idle⟩ => some { s with handlers := s.handlers.set index ⟨event,rest,.idle⟩ }
    | _ => none
  | .create index id token =>
    match s.handlers[index]? with
    | some ⟨event,update :: rest,.idle⟩ =>
      if s.pushedAt id = none then
        some ⟨⟨s.server.db,s.server.calls ++ [.createSelect (newRun event update id token)]⟩,
          s.handlers.set index ⟨event,rest,.creating s.server.calls.length⟩,
          Function.update s.pushedAt id (some event.pushedAt)⟩
      else none
    | _ => none
  | .next index =>
    match s.handlers[index]? with
    | some ⟨event,left,.creating call⟩ =>
      if (s.server.calls[call]?).any finished then
        some { s with handlers := s.handlers.set index ⟨event,left,.idle⟩ }
      else none
    | _ => none
  | .call call =>
    if created? call = none then (s.server.act (.begin call)).map fun server => { s with server := server } else none
  | .advance index now => (s.server.act (.advance index now)).map fun server => { s with server := server }

def Acts (before : Listener) (action : Action) (after : Listener) : Prop := before.act action = some after

-- The step at which the create of one run marks another one superseded.
structure Supersedes (before : Listener) (action : Action) (new : NewRun) (row : RunRow) : Prop where
  issues : ∃ index now cancelNow ids stmt, action = .advance index now ∧
    before.server.calls[index]? = some (.createCancel new cancelNow ids) ∧
    before.server.writes (.advance index now) = some stmt ∧ stmt.selects row = true
  found : before.server.db.row? row.id = some row
  unresolved : row.resolvedAt = none

def SupersededBy (row : RunRow) (new : NewRun) (actions : List Action) (s : Listener) : Prop :=
  ∃ earlier action later before after, actions = earlier ++ action :: later ∧ Runs Acts Listener.start earlier before ∧
    Acts before action after ∧ Runs Acts after later s ∧ Supersedes before action new row

-- The push of `first` is the earlier one, or the same.
def Precedes (s : Listener) (first second : String) : Prop :=
  ∃ p q, s.pushedAt first = some p ∧ s.pushedAt second = some q ∧ p ≤ q

-- Every other run that a create has been issued for on the ref of this one is
-- for an earlier push.
def Latest (s : Listener) (row : RunRow) : Prop :=
  ∀ call ∈ s.server.calls, ∀ run ∈ created? call, run.repo = row.repo → run.refName = row.refName → run.id ≠ row.id →
    ¬ Precedes s row.id run.id

structure NewestWins (actions : List Action) (s : Listener) : Prop where
  superseded : ∀ row new, SupersededBy row new actions s → Precedes s row.id new.id
  standing : ∀ row, Latest s row → ∀ new, ¬ SupersededBy row new actions s

-- Where the two runs are on one ref, `first` is not for a later push than `second`.
def InOrder (s : Listener) (first second : NewRun) : Prop :=
  second.repo = first.repo → second.refName = first.refName →
    ∀ pushed ∈ s.pushedAt first.id, ∀ other ∈ s.pushedAt second.id, pushed ≤ other

-- Creates come in push order on each ref: none starts while a run of a later
-- push is unresolved there, and no run of a later push is inserted while an
-- earlier one is still clearing the ref.
def InPushOrder (s : Listener) : Action → Prop
  | .create index _ _ => ∀ handler ∈ s.handlers[index]?, ∀ update ∈ handler.left.head?, ∀ row ∈ s.server.db.rows,
      row.resolvedAt = none → row.repo = handler.event.repo → row.refName = update.refName →
      ∀ pushed ∈ s.pushedAt row.id, pushed ≤ handler.event.pushedAt
  | .advance index _ => ∀ call ∈ s.server.calls[index]?, ∀ run ∈ inserting? call,
      ∀ other ∈ s.server.calls.filterMap clearing?, InOrder s run other
  | _ => True

instance (s : Listener) (first second : NewRun) : Decidable (InOrder s first second) :=
  inferInstanceAs (Decidable (second.repo = first.repo → second.refName = first.refName →
    ∀ pushed ∈ s.pushedAt first.id, ∀ other ∈ s.pushedAt second.id, pushed ≤ other))

instance (s : Listener) : DecidablePred (InPushOrder s)
  | .create index _ _ => inferInstanceAs (Decidable (∀ handler ∈ s.handlers[index]?, ∀ update ∈ handler.left.head?,
      ∀ row ∈ s.server.db.rows, row.resolvedAt = none → row.repo = handler.event.repo → row.refName = update.refName →
      ∀ pushed ∈ s.pushedAt row.id, pushed ≤ handler.event.pushedAt))
  | .advance index _ => inferInstanceAs (Decidable (∀ call ∈ s.server.calls[index]?, ∀ run ∈ inserting? call,
      ∀ other ∈ s.server.calls.filterMap clearing?, InOrder s run other))
  | .deliver _ | .skip _ | .next _ | .call _ => .isTrue trivial

-- What one statement makes of a call.
inductive Follows (db : RunsTable) : Call → Call → Prop where
  | selected : Follows db (.createSelect run) (.createCancel run now (activeIds db run.repo run.refName))
  | cancelled : Follows db (.createCancel run cancelNow (runId :: rest)) (.createCancel run cancelNow rest)
  | cleared : Follows db (.createCancel run cancelNow []) (.createInsert run)
  | done : created? call = some run → finished call = false → Follows db call (.createDone run result)
  | other : created? call = none → created? next = none → Follows db call next

theorem reads_follows (silent : call.statement now = none) (ran : call.reads now db = some next) : Follows db call next := by
  cases call with
  | createSelect run => cases ran; exact .selected
  | bootstrapVerify token =>
    simp only [Call.reads] at ran
    split at ran <;> cases ran <;> exact .other rfl rfl
  | bootstrapSelect token runId =>
    simp only [Call.reads] at ran
    split at ran <;> cases ran <;> exact .other rfl rfl
  | dispatch self => cases ran; exact .other rfl rfl
  | resolve self outcome => cases ran; exact .other rfl rfl
  | _ => cases ran

theorem accepted_follows (issued : call.statement now = some stmt) : Follows db call call.accepted := by
  cases call with
  | createCancel run cancelNow ids =>
    cases ids with
    | nil => exact .cleared
    | cons runId rest => exact .cancelled
  | createInsert run => exact .done rfl rfl
  | createSelect run => cases issued
  | createDone run result => cases issued
  | _ => exact .other rfl rfl

theorem refused_follows (issued : call.statement now = some stmt) : Follows db call (call.refused error) := by
  cases call with
  | createCancel run cancelNow ids => exact .done rfl rfl
  | createInsert run => exact .done rfl rfl
  | createSelect run => cases issued
  | createDone run result => cases issued
  | _ => exact .other rfl rfl

-- One advance: the call it moves on, and the write it puts through, if any.
theorem advance_follows {before after : Server} (step : RunsServer.Acts before (.advance index now) after) :
    ∃ call next, before.calls[index]? = some call ∧ after.calls = before.calls.set index next ∧ Follows before.db call next ∧
      (after.db = before.db ∨ ∃ stmt, call.statement now = some stmt ∧ stmt.exec before.db = .ok after.db) := by
  obtain ⟨call,held,advanced⟩ := acts_advance step
  cases advanced with
  | read silent ran result =>
    rw [result]
    exact ⟨call,_,held,rfl,reads_follows silent ran,.inl rfl⟩
  | wrote issued accepted result =>
    rw [result]
    exact ⟨call,_,held,rfl,accepted_follows issued,.inr ⟨_,issued,accepted⟩⟩
  | refused issued rejected result =>
    rw [result]
    exact ⟨call,_,held,rfl,refused_follows issued,.inl rfl⟩

theorem Follows.created (follows : Follows db call next) : created? next = created? call := by
  cases follows with
  | done creates _ => exact creates.symm
  | other none still => rw [none,still]
  | _ => rfl

theorem Follows.clearing (follows : Follows db call next) (clears : clearing? next = some run) : clearing? call = some run := by
  cases follows with
  | other _ none => cases next <;> cases clears <;> cases none
  | selected => exact clears
  | cancelled => exact clears
  | cleared => cases clears
  | done _ _ => cases clears

-- The run of a create that is not through.
def pending? (call : Call) : Option NewRun := if finished call then none else created? call

theorem Follows.pending (follows : Follows db call next) (pends : pending? next = some run) : pending? call = some run := by
  cases follows with
  | done _ _ => cases pends
  | other none still =>
    simp only [pending?,still,ite_self] at pends
    cases pends
  | _ => exact pends

theorem clearing_pending (clears : clearing? call = some run) : pending? call = some run := by
  cases call <;> first | exact clears | cases clears

theorem pending_created (pends : pending? call = some run) : created? call = some run := by
  unfold pending? at pends
  split at pends
  · cases pends
  · exact pends

-- What any step of the listener does to the database, the calls and the pushes.
inductive Effect (before after : Listener) : Action → Prop where
  | handled (server : after.server = before.server) (pushes : after.pushedAt = before.pushedAt) : Effect before after action
  | created (held : before.handlers[index]? = some ⟨event,update :: rest,.idle⟩) (unused : before.pushedAt runId = none)
      (server : after.server = ⟨before.server.db,before.server.calls ++ [.createSelect (newRun event update runId token)]⟩)
      (pushes : after.pushedAt = Function.update before.pushedAt runId (some event.pushedAt)) :
      Effect before after (.create index runId token)
  | called (idle : created? call = none) (server : after.server = ⟨before.server.db,before.server.calls ++ [call]⟩)
      (pushes : after.pushedAt = before.pushedAt) : Effect before after (.call call)
  | advanced (step : RunsServer.Acts before.server (.advance index now) after.server)
      (pushes : after.pushedAt = before.pushedAt) : Effect before after (.advance index now)

theorem acts_effect (step : Acts before action after) : Effect before after action := by
  cases action with
  | deliver event =>
    simp only [Acts,Listener.act] at step
    split at step
    · cases step; exact .handled rfl rfl
    · cases step
  | skip index =>
    simp only [Acts,Listener.act] at step
    split at step
    · cases step; exact .handled rfl rfl
    · cases step
  | create index id token =>
    simp only [Acts,Listener.act] at step
    split at step
    · rename_i event update rest held
      split at step
      · rename_i unused; cases step; exact .created held unused rfl rfl
      · cases step
    · cases step
  | next index =>
    simp only [Acts,Listener.act] at step
    split at step
    · split at step
      · cases step; exact .handled rfl rfl
      · cases step
    · cases step
  | call call =>
    simp only [Acts,Listener.act] at step
    split at step
    · rename_i idle
      obtain ⟨server,began,rfl⟩ := Option.map_eq_some_iff.mp step
      exact .called idle (acts_begin began).2 rfl
    · cases step
  | advance index now =>
    obtain ⟨server,advanced,rfl⟩ := Option.map_eq_some_iff.mp step
    exact .advanced advanced rfl

-- The bookkeeping of every history: who has an id, and what a pending create
-- still finds.
structure Ledger (s : Listener) : Prop where
  issued : ∀ (index : Nat) call run, s.server.calls[index]? = some call → created? call = some run →
    ∃ pushed, s.pushedAt run.id = some pushed
  distinct : ∀ (index other : Nat) call held first second, s.server.calls[index]? = some call →
    s.server.calls[other]? = some held → created? call = some first → created? held = some second →
    first.id = second.id → index = other
  rows : ∀ runId row, s.server.db.row? runId = some row → ∃ pushed, s.pushedAt runId = some pushed
  fresh : ∀ (index : Nat) call run, s.server.calls[index]? = some call → pending? call = some run →
    s.server.db.row? run.id = none
  listed : ∀ (index : Nat) run cancelNow ids, s.server.calls[index]? = some (.createCancel run cancelNow ids) →
    ∀ runId ∈ ids, ∃ row, s.server.db.row? runId = some row ∧ row.repo = run.repo ∧ row.refName = run.refName

theorem start_ledger : Ledger Listener.start := by
  constructor
  · intro index call run held
    cases held
  · intro index other call held first second one
    cases one
  · intro runId row found
    cases found
  · intro index call run held
    cases held
  · intro index run cancelNow ids held
    cases held

-- A call begins that creates nothing.
theorem called_ledger (ledger : Ledger before) (idle : created? call = none)
    (server : after.server = ⟨before.server.db,before.server.calls ++ [call]⟩) (pushes : after.pushedAt = before.pushedAt) :
    Ledger after := by
  have earlier : ∀ {index : Nat} {held run}, (before.server.calls ++ [call])[index]? = some held → created? held = some run →
      before.server.calls[index]? = some held := by
    intro index held run present creates
    rcases append_cases present with old | rfl
    · exact old
    · cases idle.symm.trans creates
  constructor
  · intro index held run present creates
    rw [server] at present
    rw [pushes]
    exact ledger.issued index held run (earlier present creates) creates
  · intro index other left right first second one two creates makes same
    rw [server] at one two
    exact ledger.distinct index other left right first second (earlier one creates) (earlier two makes) creates makes same
  · rw [server,pushes]
    exact ledger.rows
  · intro index held run present pends
    rw [server] at present ⊢
    exact ledger.fresh index held run (earlier present (pending_created pends)) pends
  · intro index run cancelNow ids present
    rw [server] at present ⊢
    exact ledger.listed index run cancelNow ids (earlier present rfl)

-- The id of a call that was there is taken, and an unused id is not.
theorem unused_differs {index : Nat} {s : Listener} (ledger : Ledger s) (unused : s.pushedAt runId = none)
    (present : s.server.calls[index]? = some held)
    (creates : created? held = some made) : made.id ≠ runId := by
  intro same
  obtain ⟨stamp,known⟩ := ledger.issued index held made present creates
  rw [same,unused] at known
  cases known

-- A create that starts with an id nobody has does not share it with another.
theorem created_distinct (ledger : Ledger before) (unused : before.pushedAt run.id = none) {index other : Nat} {call held : Call}
    {first second : NewRun} (one : (before.server.calls ++ [.createSelect run])[index]? = some call)
    (two : (before.server.calls ++ [.createSelect run])[other]? = some held) (creates : created? call = some first)
    (makes : created? held = some second) (same : first.id = second.id) : index = other := by
  rcases append_at one with old | ⟨atEnd,rfl⟩
  · rcases append_at two with older | ⟨_,rfl⟩
    · exact ledger.distinct index other call held first second old older creates makes same
    · cases makes
      exact absurd same (unused_differs ledger unused old creates)
  · cases creates
    rcases append_at two with old | ⟨alsoEnd,_⟩
    · exact absurd same.symm (unused_differs ledger unused old makes)
    · omega

theorem created_ledger (ledger : Ledger before) (unused : before.pushedAt run.id = none)
    (server : after.server = ⟨before.server.db,before.server.calls ++ [.createSelect run]⟩)
    (pushes : after.pushedAt = Function.update before.pushedAt run.id (some pushed)) : Ledger after := by
  have kept : ∀ runId stamp, before.pushedAt runId = some stamp → after.pushedAt runId = some stamp := by
    intro runId stamp known
    have other : runId ≠ run.id := fun same => by rw [same,unused] at known; cases known
    rw [pushes,Function.update_of_ne other,known]
  constructor
  · intro index held made present creates
    rw [server] at present
    rcases append_cases present with old | rfl
    · obtain ⟨stamp,known⟩ := ledger.issued index held made old creates
      exact ⟨stamp,kept _ _ known⟩
    · cases creates
      exact ⟨pushed,by rw [pushes,Function.update_self]⟩
  · intro index other left right first second one two creates makes same
    rw [server] at one two
    exact created_distinct ledger unused one two creates makes same
  · intro runId row found
    rw [server] at found
    obtain ⟨stamp,known⟩ := ledger.rows runId row found
    exact ⟨stamp,kept _ _ known⟩
  · intro index held made present pends
    rw [server] at present ⊢
    rcases append_cases present with old | rfl
    · exact ledger.fresh index held made old pends
    · cases pends
      cases found : before.server.db.row? run.id with
      | none => rfl
      | some row =>
        obtain ⟨stamp,known⟩ := ledger.rows run.id row found
        cases unused.symm.trans known
  · intro index made cancelNow ids present
    rw [server] at present ⊢
    rcases append_cases present with old | new
    · exact ledger.listed index made cancelNow ids old
    · cases new

-- A row of the table after one statement was there before, unless it is the
-- row of the create that has just inserted it.
theorem row_origin {db next : RunsTable} {call : Call} {stmt : RunsStmt} (issued : call.statement now = some stmt)
    (accepted : stmt.exec db = .ok next)
    (found : next.row? runId = some row) :
    (∃ old, db.row? runId = some old ∧ Forward old row) ∨
      ∃ run, call = .createInsert run ∧ runId = run.id ∧ row = run.row now := by
  cases update : stmt.isInsert with
  | false =>
    obtain ⟨old,present,forward⟩ := exec_origin update accepted found
    exact .inl ⟨old,present,forward⟩
  | true =>
    cases call with
    | createInsert run =>
      cases issued
      rw [exec_insert_row? accepted] at found
      split at found
      · rename_i same
        cases found
        exact .inr ⟨run,rfl,same,rfl⟩
      · exact .inl ⟨row,found,.refl row⟩
    | createCancel run cancelNow ids => cases ids <;> cases issued <;> cases update
    | dispatch self =>
      simp only [Call.statement] at issued
      split at issued <;> cases issued
      cases update
    | resolve self outcome =>
      simp only [Call.statement] at issued
      split at issued <;> cases issued
      cases update
    | reconcile => cases issued; cases update
    | storeBootstrap self traceparent => cases issued; cases update
    | bootstrapFetched token runId bootstrap => cases issued; cases update
    | _ => cases issued

section advance
variable {s before after : Listener} {index position : Nat} {now : Int} {call next moved : Call} {run : NewRun} {last : RunsTable}

-- An advance begins no call: what the calls hold that its call keeps was held
-- at the same place.
theorem set_holds (read : Call → Option NewRun) {calls : List Call} (held : calls[index]? = some call)
    (keeps : ∀ {run}, read next = some run → read call = some run) (present : (calls.set index next)[position]? = some moved)
    (holds : read moved = some run) : ∃ still, calls[position]? = some still ∧ read still = some run := by
  rcases set_cases present with ⟨rfl,rfl⟩ | ⟨_,old⟩
  · exact ⟨call,held,keeps holds⟩
  · exact ⟨moved,old,holds⟩

-- A row after a write is of a run whose push is known.
theorem wrote_known (ledger : Ledger s) (held : s.server.calls[index]? = some call)
    (wrote : last = s.server.db ∨ ∃ stmt, call.statement now = some stmt ∧ stmt.exec s.server.db = .ok last)
    (found : last.row? runId = some row) : ∃ pushed, s.pushedAt runId = some pushed := by
  rcases wrote with same | ⟨stmt,issued,accepted⟩
  · rw [same] at found
    exact ledger.rows runId row found
  · rcases row_origin issued accepted found with ⟨old,was,_⟩ | ⟨run,rfl,rfl,_⟩
    · exact ledger.rows runId old was
    · exact ledger.issued index _ run held rfl

-- Only the INSERT of a create makes its row, and then it is through.
theorem wrote_fresh (ledger : Ledger s) (held : s.server.calls[index]? = some call) (follows : Follows s.server.db call next)
    (wrote : last = s.server.db ∨ ∃ stmt, call.statement now = some stmt ∧ stmt.exec s.server.db = .ok last)
    (present : (s.server.calls.set index next)[position]? = some moved) (waits : pending? moved = some run) :
    last.row? run.id = none := by
  obtain ⟨still,was,waited⟩ := set_holds pending? held follows.pending present waits
  have absent := ledger.fresh position still run was waited
  cases found : last.row? run.id with
  | none => rfl
  | some row =>
    exfalso
    rcases wrote with same | ⟨stmt,issued,accepted⟩
    · rw [same,absent] at found
      cases found
    · rcases row_origin issued accepted found with ⟨old,there,_⟩ | ⟨inserted,rfl,same,_⟩
      · cases absent.symm.trans there
      · have here : position = index :=
          ledger.distinct position index still _ run inserted was held (pending_created waited) rfl same
        subst here
        rcases set_cases present with ⟨_,rfl⟩ | ⟨other,_⟩
        · cases follows with
          | done _ _ => cases waits
          | other none _ => cases none
        · exact other rfl

-- The runs that a create has listed were there when it read them.
theorem set_listed (ledger : Ledger s) (held : s.server.calls[index]? = some call) (follows : Follows s.server.db call next)
    (present : (s.server.calls.set index next)[position]? = some (.createCancel run cancelNow ids)) :
    ∀ runId ∈ ids, ∃ row, s.server.db.row? runId = some row ∧ row.repo = run.repo ∧ row.refName = run.refName := by
  intro runId member
  rcases set_cases present with ⟨rfl,same⟩ | ⟨_,old⟩
  · subst same
    cases follows with
    | selected =>
      obtain ⟨row,found,repo,refName,_⟩ := mem_activeIds.mp member
      exact ⟨row,found,repo,refName⟩
    | cancelled => exact ledger.listed position run cancelNow _ held runId (List.mem_cons_of_mem _ member)
    | other _ none => cases none
  · exact ledger.listed position run cancelNow ids old runId member

theorem advanced_ledger (ledger : Ledger before) (step : RunsServer.Acts before.server (.advance index now) after.server)
    (pushes : after.pushedAt = before.pushedAt) : Ledger after := by
  obtain ⟨call,next,held,calls,follows,wrote⟩ := advance_follows step
  have forward : Evolves Forward before.server.db after.server.db := step.forward
  have creates : ∀ {run}, created? next = some run → created? call = some run := fun made => follows.created ▸ made
  constructor
  · intro position moved run present made
    rw [calls] at present
    obtain ⟨still,was,made⟩ := set_holds created? held creates present made
    rw [pushes]
    exact ledger.issued position still run was made
  · intro position other moved beside first second one two made makes same
    rw [calls] at one two
    obtain ⟨left,wasLeft,made⟩ := set_holds created? held creates one made
    obtain ⟨right,wasRight,makes⟩ := set_holds created? held creates two makes
    exact ledger.distinct position other left right first second wasLeft wasRight made makes same
  · intro runId row found
    rw [pushes]
    exact wrote_known ledger held wrote found
  · intro position moved run present waits
    rw [calls] at present
    exact wrote_fresh ledger held follows wrote present waits
  · intro position run cancelNow ids present runId member
    rw [calls] at present
    obtain ⟨row,found,repo,refName⟩ := set_listed ledger held follows present runId member
    obtain ⟨last,still,moved⟩ := forward runId row found
    exact ⟨last,still,moved.repo.trans repo,moved.refName.trans refName⟩

end advance

theorem acts_ledger (ledger : Ledger before) (step : Acts before action after) : Ledger after := by
  cases acts_effect step with
  | handled server pushes =>
    obtain ⟨issued,distinct,rows,fresh,listed⟩ := ledger
    rw [← server] at issued distinct rows fresh listed
    rw [← pushes] at issued rows
    exact ⟨issued,distinct,rows,fresh,listed⟩
  | created _ unused server pushes => exact created_ledger ledger unused server pushes
  | called idle server pushes => exact called_ledger ledger idle server pushes
  | advanced advance pushes => exact advanced_ledger ledger advance pushes

-- While a create clears its ref, no run of a later push is unresolved there.
def Ordered (s : Listener) : Prop :=
  ∀ (index : Nat) call run, s.server.calls[index]? = some call → clearing? call = some run →
    ∀ row, Open s.server.db run.repo run.refName row →
      ∀ pushed clearing, s.pushedAt row.id = some pushed → s.pushedAt run.id = some clearing → pushed ≤ clearing

theorem created_ordered (ledger : Ledger before) (ordered : Ordered before)
    (held : before.handlers[index]? = some ⟨event,update :: rest,.idle⟩) (unused : before.pushedAt runId = none)
    (server : after.server = ⟨before.server.db,before.server.calls ++ [.createSelect (newRun event update runId token)]⟩)
    (pushes : after.pushedAt = Function.update before.pushedAt runId (some event.pushedAt))
    (order : InPushOrder before (.create index runId token)) : Ordered after := by
  intro position call run present clears row after_open pushed clearing first second
  rw [server] at present after_open
  have other : row.id ≠ runId := by
    intro same
    obtain ⟨stamp,known⟩ := ledger.rows row.id row after_open.1
    rw [same,unused] at known
    cases known
  rw [pushes,Function.update_of_ne other] at first
  rcases append_cases present with old | rfl
  · have taken : run.id ≠ runId := by
      intro same
      obtain ⟨stamp,known⟩ := ledger.issued position call run old (pending_created (clearing_pending clears))
      rw [same,unused] at known
      cases known
    rw [pushes,Function.update_of_ne taken] at second
    exact ordered position call run old clears row after_open pushed clearing first second
  · cases clears
    change after.pushedAt runId = some clearing at second
    rw [pushes,Function.update_self] at second
    cases second
    exact order ⟨event,update :: rest,.idle⟩ held update rfl row (row?_mem after_open.1) after_open.2.1 after_open.2.2.1
      after_open.2.2.2 pushed first

theorem advanced_ordered (ordered : Ordered before)
    (step : RunsServer.Acts before.server (.advance index now) after.server) (pushes : after.pushedAt = before.pushedAt)
    (order : InPushOrder before (.advance index now)) : Ordered after := by
  obtain ⟨call,next,held,calls,follows,wrote⟩ := advance_follows step
  intro position moved run present clears row unresolved pushed clearing first second
  rw [pushes] at first second
  have was : ∃ still, before.server.calls[position]? = some still ∧ clearing? still = some run := by
    rw [calls] at present
    rcases set_cases present with ⟨rfl,rfl⟩ | ⟨_,old⟩
    · exact ⟨call,held,follows.clearing clears⟩
    · exact ⟨moved,old,clears⟩
  obtain ⟨still,there,cleared⟩ := was
  rcases wrote with same | ⟨stmt,issued,accepted⟩
  · rw [same] at unresolved
    exact ordered position still run there cleared row unresolved pushed clearing first second
  · rcases row_origin issued accepted unresolved.1 with ⟨old,found,forward⟩ | ⟨inserted,rfl,same,rfl⟩
    · have own : row.id = old.id := forward.id
      have before_open : Open before.server.db run.repo run.refName old := by
        refine ⟨own ▸ found,?_,forward.repo.symm.trans unresolved.2.2.1,forward.refName.symm.trans unresolved.2.2.2⟩
        by_contra resolved
        exact resolved ((forward.resolvedAt resolved).symm.trans unresolved.2.1)
      rw [own] at first
      exact ordered position still run there cleared old before_open pushed clearing first second
    · -- The row of a create that has just inserted it.
      have waiting : run ∈ before.server.calls.filterMap clearing? :=
        List.mem_filterMap.mpr ⟨still,List.mem_of_getElem? there,cleared⟩
      exact order _ held inserted rfl run waiting unresolved.2.2.1.symm unresolved.2.2.2.symm pushed first clearing second

theorem acts_ordered (ledger : Ledger before) (ordered : Ordered before) (order : InPushOrder before action)
    (step : Acts before action after) : Ordered after := by
  cases acts_effect step with
  | handled server pushes =>
    unfold Ordered
    rw [server,pushes]
    exact ordered
  | created held unused server pushes => exact created_ordered ledger ordered held unused server pushes order
  | called idle server pushes =>
    intro position call run present clears
    rw [server] at present ⊢
    rw [pushes]
    rcases append_cases present with old | rfl
    · exact ordered position call run old clears
    · cases idle.symm.trans (pending_created (clearing_pending clears))
  | advanced advance pushes => exact advanced_ordered ordered advance pushes order

theorem history_ordered (history : Runs (Guarded InPushOrder Acts) Listener.start actions s) : Ledger s ∧ Ordered s := by
  refine history.invariant (fun s => Ledger s ∧ Ordered s) ?_ ⟨start_ledger,?_⟩
  · intro before action after valid step
    exact ⟨acts_ledger valid.1 step.2,acts_ordered valid.1 valid.2 step.1 step.2⟩
  · intro index call run held
    cases held

-- The statements of a create reach only the unresolved rows of its ref.
theorem supersedes_open (ledger : Ledger before) (supersedes : Supersedes before action new row) :
    Open before.server.db new.repo new.refName row ∧ ∃ (index : Nat) (call : Call),
      before.server.calls[index]? = some call ∧ clearing? call = some new := by
  obtain ⟨⟨index,now,cancelNow,ids,stmt,rfl,held,written,selected⟩,found,unresolved⟩ := supersedes
  simp only [Server.writes,held,Option.bind_some,Option.filter_eq_some_iff] at written
  refine ⟨?_,index,_,held,rfl⟩
  cases ids with
  | nil =>
    cases written.1
    simp only [RunsStmt.selects,Bool.and_eq_true,beq_iff_eq] at selected
    exact ⟨found,unresolved,selected.1.1.1,selected.1.1.2⟩
  | cons runId rest =>
    cases written.1
    have own : row.id = runId := by simpa [RunsStmt.selects] using selected
    obtain ⟨other,present,repo,refName⟩ := ledger.listed index new cancelNow _ held runId List.mem_cons_self
    rw [← own] at present
    cases found.symm.trans present
    exact ⟨found,unresolved,repo,refName⟩

theorem supersedes_earlier (ledger : Ledger before) (ordered : Ordered before) (supersedes : Supersedes before action new row) :
    Precedes before row.id new.id := by
  obtain ⟨unresolved,index,call,held,clears⟩ := supersedes_open ledger supersedes
  obtain ⟨pushed,first⟩ := ledger.rows row.id row unresolved.1
  obtain ⟨clearing,second⟩ := ledger.issued index call new held (pending_created (clearing_pending clears))
  exact ⟨pushed,clearing,first,second,ordered index call new held clears row unresolved pushed clearing first second⟩

-- Pushes stay known, and a create stays where it began.
structure Remembers (before after : Listener) : Prop where
  pushes : ∀ runId pushed, before.pushedAt runId = some pushed → after.pushedAt runId = some pushed
  creates : ∀ (index : Nat) call run, before.server.calls[index]? = some call → created? call = some run →
    ∃ later, after.server.calls[index]? = some later ∧ created? later = some run

theorem Remembers.refl (s : Listener) : Remembers s s :=
  ⟨fun _ _ known => known,fun _ call _ held made => ⟨call,held,made⟩⟩

theorem Remembers.trans (first : Remembers before middle) (second : Remembers middle after) : Remembers before after := by
  refine ⟨fun runId pushed known => second.pushes runId pushed (first.pushes runId pushed known),?_⟩
  intro index call run held made
  obtain ⟨later,still,makes⟩ := first.creates index call run held made
  exact second.creates index later run still makes

theorem begun_remembers (pushes : ∀ runId pushed, before.pushedAt runId = some pushed → after.pushedAt runId = some pushed)
    (calls : after.server.calls = before.server.calls ++ [call]) : Remembers before after := by
  refine ⟨pushes,fun index held run present made => ⟨held,?_,made⟩⟩
  rw [calls]
  exact (List.getElem?_append_left (List.getElem?_eq_some_iff.mp present).1).trans present

theorem acts_remembers (step : Acts before action after) : Remembers before after := by
  cases acts_effect step with
  | handled server pushes =>
    constructor
    · rw [pushes]
      exact fun _ _ known => known
    · rw [server]
      exact fun _ call _ held made => ⟨call,held,made⟩
  | created held unused server pushes =>
    apply begun_remembers _ (congrArg Server.calls server)
    intro other pushed known
    rw [pushes]
    refine (Function.update_of_ne ?_ _ _).trans known
    intro same
    rw [same] at known
    cases unused.symm.trans known
  | called idle server pushes =>
    apply begun_remembers _ (congrArg Server.calls server)
    rw [pushes]
    exact fun _ _ known => known
  | advanced advance pushes =>
    refine ⟨by rw [pushes]; exact fun _ _ known => known,?_⟩
    obtain ⟨moved,next,there,calls,follows,_⟩ := advance_follows advance
    intro index call run held made
    rw [calls,List.getElem?_set]
    split
    · rename_i same
      subst same
      cases there.symm.trans held
      rw [if_pos (List.getElem?_eq_some_iff.mp held).1]
      exact ⟨next,rfl,follows.created.trans made⟩
    · exact ⟨call,held,made⟩

theorem runs_remember (path : Runs Acts before actions after) : Remembers before after :=
  path.invariant (Remembers before) (fun _ _ _ held step => held.trans (acts_remembers step)) (.refl before)

theorem acts_functional : Functional Acts := fun _ _ _ _ left right => Option.some.inj (left.symm.trans right)

-- As long as creates come in push order, no run is superseded for an earlier
-- push, and the run of the latest push stands.
theorem newest_push_wins (history : Runs (Guarded InPushOrder Acts) Listener.start actions s) : NewestWins actions s := by
  have facts : ∀ row new, SupersededBy row new actions s → Precedes s row.id new.id ∧
      ∃ call ∈ s.server.calls, created? call = some new ∧ new.repo = row.repo ∧ new.refName = row.refName ∧
        new.id ≠ row.id := by
    intro row new superseded
    obtain ⟨earlier,action,later,before,after,rfl,reached,step,remaining,supersedes⟩ := superseded
    obtain ⟨middle,guarded,_⟩ := history.append_inv
    cases guarded.unguarded.functional acts_functional reached
    obtain ⟨ledger,ordered⟩ := history_ordered guarded
    obtain ⟨pushed,clearing,first,second,order⟩ := supersedes_earlier ledger ordered supersedes
    obtain ⟨unresolved,index,call,held,clears⟩ := supersedes_open ledger supersedes
    obtain ⟨pushes,creates⟩ := runs_remember ((Runs.single step).append remaining)
    obtain ⟨last,still,makes⟩ := creates index call new held (pending_created (clearing_pending clears))
    refine ⟨⟨pushed,clearing,pushes _ _ first,pushes _ _ second,order⟩,last,List.mem_of_getElem? still,makes,
      unresolved.2.2.1.symm,unresolved.2.2.2.symm,fun same => ?_⟩
    have absent := ledger.fresh index call new held (clearing_pending clears)
    rw [same,unresolved.1] at absent
    cases absent
  constructor
  · exact fun row new superseded => (facts row new superseded).1
  · intro row latest new superseded
    obtain ⟨precedes,call,held,made,repo,refName,other⟩ := facts row new superseded
    exact latest call held new made repo refName other precedes

def twoRefs : PushEvent :=
  ⟨"push","test.git",1000000,[⟨"refs/heads/a",zeroSha,"a1"⟩,⟨"refs/heads/b",zeroSha,"b1"⟩]⟩

def oneRef : PushEvent := ⟨"push","test.git",2000000,[⟨"refs/heads/b","b1","b2"⟩]⟩

-- The first handler creates the run of its first ref, and later that of its second.
def firstRun : List Action := [.create 0 "run-a" "token-a",.advance 0 10,.advance 0 10,.advance 0 10]

-- A later push comes after all runs of the first one.
def inTurn : List Action := [.deliver twoRefs] ++ firstRun ++
  [.next 0,.create 0 "run-b1" "token-b1",.advance 1 11,.advance 1 11,.advance 1 11,
    .deliver oneRef,.create 1 "run-b2" "token-b2",.advance 2 12,.advance 2 12,.advance 2 12]

theorem newest_push_wins_in_turn : ∃ s, attempt Listener.act InPushOrder Listener.start inTurn = some s ∧
    (s.server.db.row? "run-b1").bind RunRow.outcome = some "superseded" ∧ NewestWins inTurn s := by
  obtain ⟨s,ran⟩ := Option.isSome_iff_exists.mp
    (show (attempt Listener.act InPushOrder Listener.start inTurn).isSome = true by decide)
  have superseded : (attempt Listener.act InPushOrder Listener.start inTurn).bind
      (fun s => (s.server.db.row? "run-b1").bind RunRow.outcome) = some "superseded" := by decide
  rw [ran] at superseded
  exact ⟨s,ran,superseded,newest_push_wins (attempt_runs ran)⟩

-- A later push comes while the first run of the first push executes.
def overtaken : List Action := [.deliver twoRefs] ++ firstRun ++
  [.deliver oneRef,.create 1 "run-b2" "token-b2",.advance 1 11,.advance 1 11,.advance 1 11,
    .next 0,.create 0 "run-b1" "token-b1",.advance 2 12]

theorem clearing_writes {call : Call} (clears : clearing? call = some run) (issued : call.statement now = some stmt) :
    ∃ cancelNow ids, call = .createCancel run cancelNow ids := by
  cases call with
  | createCancel made cancelNow ids => cases clears; exact ⟨cancelNow,ids,rfl⟩
  | createSelect made => cases issued
  | _ => cases clears

-- The create of the first push for its second ref meets the run of the later one.
theorem older_push_supersedes : ¬ ∀ (actions : List Action) (s : Listener), Runs Acts Listener.start actions s →
    NewestWins actions s := by
  intro claimed
  let whole := attempt Listener.act (fun _ _ => True) Listener.start overtaken
  obtain ⟨before,ran⟩ := Option.isSome_iff_exists.mp (show whole.isSome = true by decide)
  have row : whole.bind (fun s => s.server.db.row? "run-b2") = some
      ⟨"run-b2","test.git","refs/heads/b","b2",2,11,none,none,none,some "token-b2",none⟩ := by decide
  have clears : whole.bind (fun s => s.server.calls[2]?.bind clearing?) = some
      ⟨"run-b1","test.git","refs/heads/b","b1",1,some "token-b1"⟩ := by decide
  have writes : whole.bind (fun s => s.server.writes (.advance 2 12)) = some
      (.cancelQueued 12 "test.git" "refs/heads/b") := by decide
  have pushes : whole.map (fun s => (s.pushedAt "run-b2",s.pushedAt "run-b1")) = some (some 2000000,some 1000000) := by
    decide
  have acts : (whole.bind (fun s => s.act (.advance 2 12))).isSome = true := by decide
  rw [ran] at row clears writes pushes acts
  obtain ⟨after,acted⟩ := Option.isSome_iff_exists.mp acts
  have step : Acts before (.advance 2 12) after := acted
  have reached : Runs Acts Listener.start overtaken before := (attempt_runs ran).unguarded
  have second : before.server.calls[2]?.bind clearing? = _ := clears
  obtain ⟨call,held,clearing⟩ := Option.bind_eq_some_iff.mp second
  have issued : call.statement 12 = some (.cancelQueued 12 "test.git" "refs/heads/b") := by
    have written : before.server.writes (.advance 2 12) = _ := writes
    simp only [Server.writes,held,Option.bind_some,Option.filter_eq_some_iff] at written
    exact written.1
  obtain ⟨cancelNow,ids,same⟩ := clearing_writes clearing issued
  rw [same] at held
  have supersedes : Supersedes before (.advance 2 12) ⟨"run-b1","test.git","refs/heads/b","b1",1,some "token-b1"⟩
      ⟨"run-b2","test.git","refs/heads/b","b2",2,11,none,none,none,some "token-b2",none⟩ :=
    ⟨⟨2,12,cancelNow,ids,_,rfl,held,writes,by decide⟩,row,rfl⟩
  have wins := claimed (overtaken ++ [.advance 2 12]) after (reached.step step)
  obtain ⟨later,earlier,pushedLater,pushedEarlier,order⟩ := wins.superseded _ _
    ⟨overtaken,.advance 2 12,[],before,after,rfl,reached,step,.nil,supersedes⟩
  have kept := (acts_remembers step).1
  have both := Prod.mk.inj (Option.some.inj pushes)
  cases (kept _ _ both.1).symm.trans pushedLater
  cases (kept _ _ both.2).symm.trans pushedEarlier
  exact absurd order (by decide)

end Quire.NewestPush
