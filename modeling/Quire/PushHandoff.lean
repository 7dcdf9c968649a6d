import Quire.BootstrapRace
import Quire.FinishedInputs
import Quire.NewestPush
import Quire.PushWire

namespace Quire.PushHandoff
open KeyedTable RunsTable RunLifecycle RunsCalls RunsServer StepSystem PushEvents JsonTree PushWire
open BootstrapRace (grant Proceeds)
open NewestPush (created? newRun)
open CiRuntime (asMillisecond)

-- jiff's Timestamp::from_millisecond
def fromMillisecond (stamp : Int) : Int := stamp * 1000000

-- The body of the reply: `get_bootstrap` makes a timestamp of the column, and a
-- traceparent that is not there is left out.
def bootstrapTree (stamps : Stamps) (self : Bootstrap) : Tree :=
  .object ([("meta",.object [("sha",.string self.runMeta.sha),("ref",.string self.runMeta.refName),
    ("pushed_at",.string (stamps.print (fromMillisecond self.runMeta.pushedAt)))]),
    ("repo",.string self.repo),("run_id",.string self.runId)] ++
    self.traceparent.toList.map fun traceparent => ("traceparent",.string traceparent))

def reply (stamps : Stamps) (self : Bootstrap) : List UInt8 := writeTree (bootstrapTree stamps self)

def runMetaOf (stamps : Stamps) (tree : Tree) : Option RunMeta :=
  match fieldsOf [("sha",false),("ref",false),("pushed_at",false)] tree with
  | some [.string sha,.string refName,.string pushedAt] => (stamps.parse pushedAt).map fun pushedAt => ⟨sha,refName,pushedAt⟩
  | _ => none

def asOptionText : Tree → Option (Option String)
  | .null => some none
  | .string text => some (some text)
  | _ => none

def bootstrapOf (stamps : Stamps) (tree : Tree) : Option Bootstrap :=
  match fieldsOf [("meta",false),("repo",false),("run_id",false),("traceparent",true)] tree with
  | some [runMeta,.string repo,.string runId,traceparent] => do
    let runMeta ← runMetaOf stamps runMeta
    let traceparent ← asOptionText traceparent
    return ⟨runMeta,repo,runId,traceparent⟩
  | _ => none

-- `RunClient::fetch_bootstrap` on the body of a reply with status 200. The
-- timestamp is in nanoseconds now.
def fetchBootstrap (stamps : Stamps) (body : List UInt8) : Option Bootstrap := (parse body).bind (bootstrapOf stamps)

-- What the run-fns are told of the push.
def runtimeMeta (stamps : Stamps) (self : RunMeta) : CiRuntime.RunMeta := ⟨self.sha,self.refName,stamps.print self.pushedAt⟩

theorem bootstrapTree_fits (stamps : Stamps) (self : Bootstrap) : Fits (depth+3) (bootstrapTree stamps self) := by
  have runMeta : Fits (depth+2) (.object [("sha",.string self.runMeta.sha),("ref",.string self.runMeta.refName),
      ("pushed_at",.string (stamps.print (fromMillisecond self.runMeta.pushedAt)))]) := by
    apply Fits.object
    simp [Fits.string]
  apply Fits.object
  cases self.traceparent <;> simp [Fits.string,runMeta]

-- quire-ci reads what the handler answered.
theorem fetch_reply (stamps : Stamps) (self : Bootstrap) (inRange : stamps.inRange (fromMillisecond self.runMeta.pushedAt)) :
    fetchBootstrap stamps (reply stamps self) =
      some ⟨⟨self.runMeta.sha,self.runMeta.refName,fromMillisecond self.runMeta.pushedAt⟩,self.repo,self.runId,self.traceparent⟩ := by
  have fits : Fits depthLimit (bootstrapTree stamps self) := bootstrapTree_fits stamps self
  have whole : parse (writeTree (bootstrapTree stamps self) ++ []) = some (bootstrapTree stamps self) :=
    parse_write fits rfl stops_nil
  rw [List.append_nil] at whole
  rw [fetchBootstrap,reply,whole]
  cases held : self.traceparent <;>
    simp [bootstrapTree,bootstrapOf,runMetaOf,asOptionText,fieldsOf,member,held,stamps.read _ inRange]

-- The columns a create has written, which no statement changes.
structure Written (run : NewRun) (row : RunRow) : Prop where
  id : row.id = run.id
  repo : row.repo = run.repo
  refName : row.refName = run.refName
  sha : row.sha = run.sha
  pushedAtMs : row.pushedAtMs = run.pushedAtMs
  runToken : row.runToken = run.runToken

theorem Written.forward (written : Written run before) (forward : Forward before after) : Written run after where
  id := forward.id.trans written.id
  repo := forward.repo.trans written.repo
  refName := forward.refName.trans written.refName
  sha := forward.sha.trans written.sha
  pushedAtMs := forward.pushedAtMs.trans written.pushedAtMs
  runToken := forward.runToken.trans written.runToken

-- The payload is the one of this row, but for the traceparent.
structure Agrees (bootstrap : Bootstrap) (row : RunRow) : Prop where
  runMeta : bootstrap.runMeta = ⟨row.sha,row.refName,row.pushedAtMs⟩
  repo : bootstrap.repo = row.repo
  runId : bootstrap.runId = row.id

theorem Agrees.forward (agrees : Agrees bootstrap before) (forward : Forward before after) : Agrees bootstrap after where
  runMeta := by rw [agrees.runMeta,forward.sha,forward.refName,forward.pushedAtMs]
  repo := agrees.repo.trans forward.repo.symm
  runId := agrees.runId.trans forward.id.symm

def carried? : Call → Option (String × String × Bootstrap)
  | .bootstrapFetched token runId bootstrap | .bootstrapDone token runId (.ok bootstrap) => some (token,runId,bootstrap)
  | _ => none

-- Rows are of creates, and payloads are of rows.
structure Told (s : Server) : Prop where
  rows : ∀ runId row, s.db.row? runId = some row → ∃ (index : Nat) (call : Call) (run : NewRun), s.calls[index]? = some call ∧
    created? call = some run ∧ Written run row
  granted : ∀ (index : Nat) call token runId, s.calls[index]? = some call → grant call = some (token,runId) →
    verifyRunToken s.db token = .ok runId
  carried : ∀ (index : Nat) call token runId bootstrap, s.calls[index]? = some call →
    carried? call = some (token,runId,bootstrap) → ∃ row, s.db.row? runId = some row ∧ Agrees bootstrap row

-- A call that begins has been granted nothing and carries nothing.
theorem begun_silent {call : Call} (starts : call.starts = true) : grant call = none ∧ carried? call = none := by
  cases call with
  | bootstrapVerify | createSelect | dispatch | resolve | reconcile | storeBootstrap => exact ⟨rfl,rfl⟩
  | _ => cases starts

theorem begin_told (told : Told before) (step : Acts before (.begin call) after) : Told after := by
  obtain ⟨starts,rfl⟩ := acts_begin step
  have silent := begun_silent starts
  refine ⟨?_,?_,?_⟩
  · intro runId row found
    obtain ⟨index,held,run,listed,creates,written⟩ := told.rows runId row found
    have inside : index < before.calls.length := (List.getElem?_eq_some_iff.mp listed).1
    exact ⟨index,held,run,by rw [List.getElem?_append_left inside]; exact listed,creates,written⟩
  · intro index held token runId listed granted
    rcases append_cases listed with old | rfl
    · exact told.granted index held token runId old granted
    · rw [silent.1] at granted
      cases granted
  · intro index held token runId bootstrap listed carries
    rcases append_cases listed with old | rfl
    · exact told.carried index held token runId bootstrap old carries
    · rw [silent.2] at carries
      cases carries

section advance
variable {before after : Server} {index : Nat} {now : Int} {call next : Call}

-- The creates stay where they are.
theorem still_created (held : before.calls[index]? = some call) (calls : after.calls = before.calls.set index next)
    (same : created? next = created? call) {position : Nat} {other : Call} (listed : before.calls[position]? = some other)
    (creates : created? other = some run) : ∃ later, after.calls[position]? = some later ∧ created? later = some run := by
  rw [calls,List.getElem?_set]
  by_cases here : index = position
  · subst here
    have inside : index < before.calls.length := (List.getElem?_eq_some_iff.mp held).1
    cases held.symm.trans listed
    exact ⟨next,by simp [inside],same.trans creates⟩
  · exact ⟨other,by simp [here,listed],creates⟩

theorem advance_rows (told : Told before) (step : Acts before (.advance index now) after)
    (found : after.db.row? runId = some row) : ∃ (index : Nat) (call : Call) (run : NewRun), after.calls[index]? = some call ∧
      created? call = some run ∧ Written run row := by
  obtain ⟨call,next,held,calls,follows,wrote⟩ := NewestPush.advance_follows step
  have earlier : ∀ old, before.db.row? runId = some old → Forward old row → ∃ (index : Nat) (call : Call) (run : NewRun),
      after.calls[index]? = some call ∧ created? call = some run ∧ Written run row := by
    intro old was forward
    obtain ⟨position,other,run,listed,creates,written⟩ := told.rows runId old was
    obtain ⟨later,there,kept⟩ := still_created held calls follows.created listed creates
    exact ⟨position,later,run,there,kept,written.forward forward⟩
  rcases wrote with same | ⟨stmt,issued,accepted⟩
  · rw [same] at found
    exact earlier row found (.refl row)
  · rcases NewestPush.row_origin issued accepted found with ⟨old,was,forward⟩ | ⟨run,rfl,_,rfl⟩
    · exact earlier old was forward
    · obtain ⟨later,there,kept⟩ := still_created held calls follows.created held (show created? (.createInsert run) = some run from rfl)
      exact ⟨index,later,run,there,kept,⟨rfl,rfl,rfl,rfl,rfl,rfl⟩⟩

theorem advance_granted (told : Told before) (held : before.calls[index]? = some call)
    (proceeds : Proceeds before.db after.db now call next) (granted : grant next = some (token,runId)) :
    verifyRunToken before.db token = .ok runId := by
  cases proceeds with
  | verified known => cases granted; exact known
  | unknown => cases granted
  | queued => cases granted; exact told.granted index _ _ _ held rfl
  | gone => cases granted; exact told.granted index _ _ _ held rfl
  | missing => cases granted; exact told.granted index _ _ _ held rfl
  | marked => cases granted; exact told.granted index _ _ _ held rfl
  | unmarked => cases granted; exact told.granted index _ _ _ held rfl
  | other _ silent => rw [(BootstrapRace.holds_nothing (.inl silent)).1] at granted; cases granted

theorem carried_request (carries : carried? call = some (token,runId,bootstrap)) : BootstrapRace.isRequest call = true := by
  unfold carried? at carries
  split at carries
  · rfl
  · rfl
  · cases carries

theorem advance_carried (told : Told before) (held : before.calls[index]? = some call)
    (proceeds : Proceeds before.db after.db now call next) (carries : carried? next = some (token,runId,bootstrap)) :
    ∃ row, before.db.row? runId = some row ∧ Agrees bootstrap row := by
  cases proceeds with
  | queued found => cases carries; exact ⟨_,found,⟨rfl,rfl,rfl⟩⟩
  | marked => cases carries; exact told.carried index _ _ _ _ held rfl
  | verified => cases carries
  | unknown => cases carries
  | gone => cases carries
  | missing => cases carries
  | unmarked => cases carries
  | other _ silent => rw [carried_request carries] at silent; cases silent

theorem advance_told (told : Told before) (step : Acts before (.advance index now) after) : Told after := by
  obtain ⟨call,next,held,calls,proceeds⟩ := BootstrapRace.advance_proceeds step
  refine ⟨fun runId row found => advance_rows told step found,?_,?_⟩
  · intro other listed token runId present granted
    apply BootstrapRace.acts_token_kept step
    rw [calls] at present
    rcases set_cases present with ⟨_,rfl⟩ | ⟨_,old⟩
    · exact advance_granted told held proceeds granted
    · exact told.granted other listed token runId old granted
  · intro other listed token runId bootstrap present carries
    rw [calls] at present
    have before_ : ∃ row, before.db.row? runId = some row ∧ Agrees bootstrap row := by
      rcases set_cases present with ⟨_,rfl⟩ | ⟨_,old⟩
      · exact advance_carried told held proceeds carries
      · exact told.carried other listed token runId bootstrap old carries
    obtain ⟨row,found,agrees⟩ := before_
    obtain ⟨later,present,forward⟩ := step.forward runId row found
    exact ⟨later,present,agrees.forward forward⟩

end advance

theorem runs_told (path : Runs Acts Server.start actions s) : Told s := by
  refine path.invariant Told ?_ ⟨nofun,by simp [Server.start],by simp [Server.start]⟩
  intro before action after told step
  cases action with
  | begin call => exact begin_told told step
  | advance index now => exact advance_told told step

-- No two creates carry one token.
def Fresh (s : Server) : Prop := ∀ one ∈ s.calls, ∀ two ∈ s.calls, ∀ run other, created? one = some run →
  created? two = some other → run.runToken = other.runToken → run = other

theorem payload_run (path : Runs Acts Server.start actions s) (answered : .bootstrapDone token runId (.ok bootstrap) ∈ s.calls) :
    ∃ made ∈ s.calls, ∃ run, created? made = some run ∧ run.runToken = some token ∧
      bootstrap.runMeta = ⟨run.sha,run.refName,run.pushedAtMs⟩ ∧ bootstrap.repo = run.repo ∧ bootstrap.runId = run.id := by
  have told := runs_told path
  obtain ⟨index,held⟩ := List.mem_iff_getElem?.mp answered
  obtain ⟨row,found,agrees⟩ := told.carried index _ token runId bootstrap held rfl
  obtain ⟨owner,first,same⟩ := verifyRunToken_ok_iff.mp (told.granted index _ token runId held rfl)
  have owned : s.db.row? runId = some owner := same ▸ row?_of_mem (List.mem_of_find?_eq_some first)
  cases found.symm.trans owned
  have kept : row.runToken = some token := by simpa using List.find?_some first
  obtain ⟨position,made,run,listed,creates,written⟩ := told.rows runId row found
  refine ⟨made,List.mem_of_getElem? listed,run,creates,written.runToken.symm.trans kept,?_,?_,?_⟩
  · rw [agrees.runMeta,written.sha,written.refName,written.pushedAtMs]
  · exact agrees.repo.trans written.repo
  · exact agrees.runId.trans written.id

-- What quire-ci and its run-fns know of the push.
structure Informed (stamps : Stamps) (event : PushEvent) (update : PushRef) (id : String) (fetched : Bootstrap) : Prop where
  repo : fetched.repo = event.repo
  runId : fetched.runId = id
  sha : fetched.runMeta.sha = update.newSha
  refName : fetched.runMeta.refName = update.refName
  pushedAt : (event.pushedAt - fetched.runMeta.pushedAt).natAbs < 1000000
  table : ∀ {World Vm : Type} (env : RunPipeline.Env World Vm), env.runMeta = runtimeMeta stamps fetched.runMeta →
    FinishedInputs.pushTable env = ⟨update.newSha,update.refName,stamps.print fetched.runMeta.pushedAt⟩

theorem millisecond_close (stamp : Int) : (stamp - fromMillisecond (asMillisecond stamp)).natAbs < 1000000 := by
  have split := Int.tmod_add_mul_tdiv stamp 1000000
  have apart : stamp - fromMillisecond (asMillisecond stamp) = stamp.tmod 1000000 := by
    rw [fromMillisecond,asMillisecond]
    omega
  rw [apart,Int.natAbs_tmod]
  exact Nat.mod_lt _ (by decide)

-- A run that fetches its bootstrap is told of the update that it was created for,
-- with the time of the push to the millisecond, whatever else goes on.
theorem run_told_its_push (stamps : Stamps) (path : Runs Acts Server.start actions s) (fresh : Fresh s) {made : Call}
    {event : PushEvent} {update : PushRef} {newId token : String} (listed : made ∈ s.calls)
    (creates : created? made = some (newRun event update newId token))
    (answered : .bootstrapDone token runId (.ok bootstrap) ∈ s.calls)
    (inRange : stamps.inRange (fromMillisecond (asMillisecond event.pushedAt))) :
    ∃ fetched, fetchBootstrap stamps (reply stamps bootstrap) = some fetched ∧ Informed stamps event update newId fetched := by
  obtain ⟨other,also,run,made,owned,runMeta,repo,runId⟩ := payload_run path answered
  cases fresh _ listed other also _ run creates made owned.symm
  have stamp : bootstrap.runMeta.pushedAt = asMillisecond event.pushedAt := by rw [runMeta]; rfl
  refine ⟨_,fetch_reply stamps bootstrap (by rw [stamp]; exact inRange),repo,runId,?_,?_,?_,?_⟩
  · rw [runMeta]; rfl
  · rw [runMeta]; rfl
  · rw [stamp]
    exact millisecond_close event.pushedAt
  · intro World Vm env same
    rw [FinishedInputs.pushTable,same,runMeta]
    rfl

def epochPush : PushEvent := ⟨"push","push.git",0,[samplePush]⟩

-- A create and then a request with its token.
def handedOver : List Action :=
  [.begin (.createSelect (newRun epochPush samplePush "0199" "token")),.advance 0 10,.advance 0 10,.advance 0 10,
    .begin (.bootstrapVerify "token"),.advance 1 20,.advance 1 20,.advance 1 20]

def handedBootstrap : Bootstrap := ⟨⟨samplePush.newSha,"refs/heads/main",0⟩,"push.git","0199",none⟩

theorem run_told_its_push_main : ∃ fetched, fetchBootstrap epoch (reply epoch handedBootstrap) = some fetched ∧
    Informed epoch epochPush samplePush "0199" fetched := by
  have ran : (Server.start.run handedOver).map Server.calls = some [.createDone (newRun epochPush samplePush "0199" "token") (.ok ()),
      .bootstrapDone "token" "0199" (.ok handedBootstrap)] := by rfl
  obtain ⟨s,reached,calls⟩ := Option.map_eq_some_iff.mp ran
  have only : ∀ call ∈ s.calls, ∀ run, created? call = some run → newRun epochPush samplePush "0199" "token" = run := by
    rw [calls]
    simp [created?]
  have fresh : Fresh s := fun one first two second run other made also _ =>
    (only one first run made).symm.trans (only two second other also)
  exact run_told_its_push epoch (run_runs reached) fresh (by rw [calls]; exact List.mem_cons_self) rfl
    (by rw [calls]; exact List.mem_cons_of_mem _ List.mem_cons_self) rfl

end Quire.PushHandoff
