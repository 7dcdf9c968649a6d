import Mathlib.Data.Prod.Lex
import Quire.IngestProjection
import Quire.KeyedSort
import Quire.ShLogs

namespace Quire.RunPage
open KeyedTable KeyedSort RunsTable JobsTable LogFiles Secret Primitives JobPipeline RunEvents CiRuntime RunPipeline RunProtocol RunProgress
  Ingest IngestRows IngestProjection EventFile ShLogs

-- `db::RunDetail`
structure RunDetail where
  run : RunRow
  jobs : List JobRow
  shEvents : List ShRow

-- ORDER BY started_at_ms IS NULL ASC, started_at_ms ASC, job_id ASC
def jobBefore (a b : JobRow) : Bool :=
  match a.startedAtMs,b.startedAtMs with
  | some first,some second => decide (first < second) || (first == second && nameLe a.jobId b.jobId)
  | some _,none => true
  | none,some _ => false
  | none,none => nameLe a.jobId b.jobId

-- ORDER BY job_id, started_at_ms
def shBefore (a b : ShRow) : Bool :=
  if a.jobId = b.jobId then decide (a.startedAtMs ≤ b.startedAtMs) else nameLe a.jobId b.jobId

def loadRunDetail (db : Db) (repo runId : String) : Option RunDetail :=
  (db.runs.rows.find? fun run => run.id == runId && run.repo == repo).map fun run =>
    ⟨run,(db.jobs.rows.filter fun row => row.runId == runId).insertionSort (jobBefore · · = true),
      (db.sh.rows.filter fun row => row.runId == runId).insertionSort (shBefore · · = true)⟩

structure DetailRun where
  outcome : Option String
  sha : String
  refName : String
  createdAt : Int
  dispatchedAt : Option Int
  resolvedAt : Option Int
  deriving DecidableEq, Repr

structure DetailShEvent where
  startedAtMs : Int
  finishedAtMs : Int
  exitCode : Int
  cmd : String
  logContent : String
  deriving DecidableEq, Repr

structure DetailJob where
  jobId : String
  state : String
  exitCode : Option Int
  startedAtMs : Option Int
  finishedAtMs : Option Int
  shEvents : List DetailShEvent
  deriving DecidableEq, Repr

structure RunDetailTemplate where
  run : DetailRun
  jobs : List DetailJob
  quireCiLog : String
  deriving DecidableEq, Repr

-- The entries of a job, grouped out of all of them in the order of the database.
def eventsByJob (shEvents : List ShRow) (job : JobRow) : List ShRow := shEvents.filter fun row => row.jobId == job.jobId

-- The log of the n-th entry, if there is a path to read it from.
def logPath (runDir jobId : String) (n : Nat) : Option String :=
  if isSafePathSegment jobId then some (shLogPath runDir jobId n) else none

def logPaths (runDir : String) (job : JobRow) (events : List ShRow) : List (Option String) :=
  (List.range' 1 events.length).map (logPath runDir job.jobId)

def entry (row : ShRow) (log : String) : DetailShEvent := ⟨row.startedAtMs,row.finishedAtMs,row.exitCode,row.cmd,log⟩

-- The logs of all jobs come in one list; each job takes as many as it has entries.
def reassemble (shEvents : List ShRow) : List JobRow → List String → List DetailJob
  | [],_ => []
  | job :: rest,logs =>
    let jobEvents := eventsByJob shEvents job
    ⟨job.jobId,job.state,job.exitCode,job.startedAtMs,job.finishedAtMs,jobEvents.zipWith entry logs⟩ ::
      reassemble shEvents rest (logs.drop jobEvents.length)

-- What `read_log` makes of a path; no path leaves nothing to show.
def readLogs (readLog : String → String) (paths : List (Option String)) : List String := paths.map fun path => (path.map readLog).getD ""

-- `run_detail`, once the repository is there. The logs are below `runDir`.
def runDetail (readLog : String → String) (runDir : String) (db : Db) (repoName runId : String) : Option RunDetailTemplate :=
  (loadRunDetail db repoName runId).map fun detail =>
    let paths := detail.jobs.flatMap fun job => logPaths runDir job (eventsByJob detail.shEvents job)
    ⟨⟨detail.run.outcome,detail.run.sha,detail.run.refName,detail.run.createdAt,detail.run.dispatchedAt,detail.run.resolvedAt⟩,
      reassemble detail.shEvents detail.jobs (readLogs readLog paths),readLog (joinPath runDir "quire-ci.log")⟩

-- The entry is the record of the call.
structure Shows (entry : DetailShEvent) (call : ShCall) : Prop where
  cmd : entry.cmd = call.cmd
  started : entry.startedAtMs = call.startedAt
  exited : call.finished = some (entry.finishedAtMs,entry.exitCode)

-- The k-th entry is of the call whose output went to the k-th log, which it
-- displays where it can be read.
def ShowsOwnLogs (readLog : String → String) (logDir : String) (ran : String × List LoggedCall) (job : DetailJob) : Prop :=
  ∀ k entry, job.shEvents[k]? = some entry → ∀ logged ∈ ran.2, logged.log = some (shLogPath logDir ran.1 (k + 1)) →
    Shows entry logged.call ∧ entry.logContent = if isSafePathSegment ran.1 then readLog (shLogPath logDir ran.1 (k + 1)) else ""

-- The calls that were written started one after the other, and each before
-- every call that exited but was not.
def InOrder (calls : List LoggedCall) : Prop :=
  (calls.filter fun logged => logged.log.isSome).Pairwise (fun a b => a.call.startedAt < b.call.startedAt) ∧
    ∀ a ∈ calls, a.log.isSome = true → ∀ b ∈ calls, b.log = none → b.call.finished.isSome = true → a.call.startedAt < b.call.startedAt

variable {readLog : String → String} {runDir : String} {shEvents : List ShRow}

def detailJob (readLog : String → String) (runDir : String) (shEvents : List ShRow) (job : JobRow) : DetailJob :=
  ⟨job.jobId,job.state,job.exitCode,job.startedAtMs,job.finishedAtMs,
    (eventsByJob shEvents job).zipWith entry (readLogs readLog (logPaths runDir job (eventsByJob shEvents job)))⟩

theorem zipWith_front {f : α → β → γ} {left : List α} {right : List β} (size : left.length = right.length) (more : List β) :
    left.zipWith f (right ++ more) = left.zipWith f right := by
  have parts : (left ++ []).zipWith f (right ++ more) = left.zipWith f right ++ [].zipWith f more := List.zipWith_append size
  simpa using parts

-- Every job gets the logs that were read for it.
theorem reassemble_jobs (jobs : List JobRow) :
    reassemble shEvents jobs (readLogs readLog (jobs.flatMap fun job => logPaths runDir job (eventsByJob shEvents job))) =
      jobs.map (detailJob readLog runDir shEvents) := by
  induction jobs with
  | nil => rfl
  | cons job rest ih =>
    have size : (eventsByJob shEvents job).length = (readLogs readLog (logPaths runDir job (eventsByJob shEvents job))).length := by
      simp [readLogs,logPaths]
    have split : readLogs readLog ((job :: rest).flatMap fun job => logPaths runDir job (eventsByJob shEvents job)) =
        readLogs readLog (logPaths runDir job (eventsByJob shEvents job)) ++
          readLogs readLog (rest.flatMap fun job => logPaths runDir job (eventsByJob shEvents job)) := by
      rw [List.flatMap_cons,readLogs,List.map_append]
      rfl
    rw [split,reassemble,zipWith_front size,size,List.drop_left,ih]
    rfl

-- The k-th entry has the k-th row and the k-th log.
theorem detailJob_entry (job : JobRow) (k : Nat) :
    (detailJob readLog runDir shEvents job).shEvents[k]? = (eventsByJob shEvents job)[k]?.map fun row =>
      entry row (((logPath runDir job.jobId (k + 1)).map readLog).getD "") := by
  rw [detailJob,List.getElem?_zipWith]
  cases found : (eventsByJob shEvents job)[k]? with
  | none => rfl
  | some row =>
    have inside : k < (eventsByJob shEvents job).length := (List.getElem?_eq_some_iff.mp found).1
    have log : (readLogs readLog (logPaths runDir job (eventsByJob shEvents job)))[k]? =
        some (((logPath runDir job.jobId (k + 1)).map readLog).getD "") := by
      simp [readLogs,logPaths,inside,Nat.add_comm]
    rw [log]
    rfl

-- The order of the query is that of a pair.
def shKey (row : ShRow) : Lex (String × Int) := toLex (row.jobId,row.startedAtMs)

theorem shBefore_iff {a b : ShRow} : shBefore a b = true ↔ shKey a ≤ shKey b := by
  rw [shKey,shKey,Prod.Lex.toLex_le_toLex]
  unfold shBefore
  split
  · rename_i same
    simp [same]
  · rename_i different
    rw [nameLe_iff,le_iff_lt_or_eq]
    simp [different]

instance shTotal : Std.Total fun a b : ShRow => shBefore a b = true :=
  ⟨fun a b => by simpa only [shBefore_iff] using le_total (shKey a) (shKey b)⟩

instance shTrans : IsTrans ShRow fun a b => shBefore a b = true :=
  ⟨fun a b c => by simpa only [shBefore_iff] using le_trans⟩

def jobRows (db : Db) (runId jobId : String) : List ShRow := db.sh.rows.filter fun row => row.runId == runId && row.jobId == jobId

theorem mem_jobRows {db : Db} : row ∈ jobRows db runId jobId ↔ row ∈ db.sh.rows ∧ row.runId = runId ∧ row.jobId = jobId := by
  simp [jobRows]

-- The primary key leaves each row of a job a start of its own.
theorem jobRows_starts (db : Db) (runId jobId : String) : ((jobRows db runId jobId).map ShRow.startedAtMs).Nodup := by
  have keyed := db.sh.keyed.sublist ((List.filter_sublist (p := fun row => row.runId == runId && row.jobId == jobId)).map shSchema.key)
  have same : (jobRows db runId jobId).map shSchema.key =
      ((jobRows db runId jobId).map ShRow.startedAtMs).map fun startedAt => (runId,jobId,startedAt) := by
    rw [List.map_map]
    apply List.map_congr_left
    intro row member
    obtain ⟨_,run,job⟩ := mem_jobRows.mp member
    simp [shSchema,run,job]
  change ((jobRows db runId jobId).map shSchema.key).Nodup at keyed
  rw [same] at keyed
  exact keyed.of_map

-- The rows of a job, as the page has them: those of the table, in the order of
-- their starts.
theorem events_ascending {db : Db} {detail : RunDetail} (loaded : loadRunDetail db repo runId = some detail) (job : JobRow) :
    (eventsByJob detail.shEvents job).Perm (jobRows db runId job.jobId) ∧
      Ascending ShRow.startedAtMs (eventsByJob detail.shEvents job) := by
  obtain ⟨run,_,rfl⟩ := Option.map_eq_some_iff.mp loaded
  let sorted := (db.sh.rows.filter fun row => row.runId == runId).insertionSort (shBefore · · = true)
  have shuffled : (eventsByJob sorted job).Perm (jobRows db runId job.jobId) := by
    have kept := (List.perm_insertionSort (shBefore · · = true) (db.sh.rows.filter fun row => row.runId == runId)).filter
      fun row => row.jobId == job.jobId
    rw [List.filter_filter] at kept
    have both : (fun row : ShRow => row.jobId == job.jobId && row.runId == runId) =
        fun row => row.runId == runId && row.jobId == job.jobId := funext fun row => Bool.and_comm _ _
    rwa [both] at kept
  have ordered : (eventsByJob sorted job).Pairwise fun a b => a.startedAtMs ≤ b.startedAtMs := by
    have before : (eventsByJob sorted job).Pairwise fun a b => shBefore a b = true :=
      (List.pairwise_insertionSort _ _).filter _
    refine before.imp_of_mem ?_
    intro a b inA inB earlier
    have same : a.jobId = b.jobId :=
      (beq_iff_eq.mp (List.mem_filter.mp inA).2).trans (beq_iff_eq.mp (List.mem_filter.mp inB).2).symm
    rw [shBefore,if_pos same] at earlier
    exact of_decide_eq_true earlier
  exact ⟨shuffled,ascending_of_sorted ordered ((shuffled.map _).nodup_iff.mpr (jobRows_starts db runId job.jobId))⟩

-- The calls of a job that were written, and the rows they and the others left.
def written (ran : String × List LoggedCall) : List LoggedCall := ran.2.filter fun logged => logged.log.isSome

def rowOf (runId : String) (ran : String × List LoggedCall) (logged : LoggedCall) : Option ShRow := ShCall.row runId ran.1 logged.call

def writtenRows (runId : String) (ran : String × List LoggedCall) : List ShRow := (written ran).filterMap (rowOf runId ran)

def otherRows (runId : String) (ran : String × List LoggedCall) : List ShRow :=
  (ran.2.filter fun logged => !logged.log.isSome).filterMap (rowOf runId ran)

theorem written_rows (runId : String) (ran : String × List LoggedCall) :
    (writtenRows runId ran ++ otherRows runId ran).Perm (callRows runId ran.1 (ran.2.map LoggedCall.call)) := by
  have rows : callRows runId ran.1 (ran.2.map LoggedCall.call) = ran.2.filterMap (rowOf runId ran) := List.filterMap_map
  rw [rows,writtenRows,otherRows,← List.filterMap_append]
  exact (List.filter_append_perm _ _).filterMap _

theorem mem_written {ran : String × List LoggedCall} : logged ∈ written ran ↔ logged ∈ ran.2 ∧ logged.log.isSome = true :=
  List.mem_filter

-- A row of the job shows a call where it is the row of that call.
theorem shows_row {call : ShCall} {row : ShRow} (owner : row.job = (runId,jobId)) (log : String) :
    Shows (entry row log) call ↔ ShCall.row runId jobId call = some row := by
  constructor
  · rintro ⟨cmd,started,exited⟩
    cases row
    cases owner
    cases cmd
    cases started
    rw [ShCall.row,exited]
    rfl
  · intro stored
    obtain ⟨finished,exited,rfl⟩ := Option.map_eq_some_iff.mp stored
    exact ⟨rfl,rfl,exited⟩

theorem filterMap_all {f : α → Option β} {list : List α} (all : ∀ a ∈ list, (f a).isSome = true) (k : Nat) :
    (list.filterMap f)[k]? = list[k]?.bind f := by
  induction list generalizing k with
  | nil => rfl
  | cons a rest ih =>
    obtain ⟨first,later⟩ := List.forall_mem_cons.mp all
    obtain ⟨b,found⟩ := Option.isSome_iff_exists.mp first
    rw [List.filterMap_cons_some found]
    cases k with
    | zero => exact found.symm
    | succ k => exact ih later k

theorem written_exited (runId : String) {ran : String × List LoggedCall} : ∀ logged ∈ written ran, (rowOf runId ran logged).isSome = true := by
  intro logged member
  have exited := logged.exited (mem_written.mp member).2
  rw [rowOf,ShCall.row,Option.isSome_map]
  exact exited

theorem logPath_inj {dir jobId : String} {n m : Nat} (same : shLogPath dir jobId n = shLogPath dir jobId m) : n = m := by
  unfold shLogPath joinPath at same
  exact logName_inj ((String.append_right_inj _).mp same)

-- The k-th written call is the one whose output went to the k-th log.
theorem written_at {ran : String × List LoggedCall} (numbered : Numbered logDir ran) (logged : LoggedCall) (k : Nat) :
    (written ran)[k]? = some logged ↔ logged ∈ ran.2 ∧ logged.log = some (shLogPath logDir ran.1 (k + 1)) := by
  have logs : ran.2.filterMap LoggedCall.log = (written ran).filterMap LoggedCall.log := by
    rw [written,List.filterMap_filter]
    exact congrArg (fun f => ran.2.filterMap f) (funext fun logged => by cases logged.log <;> rfl)
  have logAt : ∀ j call, (written ran)[j]? = some call → call.log = some (shLogPath logDir ran.1 (j + 1)) := by
    intro j call found
    obtain ⟨path,log⟩ := Option.isSome_iff_exists.mp (mem_written.mp (List.mem_of_getElem? found)).2
    have listed : (ran.2.filterMap LoggedCall.log)[j]? = some path := by
      rw [logs,filterMap_all (fun logged member => (mem_written.mp member).2),found]
      exact log
    have bound := (List.getElem?_eq_some_iff.mp listed).1
    rw [numbered,List.getElem?_map,List.getElem?_range' bound,Option.map_some,Nat.one_mul,Nat.add_comm] at listed
    rw [log,listed]
  constructor
  · intro found
    exact ⟨(mem_written.mp (List.mem_of_getElem? found)).1,logAt k logged found⟩
  · rintro ⟨member,log⟩
    obtain ⟨j,found⟩ := List.getElem?_of_mem (mem_written.mpr ⟨member,by rw [log]; rfl⟩)
    have same := Option.some.inj (log.symm.trans (logAt j logged found))
    obtain rfl : k = j := Nat.succ.inj (logPath_inj same)
    exact found

theorem writtenRows_at (runId : String) (ran : String × List LoggedCall) (k : Nat) :
    (writtenRows runId ran)[k]? = (written ran)[k]?.bind (rowOf runId ran) := filterMap_all (written_exited runId) k

section Job
variable {ran : String × List LoggedCall} {job : JobRow} {logDir : String}

-- Every entry has its own log exactly where the calls that were written come first.
theorem shows_iff_first (numbered : Numbered logDir ran) (same : job.jobId = ran.1)
    (stored : (eventsByJob shEvents job).Perm (callRows runId ran.1 (ran.2.map LoggedCall.call))) :
    ShowsOwnLogs readLog logDir ran (detailJob readLog logDir shEvents job) ↔ writtenRows runId ran <+: eventsByJob shEvents job := by
  have owner : ∀ row ∈ eventsByJob shEvents job, row.job = (runId,ran.1) := fun row member => callRows_job (stored.subset member)
  constructor
  · intro shows
    rw [List.prefix_iff_getElem?]
    intro k bound
    have size := ((written_rows runId ran).trans stored.symm).length_eq
    rw [List.length_append] at size
    have inside : k < (eventsByJob shEvents job).length := by omega
    have row := List.getElem?_eq_getElem inside
    have kept := List.getElem?_eq_getElem bound
    obtain ⟨logged,found,rowAt⟩ := Option.bind_eq_some_iff.mp ((writtenRows_at runId ran k).symm.trans kept)
    obtain ⟨member,log⟩ := (written_at numbered logged k).mp found
    have shown := (shows k _ (by rw [detailJob_entry,row]; rfl) logged member log).1
    rw [shows_row (owner _ (List.getElem_mem inside))] at shown
    rw [row]
    exact shown.symm.trans rowAt
  · intro first k entry found logged member log
    obtain ⟨row,rowAt⟩ := Option.isSome_iff_exists.mp (written_exited runId logged (mem_written.mpr ⟨member,by rw [log]; rfl⟩))
    have kept : (writtenRows runId ran)[k]? = some row := by
      rw [writtenRows_at,(written_at numbered logged k).mpr ⟨member,log⟩]
      exact rowAt
    obtain ⟨bound,value⟩ := List.getElem?_eq_some_iff.mp kept
    have shown : (eventsByJob shEvents job)[k]? = some row := by rw [List.prefix_iff_getElem?.mp first k bound,value]
    rw [detailJob_entry,shown] at found
    cases found
    refine ⟨(shows_row (owner row (List.mem_of_getElem? shown)) _).mpr rowAt,?_⟩
    rw [same]
    cases safe : isSafePathSegment ran.1 with
    | true | false => simp [entry,logPath,safe]

theorem row_started {logged : LoggedCall} (stored : rowOf runId ran logged = some row) : row.startedAtMs = logged.call.startedAt := by
  obtain ⟨finished,_,rfl⟩ := Option.map_eq_some_iff.mp stored
  rfl

theorem written_ascending (runId : String) : (written ran).Pairwise (fun a b => a.call.startedAt < b.call.startedAt) ↔
    Ascending ShRow.startedAtMs (writtenRows runId ran) := by
  rw [Ascending,writtenRows,List.pairwise_filterMap]
  apply List.Pairwise.iff_of_mem
  intro a b inA inB
  obtain ⟨first,firstRow⟩ := Option.isSome_iff_exists.mp (written_exited runId a inA)
  obtain ⟨second,secondRow⟩ := Option.isSome_iff_exists.mp (written_exited runId b inB)
  simp [firstRow,secondRow,row_started firstRow,row_started secondRow]

-- A row stands for each call that exited, on the side its log puts it.
theorem mem_writtenRows {row : ShRow} : row ∈ writtenRows runId ran ↔
    ∃ logged ∈ ran.2, logged.log.isSome = true ∧ rowOf runId ran logged = some row := by
  simp [writtenRows,written,and_assoc]

theorem mem_otherRows {row : ShRow} : row ∈ otherRows runId ran ↔
    ∃ logged ∈ ran.2, logged.log = none ∧ rowOf runId ran logged = some row := by
  simp [otherRows,and_assoc]

theorem rowOf_exited (runId : String) (ran : String × List LoggedCall) (logged : LoggedCall) :
    (rowOf runId ran logged).isSome = logged.call.finished.isSome := by rw [rowOf,ShCall.row,Option.isSome_map]

theorem written_before (runId : String) : (∀ a ∈ ran.2, a.log.isSome = true → ∀ b ∈ ran.2, b.log = none →
      b.call.finished.isSome = true → a.call.startedAt < b.call.startedAt) ↔
    ∀ a ∈ writtenRows runId ran, ∀ b ∈ otherRows runId ran, a.startedAtMs < b.startedAtMs := by
  constructor
  · intro calls row inWritten other inOthers
    obtain ⟨a,member,log,firstRow⟩ := mem_writtenRows.mp inWritten
    obtain ⟨b,otherMember,noLog,secondRow⟩ := mem_otherRows.mp inOthers
    have exited : b.call.finished.isSome = true := by rw [← rowOf_exited runId ran,secondRow]; rfl
    rw [row_started firstRow,row_started secondRow]
    exact calls a member log b otherMember noLog exited
  · intro rows a member log b otherMember noLog exited
    obtain ⟨first,firstRow⟩ := Option.isSome_iff_exists.mp (written_exited runId a (mem_written.mpr ⟨member,log⟩))
    obtain ⟨second,secondRow⟩ := Option.isSome_iff_exists.mp ((rowOf_exited runId ran b).trans exited)
    rw [← row_started firstRow,← row_started secondRow]
    exact rows first (mem_writtenRows.mpr ⟨a,member,log,firstRow⟩) second (mem_otherRows.mpr ⟨b,otherMember,noLog,secondRow⟩)

-- The rows are in order where the calls are.
theorem inOrder_iff (runId : String) : InOrder ran.2 ↔ Ascending ShRow.startedAtMs (writtenRows runId ran) ∧
    ∀ a ∈ writtenRows runId ran, ∀ b ∈ otherRows runId ran, a.startedAtMs < b.startedAtMs :=
  and_congr (written_ascending runId) (written_before runId)

end Job

-- Each of the jobs has brought its own rows.
theorem flatMap_job {runs : List JobRun} (distinct : (runs.map JobRun.id).Nodup) (member : run ∈ runs) :
    ((runs.flatMap fun run => callRows runId run.id run.calls).filter fun row => row.runId == runId && row.jobId == run.id) =
      callRows runId run.id run.calls := by
  obtain ⟨left,right,rfl⟩ := List.append_of_mem member
  have other : ∀ apart : List JobRun, (∀ another ∈ apart, another.id ≠ run.id) →
      ((apart.flatMap fun run => callRows runId run.id run.calls).filter fun row => row.runId == runId && row.jobId == run.id) = [] := by
    intro apart different
    apply List.filter_eq_nil_iff.mpr
    intro row listed
    obtain ⟨another,inside,stored⟩ := List.mem_flatMap.mp listed
    have job : row.jobId = another.id := congrArg Prod.snd (callRows_job stored)
    simp [job,different another inside]
  have own : ((callRows runId run.id run.calls).filter fun row => row.runId == runId && row.jobId == run.id) =
      callRows runId run.id run.calls := by
    apply List.filter_eq_self.mpr
    intro row stored
    have owner : row.runId = runId ∧ row.jobId = run.id := Prod.mk.inj (callRows_job stored)
    simp [owner]
  rw [List.map_append,List.map_cons,List.nodup_append,List.nodup_cons] at distinct
  obtain ⟨_,⟨behind,_⟩,apart⟩ := distinct
  have before := other left fun another inside same =>
    apart another.id (List.mem_map_of_mem inside) run.id List.mem_cons_self same
  have after := other right fun another inside same => behind (same ▸ List.mem_map_of_mem inside)
  rw [List.flatMap_append,List.flatMap_cons,List.filter_append,List.filter_append,before,own,after,List.append_nil]
  rfl

-- A job that was stored with this ingest had no rows before.
theorem stored_rows {db after : Db} {runs : List JobRun} (distinct : (runs.map JobRun.id).Nodup) (member : run ∈ runs)
    (jobs : after.jobs.rows = db.jobs.rows ++ runs.map (JobRun.row runId))
    (sh : after.sh.rows = db.sh.rows ++ runs.flatMap fun run => callRows runId run.id run.calls) :
    jobRows after runId run.id = callRows runId run.id run.calls := by
  have none : (db.sh.rows.filter fun row => row.runId == runId && row.jobId == run.id) = [] := by
    apply List.filter_eq_nil_iff.mpr
    intro row listed own
    have owner : row.job = (runId,run.id) := by simpa [ShRow.job] using own
    have keyed := after.jobs.keyed
    rw [jobs,List.map_append,List.nodup_append] at keyed
    have before : (runId,run.id) ∈ db.jobs.rows.map jobsSchema.key := owner ▸ db.shJob row listed
    have added : (runId,run.id) ∈ (runs.map (JobRun.row runId)).map jobsSchema.key :=
      List.mem_map_of_mem (List.mem_map_of_mem member)
    exact keyed.2.2 _ before _ added rfl
  rw [jobRows,sh,List.filter_append,none,List.nil_append,flatMap_job distinct member]

theorem page_jobs {db : Db} {page : RunDetailTemplate} (shown : runDetail readLog runDir db repoName runId = some page) :
    ∃ detail, loadRunDetail db repoName runId = some detail ∧ page.jobs = detail.jobs.map (detailJob readLog runDir detail.shEvents) := by
  obtain ⟨detail,loaded,rfl⟩ := Option.map_eq_some_iff.mp shown
  exact ⟨detail,loaded,reassemble_jobs detail.jobs⟩

theorem mem_detail_jobs {db : Db} {detail : RunDetail} (loaded : loadRunDetail db repoName runId = some detail) :
    job ∈ detail.jobs ↔ job ∈ db.jobs.rows ∧ job.runId = runId := by
  obtain ⟨run,_,rfl⟩ := Option.map_eq_some_iff.mp loaded
  simp [List.mem_insertionSort]

variable {World Vm : Type} {codec : Codec}

-- An ingest brings a row for every job that was run, and the rows of its calls.
theorem run_stored (env : Env World Vm) (registry : SecretRegistry) (world : World) (documented : DocumentedAt env world)
    (faithful : Faithful codec (runPipeline env registry world).2) (completed : (runPipeline env registry world).1 = .ok ())
    (ingested : ingestEvents codec runId (.ok (codec.jsonl (runPipeline env registry world).2)) db = (.ok returned,after))
    (member : ran ∈ runLogged env registry world) :
    Numbered env.logDir ran ∧ (∃ run : JobRun, run.id = ran.1 ∧ JobRun.row runId run ∈ after.jobs.rows) ∧
      jobRows after runId ran.1 = callRows runId ran.1 (ran.2.map LoggedCall.call) := by
  obtain ⟨runs,finishedAt,outcome,streamed,jobs,numbered⟩ := run_accounts documented completed
  let progress := RunStream.progress ⟨runs,outcome,finishedAt⟩
  have events : (runPipeline env registry world).2 = progress.events := streamed
  have parsed : codec.parse (codec.jsonl (runPipeline env registry world).2) = some progress.events := by
    rw [parse_jsonl faithful,events]
  obtain ⟨_,jobRowsAfter,shRowsAfter,_⟩ := ingest_ok parsed ingested
  have distinct : (runs.map JobRun.id).Nodup := by
    have ids := ids_nodup (runPipeline_started registry documented) events
    simpa [Progress.ids,progress,RunStream.progress,Standing.ids] using ids
  obtain ⟨run,listed,same⟩ := List.mem_map.mp (jobs.symm ▸ List.mem_map_of_mem member : loggedJob ran ∈ runs.map shownJob)
  obtain ⟨name,calls⟩ : run.id = ran.1 ∧ run.calls = ran.2.map LoggedCall.call := Prod.mk.inj same
  have shStored : after.sh.rows = db.sh.rows ++ runs.flatMap fun run => callRows runId run.id run.calls := by
    simpa [Progress.shRows,progress,RunStream.progress,Standing.shRows] using shRowsAfter
  refine ⟨numbered ran member,⟨run,name,?_⟩,?_⟩
  · rw [jobRowsAfter]
    exact List.mem_append_right _ (List.mem_map_of_mem listed)
  · rw [← name,← calls]
    exact stored_rows distinct listed jobRowsAfter shStored

-- A clock that moves at every look, and a disk that is full up to the eighth.
def tickingHost (full : Bool) : Host Nat where
  now world := (1000000 * world,world + 1)
  showTimestamp _ := "2026-05-06T12:00:00Z"
  readToString _ world := (.ok "",world)
  output _ _ _ world := (.ok (some 0,"",""),world)
  createDirAll _ world := (.ok (),world)
  writeFile _ _ world := (if full && world < 8 then .error "No space left on device" else .ok (),world)
  sources world := (⟨fun _ => .error "",fun name => .error (.unknownSecret name)⟩,world)

-- Job a makes two calls, whatever becomes of the first.
def makeThenTest : Lua Unit where
  new := .ok ()
  eval vm _ _ := .ok ([.job "a" ["quire/push"] (fun vm => .sh (.shell "make") ⟨[]⟩ fun _ => .sh (.shell "test") ⟨[]⟩ fun _ =>
    .done vm (.ok ())) 1,.job "b" ["a"] (fun vm => .done vm (.ok ())) 2],vm)
  install vm := some vm
  runtimeTable _ := true

def makeEnv (full : Bool) : Env Nat Unit :=
  ⟨tickingHost full,makeThenTest,chainPetgraph,"/work","/runs/test.git/run-1",⟨"4b825dc","refs/heads/main","2026-05-06T12:00:00Z"⟩⟩

def makeEvents (full : Bool) : List Event := (runPipeline (makeEnv full) SecretRegistry.new 0).2

def makeIngested (full : Bool) : Except IngestError (Option RunOutcome) × Db :=
  ingestEvents (plainCodec (makeEvents full)) "run-1" (.ok ((plainCodec (makeEvents full)).jsonl (makeEvents full))) sampleDb

def makePage (full : Bool) : Option RunDetailTemplate := runDetail id (makeEnv full).logDir (makeIngested full).2 "test.git" "run-1"

-- The run, its stream, the ingest and the page, as they come out.
theorem make_evaluated (full : Bool) :
    (compileAt (makeEnv full) 0).1.toOption.map (·.graph.shape) = some chain ∧
    ((∀ event ∈ makeEvents full, ∀ other ∈ makeEvents full, jsonLine event <+: jsonLine other → event = other) ∧
      ∀ event ∈ makeEvents full, newline ∉ jsonLine event ∧ jsonLine event ≠ []) ∧
    (runPipeline (makeEnv full) SecretRegistry.new 0).1.isOk = true ∧ (makeIngested full).1.isOk = true ∧
    (makePage full).map (fun page => page.jobs.map fun job => (job.jobId,job.shEvents.map DetailShEvent.cmd)) =
      some [("quire/push",[]),("a",["make","test"]),("b",[])] ∧
    (runLogged (makeEnv full) SecretRegistry.new 0).map (fun ran => (ran.1,ran.2.map fun logged => (logged.call.cmd,logged.log))) =
      [("quire/push",[]),("a",if full then [("make",none),("test",some "/runs/test.git/run-1/jobs/a/sh-1.log")]
        else [("make",some "/runs/test.git/run-1/jobs/a/sh-1.log"),("test",some "/runs/test.git/run-1/jobs/a/sh-2.log")]),
        ("b",[])] := by
  cases full <;> decide +kernel

theorem make_documented (full : Bool) : DocumentedAt (makeEnv full) 0 := by
  intro pipeline started compiled
  have shape := (make_evaluated full).1
  rw [compiled] at shape
  have same : pipeline.graph.shape = chain := Option.some.inj shape
  rw [same]
  exact chain_documented

theorem make_faithful (full : Bool) : Faithful (plainCodec (makeEvents full)) (makeEvents full) := by
  obtain ⟨_,⟨apart,plain⟩,_⟩ := make_evaluated full
  exact plainCodec_faithful apart plain

theorem make_completes (full : Bool) : (runPipeline (makeEnv full) SecretRegistry.new 0).1 = .ok () := by
  obtain ⟨_,_,ended,_⟩ := make_evaluated full
  cases result : (runPipeline (makeEnv full) SecretRegistry.new 0).1 with
  | error message => rw [result] at ended; cases ended
  | ok value => rfl

theorem make_ingested (full : Bool) : ∃ returned, makeIngested full = (.ok returned,(makeIngested full).2) := by
  obtain ⟨_,_,_,fine,_⟩ := make_evaluated full
  rcases result : makeIngested full with ⟨error | returned,after⟩
  · rw [result] at fine
    cases fine
  · exact ⟨returned,rfl⟩

theorem make_shown (full : Bool) : ∃ page, makePage full = some page ∧
    page.jobs.map (fun job => (job.jobId,job.shEvents.map DetailShEvent.cmd)) =
      [("quire/push",[]),("a",["make","test"]),("b",[])] := by
  obtain ⟨_,_,_,_,shown,_⟩ := make_evaluated full
  exact Option.map_eq_some_iff.mp shown

end Quire.RunPage
