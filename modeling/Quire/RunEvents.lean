namespace Quire.RunEvents

inductive JobOutcome where
  | succeeded
  | failed
  deriving DecidableEq, Repr

inductive RunOutcome where
  | succeeded
  | pipelineFailure
  deriving DecidableEq, Repr

inductive EventKind where
  | jobStarted (jobId : String)
  | jobFinished (jobId : String) (outcome : JobOutcome)
  | shStarted (jobId cmd : String)
  | shFinished (jobId : String) (exitCode : Int)
  | runFinished (outcome : RunOutcome)
  deriving DecidableEq, Repr

structure Event where
  atMs : Int
  kind : EventKind
  deriving DecidableEq, Repr

-- What the events of a run say, read back as jobs and their sh calls. A call
-- without `finished` is one whose process could not be spawned.
structure ShCall where
  cmd : String
  startedAt : Int
  finished : Option (Int × Int)
  deriving DecidableEq, Repr

structure JobRun where
  id : String
  startedAt : Int
  calls : List ShCall
  outcome : JobOutcome
  finishedAt : Int
  deriving DecidableEq, Repr

structure RunStream where
  jobs : List JobRun
  outcome : RunOutcome
  finishedAt : Int
  deriving DecidableEq, Repr

def ShCall.events (jobId : String) (call : ShCall) : List Event :=
  ⟨call.startedAt,.shStarted jobId call.cmd⟩ ::
    match call.finished with
    | none => []
    | some (finishedAt,exitCode) => [⟨finishedAt,.shFinished jobId exitCode⟩]

def JobRun.events (run : JobRun) : List Event :=
  ⟨run.startedAt,.jobStarted run.id⟩ :: run.calls.flatMap (ShCall.events run.id) ++
    [⟨run.finishedAt,.jobFinished run.id run.outcome⟩]

def RunStream.events (stream : RunStream) : List Event :=
  stream.jobs.flatMap JobRun.events ++ [⟨stream.finishedAt,.runFinished stream.outcome⟩]

def EventKind.shJob : EventKind → Option String
  | .shStarted jobId _ | .shFinished jobId _ => some jobId
  | _ => none

-- The job whose JobStarted has no JobFinished yet.
def openAfter (current : Option String) (event : Event) : Option String :=
  match event.kind with
  | .jobStarted jobId => some jobId
  | .jobFinished _ _ => none
  | _ => current

def openJob (events : List Event) : Option String := events.foldl openAfter none

end Quire.RunEvents
