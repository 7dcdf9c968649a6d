import Quire.JobOrder
import Quire.RunEvents

namespace Quire.RunStreams
open Primitives JobPipeline JobOrder RunEvents
variable {Vm : Type} {petgraph : Petgraph} {pipeline : Pipeline petgraph Vm} {order : List String}

-- The jobs of a stream against the order they were to run in.
structure Follows (order : List String) (stream : RunStream) : Prop where
  front : stream.jobs.map JobRun.id <+: order
  earlier : ∀ run ∈ stream.jobs.dropLast, run.outcome = .succeeded
  verdict : stream.outcome = .pipelineFailure ↔ ∃ run, stream.jobs.getLast? = some run ∧ run.outcome = .failed
  whole : stream.outcome ≠ .pipelineFailure → stream.jobs.map JobRun.id = order

structure Protocol (pipeline : Pipeline petgraph Vm) (order : List String) (events : List Event) : Prop where
  shape : ∃ stream : RunStream, events = stream.events ∧ Follows order stream
  dependencies : ∀ before atMs j after, events = before ++ ⟨atMs,.jobStarted j⟩ :: after →
    ∀ i, TransitiveInput pipeline i j → ∃ finishedAt, ⟨finishedAt,.jobFinished i .succeeded⟩ ∈ before
  attributed : ∀ before event after jobId, events = before ++ event :: after → event.kind.shJob = some jobId →
    openJob before = some jobId

def isStart (event : Event) : Bool :=
  match event.kind with
  | .jobStarted _ => true
  | _ => false

theorem call_sh (member : event ∈ ShCall.events jobId call) : event.kind.shJob = some jobId := by
  rcases call with ⟨cmd,startedAt,_ | ⟨finishedAt,exitCode⟩⟩ <;> simp [ShCall.events] at member
  · subst member; rfl
  · rcases member with rfl | rfl <;> rfl

theorem calls_sh {calls : List ShCall} {event : Event} (member : event ∈ calls.flatMap (ShCall.events jobId)) : event.kind.shJob = some jobId := by
  obtain ⟨call,_,inside⟩ := List.mem_flatMap.mp member
  exact call_sh inside

-- What follows the start of a job in its own events.
def JobRun.body (run : JobRun) : List Event :=
  run.calls.flatMap (ShCall.events run.id) ++ [⟨run.finishedAt,.jobFinished run.id run.outcome⟩]

theorem events_body (run : JobRun) : run.events = ⟨run.startedAt,.jobStarted run.id⟩ :: JobRun.body run := by
  simp [JobRun.events,JobRun.body]

theorem body_unstarted (run : JobRun) (member : event ∈ JobRun.body run) : isStart event = false := by
  rcases List.mem_append.mp member with inside | last
  · have sh := calls_sh inside
    rcases event with ⟨atMs,kind⟩
    cases kind <;> simp_all [EventKind.shJob,isStart]
  · cases List.mem_singleton.mp last; rfl

theorem split_past {left right before after : List Event} (outside : event ∉ left)
    (split : left ++ right = before ++ event :: after) : ∃ more, before = left ++ more ∧ right = more ++ event :: after := by
  rcases List.append_eq_append_iff.mp split with ⟨more,rfl,inner⟩ | ⟨more,rfl,inner⟩
  · exact ⟨more,rfl,inner⟩
  · cases more with
    | nil => exact ⟨[],by simp,by simpa using inner.symm⟩
    | cons first more =>
      cases inner
      exact absurd (by simp) outside

theorem start_splits {runs : List JobRun} {finish start : Event} {before after : List Event}
    (finished : isStart finish = false) (started : isStart start = true)
    (split : runs.flatMap JobRun.events ++ [finish] = before ++ start :: after) :
    ∃ front run back, runs = front ++ run :: back ∧ start = ⟨run.startedAt,.jobStarted run.id⟩ ∧
      before = front.flatMap JobRun.events := by
  induction runs generalizing before with
  | nil =>
    obtain ⟨rfl,_⟩ | ⟨_,rest⟩ := List.cons_eq_append_iff.mp split
    · cases split; rw [started] at finished; cases finished
    · simp at rest
  | cons run rest ih =>
    rw [List.flatMap_cons,events_body,List.cons_append,List.cons_append,List.append_assoc] at split
    cases before with
    | nil =>
      cases split
      exact ⟨[],run,rest,rfl,rfl,rfl⟩
    | cons first before =>
      obtain ⟨rfl,tail⟩ := List.cons.inj split
      have outside : start ∉ JobRun.body run := fun member => by
        rw [body_unstarted run member] at started
        cases started
      obtain ⟨more,rfl,inner⟩ := split_past outside tail
      obtain ⟨front,found,back,rfl,same,rfl⟩ := ih inner
      exact ⟨run :: front,found,back,rfl,same,by simp [events_body]⟩

theorem openAfter_sh (events : List Event) (sh : ∀ event ∈ events, event.kind.shJob = some jobId) :
    events.foldl openAfter current = current := by
  induction events with
  | nil => rfl
  | cons event rest ih =>
    have first := sh event List.mem_cons_self
    have kept : openAfter current event = current := by
      rcases event with ⟨atMs,kind⟩
      cases kind <;> simp_all [EventKind.shJob,openAfter]
    rw [List.foldl_cons,kept]
    exact ih fun other member => sh other (List.mem_cons_of_mem _ member)

theorem body_attributed {run : JobRun} {event : Event} {before after : List Event} (sh : event.kind.shJob = some jobId)
    (split : JobRun.body run = before ++ event :: after) : before.foldl openAfter (some run.id) = some jobId := by
  rcases List.append_eq_append_iff.mp split with ⟨more,_,inner⟩ | ⟨more,calls,inner⟩
  · obtain ⟨_,same⟩ | ⟨_,rest⟩ := List.cons_eq_append_iff.mp inner
    · cases same; cases sh
    · simp at rest
  · cases more with
    | nil => cases inner; cases sh
    | cons first more =>
      cases inner
      have inside : ∀ other ∈ before ++ event :: more, other.kind.shJob = some run.id := fun other member =>
        calls_sh (calls ▸ member)
      have own := inside event (by simp)
      rw [sh] at own
      rw [openAfter_sh before fun other member => inside other (List.mem_append_left _ member),own]

theorem sh_attributed {runs : List JobRun} {finish event : Event} {before after : List Event}
    (last : finish.kind.shJob = none) (sh : event.kind.shJob = some jobId)
    (split : runs.flatMap JobRun.events ++ [finish] = before ++ event :: after) :
    before.foldl openAfter current = some jobId := by
  induction runs generalizing before current with
  | nil =>
    obtain ⟨rfl,_⟩ | ⟨_,rest⟩ := List.cons_eq_append_iff.mp split
    · cases split; rw [last] at sh; cases sh
    · simp at rest
  | cons run rest ih =>
    rw [List.flatMap_cons,events_body,List.cons_append,List.cons_append,List.append_assoc] at split
    cases before with
    | nil => cases split; cases sh
    | cons first before =>
      obtain ⟨rfl,tail⟩ := List.cons.inj split
      rw [List.foldl_cons]
      rcases List.append_eq_append_iff.mp tail with ⟨more,rfl,inner⟩ | ⟨more,body,inner⟩
      · rw [List.foldl_append]
        exact ih inner
      · cases more with
        | nil =>
          rw [List.append_nil] at body
          subst body
          rw [show JobRun.body run = JobRun.body run ++ [] by simp,List.foldl_append]
          exact ih inner.symm
        | cons next more =>
          cases inner
          exact body_attributed sh body

theorem ancestors_finished (ordered : Order pipeline order) {stream : RunStream} (follows : Follows order stream)
    (at_run : stream.jobs = front ++ run :: back) (ancestor : TransitiveInput pipeline i run.id) :
    ∃ finishedAt, ⟨finishedAt,.jobFinished i .succeeded⟩ ∈ front.flatMap JobRun.events := by
  obtain ⟨rest,whole⟩ := follows.front
  rw [at_run,List.map_append,List.map_cons,List.append_assoc,List.cons_append] at whole
  obtain ⟨earlier,member,rfl⟩ := List.mem_map.mp (ordered.ancestor ancestor whole.symm)
  have before : earlier ∈ stream.jobs.dropLast := by
    rw [at_run,List.dropLast_append_of_ne_nil (List.cons_ne_nil _ _)]
    exact List.mem_append_left _ member
  refine ⟨earlier.finishedAt,List.mem_flatMap.mpr ⟨earlier,member,?_⟩⟩
  rw [← follows.earlier earlier before]
  simp [JobRun.events]

theorem protocol_of_follows (ordered : Order pipeline order) {stream : RunStream} (follows : Follows order stream) :
    Protocol pipeline order stream.events where
  shape := ⟨stream,rfl,follows⟩
  dependencies := by
    intro before atMs j after split i ancestor
    obtain ⟨front,run,back,at_run,same,rfl⟩ := start_splits rfl rfl split
    cases same
    exact ancestors_finished ordered follows at_run ancestor
  attributed := fun _ _ _ _ split sh => sh_attributed rfl sh split

theorem protocol_ends (protocol : Protocol pipeline order events) :
    ∃ earlier finishedAt outcome, events = earlier ++ [⟨finishedAt,.runFinished outcome⟩] := by
  obtain ⟨stream,rfl,_⟩ := protocol.shape
  exact ⟨_,stream.finishedAt,stream.outcome,rfl⟩

end Quire.RunStreams
