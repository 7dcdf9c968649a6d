import Quire.EventFile
import Quire.JsonTokens

namespace Quire.EventCodec
open LineFraming RunEvents Ingest EventFile JsonText

-- #[serde(tag = "type", rename_all = "snake_case")]
def tag : EventKind → String
  | .jobStarted _ => "job_started"
  | .jobFinished _ _ => "job_finished"
  | .shStarted _ _ => "sh_started"
  | .shFinished _ _ => "sh_finished"
  | .runFinished _ => "run_finished"

def fields : EventKind → List Member
  | .jobStarted jobId => [("job_id",.string jobId)]
  | .jobFinished jobId outcome => [("job_id",.string jobId),("outcome",.string (jobOutcomeText outcome))]
  | .shStarted jobId cmd => [("job_id",.string jobId),("cmd",.string cmd)]
  | .shFinished jobId exitCode => [("job_id",.string jobId),("exit_code",.integer exitCode)]
  | .runFinished outcome => [("outcome",.string (runOutcomeText outcome))]

-- #[serde(flatten)] puts the members of the kind beside `at_ms`.
def members (event : Event) : List Member :=
  ("at_ms",.integer event.atMs) :: ("type",.string (tag event.kind)) :: fields event.kind

-- A missing field is an error, and so is one that is there twice. Members that
-- are no fields are passed over.
def field (members : List Member) (name : String) : Option Json :=
  match members.filter (fun member => member.1 = name) with
  | [member] => some member.2
  | _ => none

def asText : Json → Option String
  | .string text => some text
  | _ => none

def Signed (bits : Nat) (value : Int) : Prop := -2 ^ (bits - 1) ≤ value ∧ value < 2 ^ (bits - 1)

instance (bits : Nat) : DecidablePred (Signed bits) := fun _ => instDecidableAnd

def asSigned (bits : Nat) : Json → Option Int
  | .integer value => if Signed bits value then some value else none
  | _ => none

def jobOutcomeOf : String → Option JobOutcome
  | "succeeded" => some .succeeded
  | "failed" => some .failed
  | _ => none

def runOutcomeOf : String → Option RunOutcome
  | "succeeded" => some .succeeded
  | "pipeline_failure" => some .pipelineFailure
  | _ => none

def kindOf (members : List Member) : Option EventKind := do
  let text (name : String) := (field members name).bind asText
  match ← text "type" with
  | "job_started" => return .jobStarted (← text "job_id")
  | "job_finished" => return .jobFinished (← text "job_id") (← (text "outcome").bind jobOutcomeOf)
  | "sh_started" => return .shStarted (← text "job_id") (← text "cmd")
  | "sh_finished" => return .shFinished (← text "job_id") (← (field members "exit_code").bind (asSigned 32))
  | "run_finished" => return .runFinished (← (text "outcome").bind runOutcomeOf)
  | _ => none

def eventOf (members : List Member) : Option Event := do
  let atMs ← (field members "at_ms").bind (asSigned 64)
  let kind ← kindOf (members.filter fun member => member.1 ≠ "at_ms")
  return ⟨atMs,kind⟩

-- serde_json::to_writer and serde_json::from_slice on an `Event`.
def codec (tokens : Tokens) : Codec where
  encode event := writeObject tokens (members event)
  decode line := (readObject tokens line).bind eventOf

-- `JsonlSink::emit`, over a writer that takes what it is given.
def emit (tokens : Tokens) (written : List UInt8) (event : Event) : List UInt8 :=
  written ++ writeObject tokens (members event) ++ [newline]

-- The values that an exit code can have, an i32.
def ExitFits : EventKind → Prop
  | .shFinished _ exitCode => Signed 32 exitCode
  | _ => True

instance : DecidablePred ExitFits
  | .shFinished _ exitCode => inferInstanceAs (Decidable (Signed 32 exitCode))
  | .jobStarted _ | .jobFinished _ _ | .shStarted _ _ | .runFinished _ => .isTrue trivial

-- The values that the fields of an `Event` can have.
def InRange (event : Event) : Prop := Signed 64 event.atMs ∧ ExitFits event.kind

instance : DecidablePred InRange := fun _ => instDecidableAnd

theorem Signed.wider (narrow : Signed 32 value) : Signed 64 value := by
  unfold Signed at *
  omega

theorem jobOutcome_read (outcome : JobOutcome) : jobOutcomeOf (jobOutcomeText outcome) = some outcome := by
  cases outcome <;> rfl

theorem runOutcome_read (outcome : RunOutcome) : runOutcomeOf (runOutcomeText outcome) = some outcome := by
  cases outcome <;> rfl

theorem kind_read (kind : EventKind) (fits : ExitFits kind) : kindOf (("type",.string (tag kind)) :: fields kind) = some kind := by
  cases kind with
  | jobStarted jobId => simp [kindOf,field,fields,tag,asText]
  | jobFinished jobId outcome => simp [kindOf,field,fields,tag,asText,jobOutcome_read]
  | shStarted jobId cmd => simp [kindOf,field,fields,tag,asText]
  | shFinished jobId exitCode =>
    have small : Signed 32 exitCode := fits
    simp [kindOf,field,fields,tag,asText,asSigned,small]
  | runFinished outcome => simp [kindOf,field,fields,tag,asText,runOutcome_read]

theorem fields_names (kind : EventKind) : ∀ member ∈ fields kind, member.1 ≠ "at_ms" := by
  cases kind <;> simp [fields]

-- The members of an event are read back as the event.
theorem event_read (event : Event) (inRange : InRange event) : eventOf (members event) = some event := by
  obtain ⟨atMs,kind⟩ := event
  obtain ⟨fits,exit⟩ := inRange
  have other : ∀ member ∈ ("type",Json.string (tag kind)) :: fields kind, member.1 ≠ "at_ms" :=
    List.forall_mem_cons.mpr ⟨by simp,fields_names kind⟩
  have apart : (members ⟨atMs,kind⟩).filter (fun member => member.1 ≠ "at_ms") = ("type",.string (tag kind)) :: fields kind := by
    rw [members,List.filter_cons_of_neg (by simp)]
    exact List.filter_eq_self.mpr fun member listed => by simpa using other member listed
  have stamp : field (members ⟨atMs,kind⟩) "at_ms" = some (.integer atMs) := by
    have alone : (("type",Json.string (tag kind)) :: fields kind).filter (fun member => member.1 = "at_ms") = [] :=
      List.filter_eq_nil_iff.mpr fun member listed => by simpa using other member listed
    rw [field,members,List.filter_cons_of_pos (by simp),alone]
  have bound : Signed 64 atMs := fits
  simp only [eventOf,apart,stamp,kind_read kind exit]
  simp [asSigned,bound]

theorem members_writable (event : Event) (inRange : InRange event) : ∀ member ∈ members event, Writable (Signed 64) member.2 := by
  obtain ⟨atMs,kind⟩ := event
  obtain ⟨fits,exit⟩ := inRange
  have stamp : Signed 64 atMs := fits
  cases kind with
  | shFinished jobId exitCode =>
    have code : Signed 64 exitCode := Signed.wider exit
    simp [members,fields,Writable,stamp,code]
  | jobStarted | jobFinished | shStarted | runFinished => simp [members,fields,Writable,stamp]

variable {tokens : Tokens} {events : List Event}

theorem codec_legible (lawful : tokens.Lawful (Signed 64)) (inRange : ∀ event ∈ events, InRange event) :
    Legible (codec tokens) events where
  roundTrip := by
    intro event member
    have writable := members_writable event (inRange event member)
    change (readObject tokens (writeObject tokens (members event))).bind eventOf = _
    rw [writeObject_read lawful writable]
    exact event_read event (inRange event member)
  oneLine := fun event member => writeObject_line lawful (members_writable event (inRange event member))
  full := fun event member => List.cons_ne_nil _ _

theorem emit_jsonl (tokens : Tokens) (written : List UInt8) (events : List Event) :
    events.foldl (emit tokens) written = written ++ (codec tokens).jsonl events := by
  induction events generalizing written with
  | nil => exact (List.append_nil _).symm
  | cons event rest ih =>
    rw [List.foldl_cons,ih,emit,Codec.jsonl,Codec.jsonl,List.map_cons,frame_cons]
    simp [codec]

-- What `Run::ingest_events` reads is what `JsonlSink::emit` was given.
structure RoundTrips (tokens : Tokens) (events : List Event) (written : List UInt8) : Prop where
  parsed : (codec tokens).parse written = some events
  lines : linesOf newline written = events.map (codec tokens).encode
  terminated : written.count newline = events.length

theorem events_round_trip (tokens : Tokens) (lawful : tokens.Lawful (Signed 64)) (events : List Event)
    (inRange : ∀ event ∈ events, InRange event) : RoundTrips tokens events (events.foldl (emit tokens) []) := by
  have legible := codec_legible lawful inRange
  rw [emit_jsonl,List.nil_append]
  refine ⟨legible.parse,legible.lines,?_⟩
  rw [Codec.jsonl,frame_count,List.length_map]
  intro line member
  obtain ⟨event,listed,rfl⟩ := List.mem_map.mp member
  exact legible.oneLine event listed

-- A command of two lines with quotes, a tab, a backslash, a control character
-- and letters outside ASCII, and numbers at the ends of their ranges.
def awkward : List Event :=
  [⟨-9223372036854775808,.jobStarted "naïve"⟩,⟨0,.shStarted "naïve" "printf \"α\\n\"\n\texit \x01"⟩,
    ⟨1,.shFinished "naïve" (-2147483648)⟩,⟨2,.jobFinished "naïve" .failed⟩,⟨9223372036854775807,.runFinished .pipelineFailure⟩]

theorem events_round_trip_awkward : RoundTrips JsonTokens.tokens awkward (awkward.foldl (emit JsonTokens.tokens) []) :=
  events_round_trip JsonTokens.tokens (JsonTokens.tokens_lawful _) awkward (by decide)

example : writeObject JsonTokens.tokens (members ⟨110,.shStarted "build" "echo hi"⟩) =
    JsonTokens.bytesOf "\x7b\"at_ms\":110,\"type\":\"sh_started\",\"job_id\":\"build\",\"cmd\":\"echo hi\"\x7d" := by decide

end Quire.EventCodec
