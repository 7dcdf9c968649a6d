import Quire.Ingest
import Quire.RunProtocol

namespace Quire.EventFile
open LineFraming KeyedTable RunsTable Secret RunEvents RunPipeline RunProtocol Ingest
variable {codec : Codec} {events : List Event}

-- Each event is one object on one line and reads back, and no proper part of
-- its line is an object.
structure Faithful (codec : Codec) (events : List Event) : Prop where
  roundTrip : ∀ event ∈ events, codec.decode (codec.encode event) = some event
  oneLine : ∀ event ∈ events, newline ∉ codec.encode event
  full : ∀ event ∈ events, codec.encode event ≠ []
  whole : ∀ event ∈ events, ∀ part, part <+: codec.encode event → part ≠ [] → part ≠ codec.encode event →
    codec.decode part = none

-- The events whose whole line is in a beginning of the file, with or without
-- its newline.
def shown (codec : Codec) (events : List Event) (bytes : List UInt8) : List Event := complete codec.encode events bytes

-- The file stops before or after the newline of its last line.
def AtLineEnd (codec : Codec) (events : List Event) (bytes : List UInt8) : Prop :=
  bytes = codec.jsonl (shown codec events bytes) ∨ bytes ++ [newline] = codec.jsonl (shown codec events bytes)

theorem Faithful.fewer (faithful : Faithful codec events) (fewer : earlier ⊆ events) : Faithful codec earlier where
  roundTrip := fun event member => faithful.roundTrip event (fewer member)
  oneLine := fun event member => faithful.oneLine event (fewer member)
  full := fun event member => faithful.full event (fewer member)
  whole := fun event member => faithful.whole event (fewer member)

-- What it takes for a complete file to read back.
structure Legible (codec : Codec) (events : List Event) : Prop where
  roundTrip : ∀ event ∈ events, codec.decode (codec.encode event) = some event
  oneLine : ∀ event ∈ events, newline ∉ codec.encode event
  full : ∀ event ∈ events, codec.encode event ≠ []

theorem Faithful.legible (faithful : Faithful codec events) : Legible codec events :=
  ⟨faithful.roundTrip,faithful.oneLine,faithful.full⟩

theorem decode_all (roundTrip : ∀ event ∈ events, codec.decode (codec.encode event) = some event) :
    (events.map codec.encode).mapM codec.decode = some events := by
  rw [List.mapM_map]
  induction events with
  | nil => rfl
  | cons event rest ih =>
    have later := ih fun other member => roundTrip other (List.mem_cons_of_mem _ member)
    simp [roundTrip event List.mem_cons_self,later]

theorem decode_torn (faithful : Faithful codec events) (refused : codec.decode part = none) :
    (events.map codec.encode ++ [part]).mapM codec.decode = none := by
  rw [List.mapM_append,decode_all faithful.roundTrip]
  simp [refused]

theorem linesOf_jsonl (legible : Legible codec events) (open_free : newline ∉ tail) :
    linesOf newline (codec.jsonl events ++ tail) = events.map codec.encode ++ [tail].filter (· ≠ []) := by
  refine linesOf_frame ?_ ?_ open_free
  · intro line member
    obtain ⟨event,inside,rfl⟩ := List.mem_map.mp member
    exact legible.oneLine event inside
  · intro line member
    obtain ⟨event,inside,rfl⟩ := List.mem_map.mp member
    exact legible.full event inside

theorem Legible.lines (legible : Legible codec events) : linesOf newline (codec.jsonl events) = events.map codec.encode := by
  have lines : linesOf newline (codec.jsonl events ++ []) = _ := linesOf_jsonl legible (by simp)
  rw [List.append_nil] at lines
  simpa using lines

theorem Legible.parse (legible : Legible codec events) : codec.parse (codec.jsonl events) = some events := by
  rw [Codec.parse,legible.lines]
  exact decode_all legible.roundTrip

theorem parse_jsonl (faithful : Faithful codec events) : codec.parse (codec.jsonl events) = some events :=
  faithful.legible.parse

theorem shown_front (codec : Codec) (events : List Event) (bytes : List UInt8) : shown codec events bytes <+: events :=
  complete_front codec.encode events bytes

theorem jsonl_front (front : earlier <+: events) : codec.jsonl earlier <+: codec.jsonl events := by
  obtain ⟨rest,rfl⟩ := front
  exact ⟨codec.jsonl rest,by simp [Codec.jsonl,frame]⟩

-- A file that stops inside a line is refused as a whole; any other reads as the
-- events of its lines.
theorem parse_cut (faithful : Faithful codec events) (cut : bytes <+: codec.jsonl events) :
    (AtLineEnd codec events bytes ∧ codec.parse bytes = some (shown codec events bytes)) ∨
      ¬ AtLineEnd codec events bytes ∧ codec.parse bytes = none := by
  have lines := faithful.fewer (shown_front codec events bytes).subset
  rcases cut_cases faithful.full cut with kept | ⟨front,last,whole,kept⟩ | ⟨event,rest,part,next,kept,started,within,proper⟩
  · have same : bytes = codec.jsonl (shown codec events bytes) := kept
    refine .inl ⟨.inl same,?_⟩
    rw [← parse_jsonl lines,← same]
  · have same : shown codec events bytes = front ++ [last] := whole
    have member : last ∈ shown codec events bytes := by simp [same]
    have earlier := lines.fewer (same ▸ List.subset_append_left front [last])
    refine .inl ⟨.inr ?_,?_⟩
    · rw [same,Codec.jsonl,kept]
      simp [frame]
    · have split := linesOf_jsonl earlier.legible (lines.oneLine last member)
      have full := lines.full last member
      rw [Codec.jsonl,← kept] at split
      rw [← decode_all lines.roundTrip,same,Codec.parse,split]
      simp [full]
  · have member : event ∈ events := by rw [next]; simp
    have refused := faithful.whole event member part within started proper
    have split := linesOf_jsonl lines.legible fun inside => faithful.oneLine event member (within.subset inside)
    have same : bytes = codec.jsonl (shown codec events bytes) ++ part := kept
    rw [← same] at split
    refine .inr ⟨?_,?_⟩
    · intro stopped
      rcases stopped with stopped | stopped
      · exact started (List.self_eq_append_right.mp (stopped.symm.trans same))
      · have longer := congrArg List.length stopped
        have length := congrArg List.length same
        simp only [List.length_append,List.length_singleton] at longer length
        omega
    · rw [Codec.parse,split]
      simpa [started] using decode_torn lines refused

-- The lines of serde_json, for texts in which no character has to be escaped.
def jobOutcomeText : JobOutcome → String
  | .succeeded => "succeeded"
  | .failed => "failed"

def runOutcomeText : RunOutcome → String
  | .succeeded => "succeeded"
  | .pipelineFailure => "pipeline_failure"

def quoted (text : String) : String := "\"" ++ text ++ "\""

def kindText : EventKind → String
  | .jobStarted jobId => quoted "job_started" ++ ",\"job_id\":" ++ quoted jobId
  | .jobFinished jobId outcome =>
    quoted "job_finished" ++ ",\"job_id\":" ++ quoted jobId ++ ",\"outcome\":" ++ quoted (jobOutcomeText outcome)
  | .shStarted jobId cmd => quoted "sh_started" ++ ",\"job_id\":" ++ quoted jobId ++ ",\"cmd\":" ++ quoted cmd
  | .shFinished jobId exitCode =>
    quoted "sh_finished" ++ ",\"job_id\":" ++ quoted jobId ++ ",\"exit_code\":" ++ toString exitCode
  | .runFinished outcome => quoted "run_finished" ++ ",\"outcome\":" ++ quoted (runOutcomeText outcome)

def jsonLine (event : Event) : List UInt8 :=
  let text := "\x7b\"at_ms\":" ++ toString event.atMs ++ ",\"type\":" ++ kindText event.kind ++ "\x7d"
  text.toByteArray.data.toList

-- Reads back the lines of the given events.
def plainCodec (events : List Event) : Codec := ⟨jsonLine,fun line => events.find? fun event => jsonLine event = line⟩

theorem plainCodec_faithful (apart : ∀ event ∈ events, ∀ other ∈ events, jsonLine event <+: jsonLine other → event = other)
    (plain : ∀ event ∈ events, newline ∉ jsonLine event ∧ jsonLine event ≠ []) : Faithful (plainCodec events) events where
  roundTrip := by
    intro event member
    obtain ⟨other,found⟩ : ∃ other, (plainCodec events).decode (jsonLine event) = some other :=
      Option.isSome_iff_exists.mp (List.find?_isSome.mpr ⟨event,member,by simp⟩)
    have same : jsonLine other = jsonLine event := by simpa using List.find?_some found
    have read := apart other (List.mem_of_find?_eq_some found) event member (same ▸ List.prefix_refl _)
    exact read ▸ found
  oneLine := fun event member => (plain event member).1
  full := fun event member => (plain event member).2
  whole := by
    intro event member part within _ proper
    refine List.find?_eq_none.mpr fun other listed same => proper ?_
    have same : jsonLine other = part := by simpa using same
    subst same
    exact congrArg jsonLine (apart other listed event member within)

def sampleEvents (twice : Bool) : List Event := (runPipeline (twoJobsEnv true twice) SecretRegistry.new ()).2

theorem sample_faithful (twice : Bool) : Faithful (plainCodec (sampleEvents twice)) (sampleEvents twice) := by
  cases twice <;> exact plainCodec_faithful (by decide +kernel) (by decide +kernel)

def sampleStream (twice : Bool) : RunStream :=
  let call : ShCall := ⟨"true",0,some (0,0)⟩
  ⟨[⟨"quire/push",0,[],.succeeded,0⟩,⟨"a",0,if twice then [call,call] else [call],.succeeded,0⟩,
    ⟨"b",0,[],.succeeded,0⟩],.succeeded,0⟩

theorem sample_shown (twice : Bool) : sampleEvents twice = (sampleStream twice).events := by
  cases twice <;> decide +kernel

def sampleRow : RunRow := ⟨"run-1","test.git","refs/heads/main","abc123",0,0,none,none,none,none,none⟩

def sampleDb : Db := ⟨⟨[sampleRow],by simp,by decide⟩,.empty,.empty,by simp [Table.empty],by simp [Table.empty]⟩

end Quire.EventFile
