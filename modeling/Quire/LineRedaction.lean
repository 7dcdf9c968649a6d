import Quire.CiRuntime
import Quire.Redaction

namespace Quire.LineRedaction
open TextReplace Text Secret Primitives CiRuntime Redaction

variable {registry : SecretRegistry}

-- No revealed value runs over the end of a line.
def OneLine (registry : SecretRegistry) : Prop :=
  ∀ name value, registry.revealed.lookup name = some value → '\n' ∉ value.toList

theorem oneLine_iff : OneLine registry ↔ ∀ entry ∈ patterns registry, '\n' ∉ entry.1 := by
  constructor
  · intro oneLine entry member
    obtain ⟨⟨name,value⟩,present,rfl⟩ := List.mem_map.mp member
    exact oneLine name value (mem_entries.mp present)
  · intro free name value found
    exact free _ (List.mem_map.mpr ⟨(name,value),mem_entries.mpr found,rfl⟩)

theorem redact_across (consistent : registry.Consistent) (oneLine : OneLine registry) (a b : String) :
    redact (a ++ "\n" ++ b) registry = redact a registry ++ "\n" ++ redact b registry := by
  have split := replaceEach_across (patterns registry) (patterns_nonempty consistent) (oneLine_iff.mp oneLine) a.toList b.toList
  apply String.toList_injective
  simpa [redact_toList] using split

-- An output as `str::lines` reads it: lines that a newline ended, and the rest.
def ofLines (whole : List String) (rest : String) : String := whole.foldr (fun line text => line ++ "\n" ++ text) rest

-- The log lines that a stream of that output is owed.
def shown (timestamp stream : String) (registry : SecretRegistry) (whole : List String) (rest : String) : List String :=
  ((whole.flatMap fun line => lines (redact line registry ++ "\n")) ++ lines (redact rest registry)).map
    (timestamp ++ stream ++ ·)

theorem redact_ofLines (consistent : registry.Consistent) (oneLine : OneLine registry) (whole : List String) (rest : String) :
    redact (ofLines whole rest) registry = ofLines (whole.map (redact · registry)) (redact rest registry) := by
  induction whole with
  | nil => rfl
  | cons line whole ih =>
    change redact (line ++ "\n" ++ ofLines whole rest) registry = redact line registry ++ "\n" ++ ofLines _ _
    rw [redact_across consistent oneLine,ih]

theorem lines_ofLines (whole : List String) (rest : String) :
    lines (ofLines whole rest) = (whole.flatMap fun line => lines (line ++ "\n")) ++ lines rest := by
  induction whole with
  | nil => rfl
  | cons line whole ih =>
    change lines (line ++ "\n" ++ ofLines whole rest) = _
    rw [lines_append,ih,List.flatMap_cons,List.append_assoc]

-- A line is one line of the log again, unless a name of a secret breaks it.
theorem redacted_line (consistent : registry.Consistent) (named : ∀ name value, registry.revealed.lookup name = some value → '\n' ∉ name.toList)
    (free : '\n' ∉ String.toList line) :
    lines (redact line registry ++ "\n") = [String.ofList (stripReturn (redact line registry).toList.reverse)] := by
  apply lines_single
  rw [redact_toList]
  refine replaceEach_free (patterns registry) (patterns_nonempty consistent) ?_ free
  intro entry member
  obtain ⟨⟨name,value⟩,present,rfl⟩ := List.mem_map.mp member
  have plain := named name value (mem_entries.mp present)
  simp [marker,plain]

theorem redact_by_line (secrets : AList (fun _ : String => SecretString)) (calls : List (Sources × String))
    (oneLine : OneLine ((SecretRegistry.new.seed secrets).resolveAll calls).2) :
    let registry := ((SecretRegistry.new.seed secrets).resolveAll calls).2
    (∀ a b, redact (a ++ "\n" ++ b) registry = redact a registry ++ "\n" ++ redact b registry) ∧
      ∀ exit cmd out outRest err errRest timestamp,
        criLog (ShOutput.redacted ⟨exit,ofLines out outRest,ofLines err errRest,cmd⟩ registry) timestamp =
          shown timestamp " stdout F " registry out outRest ++ shown timestamp " stderr F " registry err errRest := by
  have consistent := (resolveAll_resolves (new_consistent secrets) calls).1
  refine ⟨redact_across consistent oneLine,?_⟩
  intro exit cmd out outRest err errRest timestamp
  simp only [criLog,ShOutput.redacted,redact_ofLines consistent oneLine,lines_ofLines,List.flatMap_map,shown]

theorem redact_by_line_token :
    redact ("token s3cr3t-t0ken" ++ "\n" ++ "s3cr3t-" ++ "t0ken")
        ((SecretRegistry.new.seed (secrets "api_token" "s3cr3t-t0ken")).resolveAll [(nothingElse,"api_token")]).2 =
      redact "token s3cr3t-t0ken" ((SecretRegistry.new.seed (secrets "api_token" "s3cr3t-t0ken")).resolveAll [(nothingElse,"api_token")]).2 ++
        "\n" ++ redact ("s3cr3t-" ++ "t0ken")
          ((SecretRegistry.new.seed (secrets "api_token" "s3cr3t-t0ken")).resolveAll [(nothingElse,"api_token")]).2 :=
  (redact_by_line (secrets "api_token" "s3cr3t-t0ken") [(nothingElse,"api_token")] (oneLine_iff.mpr (by decide))).1
    "token s3cr3t-t0ken" ("s3cr3t-" ++ "t0ken")

end Quire.LineRedaction
