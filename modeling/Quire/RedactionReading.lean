import Quire.Provenance
import Quire.Redaction

namespace Quire.RedactionReading
open TextReplace Text Secret Redaction Provenance

-- The output with the place in the text of every byte that is from it.
def provenance (text : String) (registry : SecretRegistry) : List (Tracked Char) :=
  replaceEachTracked (patterns registry) (track text.toList)

theorem patterns_marking {registry : SecretRegistry} (consistent : registry.Consistent) : Marking (patterns registry) := by
  intro entry member
  refine ⟨patterns_nonempty consistent entry member,?_⟩
  obtain ⟨⟨name,value⟩,_,rfl⟩ := List.mem_map.mp member
  simp [marker]

theorem redact_untouched {registry : SecretRegistry} (consistent : registry.Consistent)
    (absent : ∀ name value, registry.revealed.lookup name = some value → ¬ value.toList <:+: text.toList) :
    redact text registry = text := by
  apply String.toList_injective
  rw [redact_toList]
  apply replaceEach_unchanged (patterns registry) (patterns_nonempty consistent)
  intro entry member
  obtain ⟨⟨name,value⟩,present,rfl⟩ := List.mem_map.mp member
  exact absent name value (mem_entries.mp present)

structure RemovesOnlySecrets (registry : SecretRegistry) (text : String) : Prop where
  reading : Reading (patterns registry) text.toList (redact text registry).toList (provenance text registry)
  untouched : (∀ name value, registry.revealed.lookup name = some value → ¬ value.toList <:+: text.toList) →
    redact text registry = text

def keyAndTag : AList (fun _ : String => SecretString) := (secrets "key" "hunter2hunter2").insert "tag" (.plain " \x7d\x7d-prod")

end Quire.RedactionReading
