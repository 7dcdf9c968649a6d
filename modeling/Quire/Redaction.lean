import Quire.Secret

namespace Quire.Redaction
open TextReplace Text Secret

-- What `redact` replaces and by what, in its order.
def patterns (registry : SecretRegistry) : List (List Char × List Char) :=
  registry.entries.map fun (name,value) => (value.toList,(marker name).toList)

theorem mem_entries {registry : SecretRegistry} :
    (name,value) ∈ registry.entries ↔ registry.revealed.lookup name = some value := by
  rw [SecretRegistry.entries,List.mem_insertionSort,List.mem_map,← Option.mem_def,AList.mem_lookup_iff]
  constructor
  · intro listed
    obtain ⟨entry,member,same⟩ := listed
    cases same
    exact member
  · intro member
    exact ⟨⟨name,value⟩,member,rfl⟩

theorem foldl_replace (entries : List (String × String)) (text : String) :
    (entries.foldl (fun result (name,value) => replace result value (marker name)) text).toList =
      replaceEach (entries.map fun (name,value) => (value.toList,(marker name).toList)) text.toList := by
  induction entries generalizing text with
  | nil => rfl
  | cons entry rest ih =>
    obtain ⟨name,value⟩ := entry
    rw [List.foldl_cons,ih]
    simp only [replace,String.toList_ofList,List.map_cons,replaceEach,List.foldl_cons]

theorem redact_toList (text : String) (registry : SecretRegistry) :
    (redact text registry).toList = replaceEach (patterns registry) text.toList := by
  unfold redact
  split
  · exact foldl_replace registry.entries text
  · rename_i nothing
    have empty : registry.revealed.entries = [] := by
      simpa [SecretRegistry.hasRedactions] using nothing
    rw [patterns,SecretRegistry.entries,empty]
    rfl

theorem nonempty_of_long (long : 8 ≤ String.utf8ByteSize value) : value.toList ≠ [] := by
  intro empty
  have blank : value = "" := String.toList_eq_nil_iff.mp empty
  subst value
  simp at long

theorem patterns_nonempty {registry : SecretRegistry} (consistent : registry.Consistent) :
    ∀ entry ∈ patterns registry, entry.1 ≠ [] := by
  intro entry member
  obtain ⟨⟨name,value⟩,present,rfl⟩ := List.mem_map.mp member
  exact nonempty_of_long (consistent.long name value (mem_entries.mp present))

theorem redact_hides (secrets : AList (fun _ : String => SecretString)) (calls : List (Sources × String))
    (text : String)
    (separate : Separate (patterns ((SecretRegistry.new.seed secrets).resolveAll calls).2) text.toList) :
    ∀ value, .ok value ∈ ((SecretRegistry.new.seed secrets).resolveAll calls).1 → 8 ≤ value.utf8ByteSize →
      ¬ value.toList <:+: (redact text ((SecretRegistry.new.seed secrets).resolveAll calls).2).toList := by
  intro value returned long
  obtain ⟨consistent,_,registered⟩ := resolveAll_resolves (new_consistent secrets) calls
  obtain ⟨name,found⟩ := registered value returned long
  have member : (value.toList,(marker name).toList) ∈
      patterns ((SecretRegistry.new.seed secrets).resolveAll calls).2 :=
    List.mem_map.mpr ⟨(name,value),mem_entries.mpr found,rfl⟩
  rw [redact_toList]
  exact replaceEach_removes (patterns_nonempty consistent) separate member

def nothingElse : Sources := ⟨fun _ => .error "no such file",fun name => .error (.unknownSecret name)⟩

def secrets (name value : String) : AList (fun _ : String => SecretString) :=
  AList.insert name (.plain value) ∅

theorem redact_hides_token : ¬ "s3cr3t-t0ken".toList <:+: (redact "curl -H s3cr3t-t0ken"
    ((SecretRegistry.new.seed (secrets "api_token" "s3cr3t-t0ken")).resolveAll [(nothingElse,"api_token")]).2).toList := by
  have only : patterns ((SecretRegistry.new.seed (secrets "api_token" "s3cr3t-t0ken")).resolveAll
      [(nothingElse,"api_token")]).2 = [("s3cr3t-t0ken".toList,(marker "api_token").toList)] := by decide
  refine redact_hides (secrets "api_token" "s3cr3t-t0ken") [(nothingElse,"api_token")] "curl -H s3cr3t-t0ken" ?_
    "s3cr3t-t0ken" (by exact .head _) (by decide)
  rw [only]
  intro turn earlier entry other _ found _ present
  obtain rfl := List.mem_singleton.mp (List.mem_of_getElem? found)
  obtain rfl := List.mem_singleton.mp (List.mem_of_getElem? present)
  decide

-- A secret whose name contains its value: the marker spells it out again.
theorem named_after_its_value : ¬ ∀ (secrets : AList (fun _ : String => SecretString))
    (calls : List (Sources × String)) (text value : String),
    .ok value ∈ ((SecretRegistry.new.seed secrets).resolveAll calls).1 → 8 ≤ value.utf8ByteSize →
      ¬ value.toList <:+: (redact text ((SecretRegistry.new.seed secrets).resolveAll calls).2).toList := by
  intro claim
  have hidden := claim (secrets "hunter2hunter2" "hunter2hunter2") [(nothingElse,"hunter2hunter2")] "hunter2hunter2"
    "hunter2hunter2" (by exact .head _) (by decide)
  apply hidden
  have output : (redact "hunter2hunter2" ((SecretRegistry.new.seed (secrets "hunter2hunter2" "hunter2hunter2")).resolveAll
      [(nothingElse,"hunter2hunter2")]).2).toList = "\x7b\x7b ".toList ++ "hunter2hunter2".toList ++ " \x7d\x7d".toList := by
    decide
  rw [output]
  exact List.infix_append _ _ _

end Quire.Redaction
