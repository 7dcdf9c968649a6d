import Quire.Redaction

namespace Quire.RedactionOrder
open TextReplace Text Secret Redaction

-- The revealed map when its iterator yields the pairs in this order.
def Iterates (registry : SecretRegistry) (order : List (String × String)) : Prop :=
  order.Perm (registry.revealed.entries.map fun entry => (entry.1,entry.2))

-- `redact` with the pairs as the iterator yields them.
def redactIn (order : List (String × String)) (text : String) : String :=
  if order.isEmpty then text
  else (order.insertionSort entryLe).foldl (fun result (name,value) => replace result value (marker name)) text

theorem redact_redactIn (text : String) (registry : SecretRegistry) :
    redact text registry = redactIn (registry.revealed.entries.map fun entry => (entry.1,entry.2)) text := by
  unfold redact redactIn SecretRegistry.hasRedactions SecretRegistry.entries
  cases registry.revealed.entries <;> rfl

instance : Std.Total entryLe where
  total := by
    intro a b
    unfold entryLe
    simp only [nameLe_iff]
    rcases lt_trichotomy b.2.utf8ByteSize a.2.utf8ByteSize with longer | same | shorter
    · exact .inl (.inl longer)
    · rcases le_total a.1 b.1 with before | after
      · exact .inl (.inr ⟨same,before⟩)
      · exact .inr (.inr ⟨same.symm,after⟩)
    · exact .inr (.inl shorter)

instance : IsTrans (String × String) entryLe where
  trans := by
    intro a b c first second
    unfold entryLe at *
    simp only [nameLe_iff] at *
    rcases first with longer | ⟨same,before⟩
    · rcases second with longer' | ⟨same',_⟩
      · exact .inl (longer'.trans longer)
      · exact .inl (same' ▸ longer)
    · rcases second with longer' | ⟨same',before'⟩
      · exact .inl (same ▸ longer')
      · exact .inr ⟨same'.trans same,before.trans before'⟩

-- Two pairs that sort before each other have one name.
theorem entryLe_name {a b : String × String} (first : entryLe a b) (second : entryLe b a) : a.1 = b.1 := by
  unfold entryLe at *
  simp only [nameLe_iff] at *
  rcases first with longer | ⟨same,before⟩
  · rcases second with shorter | ⟨same,_⟩ <;> omega
  · rcases second with shorter | ⟨_,after⟩
    · omega
    · exact le_antisymm before after

-- A name has one value, so the sort leaves no choice.
theorem sorted_unique {left right : List (String × String)} (permuted : left.Perm right)
    (keyed : (right.map Prod.fst).Nodup) : left.insertionSort entryLe = right.insertionSort entryLe := by
  have same : (left.insertionSort entryLe).Perm (right.insertionSort entryLe) :=
    (List.perm_insertionSort _ _).trans (permuted.trans (List.perm_insertionSort _ _).symm)
  refine same.eq_of_pairwise (fun a b inLeft inRight first second => ?_) (List.pairwise_insertionSort _ _)
    (List.pairwise_insertionSort _ _)
  have listed : a ∈ right := permuted.mem_iff.mp ((List.mem_insertionSort _).mp inLeft)
  exact List.inj_on_of_nodup_map keyed listed ((List.mem_insertionSort _).mp inRight) (entryLe_name first second)

theorem redactIn_perm {left right : List (String × String)} (permuted : left.Perm right)
    (keyed : (right.map Prod.fst).Nodup) (text : String) : redactIn left text = redactIn right text := by
  unfold redactIn
  rw [sorted_unique permuted keyed,permuted.isEmpty_eq]

theorem revealed_keyed (registry : SecretRegistry) :
    ((registry.revealed.entries.map fun entry => (entry.1,entry.2)).map Prod.fst).Nodup := by
  rw [List.map_map]
  exact registry.revealed.nodupKeys

-- Maps with the same lookups hold the same pairs.
theorem revealed_perm {one other : SecretRegistry} (same : ∀ name, one.revealed.lookup name = other.revealed.lookup name) :
    (one.revealed.entries.map fun entry => (entry.1,entry.2)).Perm
      (other.revealed.entries.map fun entry => (entry.1,entry.2)) := by
  apply List.Perm.map
  exact List.lookup_ext one.revealed.nodupKeys other.revealed.nodupKeys fun name value => by
    rw [show one.revealed.entries.dlookup name = other.revealed.entries.dlookup name from same name]

theorem redact_order_free (secrets : AList (fun _ : String => SecretString)) (calls others : List (Sources × String))
    (same : ∀ name, ((SecretRegistry.new.seed secrets).resolveAll calls).2.revealed.lookup name =
      ((SecretRegistry.new.seed secrets).resolveAll others).2.revealed.lookup name)
    (order order' : List (String × String)) (iterates : Iterates ((SecretRegistry.new.seed secrets).resolveAll calls).2 order)
    (iterates' : Iterates ((SecretRegistry.new.seed secrets).resolveAll others).2 order') (text : String) :
    redactIn order text = redactIn order' text ∧
      redactIn order text = redact text ((SecretRegistry.new.seed secrets).resolveAll calls).2 ∧
      redactIn order' text = redact text ((SecretRegistry.new.seed secrets).resolveAll others).2 := by
  have left := redactIn_perm iterates (revealed_keyed _) text
  have right := redactIn_perm iterates' (revealed_keyed _) text
  have across := redactIn_perm (revealed_perm same) (revealed_keyed _) text
  exact ⟨left.trans (across.trans right.symm),left.trans (redact_redactIn _ _).symm,right.trans (redact_redactIn _ _).symm⟩

def twoSecrets : AList (fun _ : String => SecretString) :=
  (secrets "deploy_key" "hunter2hunter2").insert "api_token" (.plain "s3cr3t-t0ken")

-- Two secrets, asked for in two orders and one of them twice.
theorem redact_order_free_two_secrets :
    redactIn [("deploy_key","hunter2hunter2"),("api_token","s3cr3t-t0ken")] "s3cr3t-t0ken hunter2hunter2" =
      redactIn [("api_token","s3cr3t-t0ken"),("deploy_key","hunter2hunter2")] "s3cr3t-t0ken hunter2hunter2" :=
  (redact_order_free twoSecrets [(nothingElse,"api_token"),(nothingElse,"deploy_key")]
    [(nothingElse,"deploy_key"),(nothingElse,"api_token"),(nothingElse,"deploy_key")]
    (fun _ => AList.perm_lookup (by decide)) [("deploy_key","hunter2hunter2"),("api_token","s3cr3t-t0ken")]
    [("api_token","s3cr3t-t0ken"),("deploy_key","hunter2hunter2")] (by unfold Iterates; decide)
    (by unfold Iterates; decide) "s3cr3t-t0ken hunter2hunter2").1

end Quire.RedactionOrder
