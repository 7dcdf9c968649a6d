namespace Quire.KeyedTable

-- What a CREATE TABLE says about one row: its primary key and its CHECKs.
structure Schema (Row Key : Type) where
  key : Row → Key
  check : Row → Prop
  decidableCheck : DecidablePred check

inductive ConstraintError where
  | primaryKey
  | check
  | foreignKey
  deriving DecidableEq, Repr

-- The rows of a table in insertion order. No statement below can build a
-- table that breaks its schema, so no later proof has to re-establish it.
structure Table (schema : Schema Row Key) where
  rows : List Row
  keyed : (rows.map schema.key).Nodup
  checked : ∀ row ∈ rows, schema.check row

-- A SET clause that leaves the primary key alone.
structure Assignment (schema : Schema Row Key) where
  set : Row → Row
  sameKey : ∀ row, schema.key (set row) = schema.key row

variable {Row Key : Type} {schema : Schema Row Key}

def Table.empty : Table schema := ⟨[],by simp,by simp⟩

instance : DecidablePred schema.check := schema.decidableCheck

def Table.row? [DecidableEq Key] (table : Table schema) (key : Key) : Option Row :=
  table.rows.find? (fun row => decide (schema.key row = key))

def Table.insert [DecidableEq Key] (table : Table schema) (row : Row) :
    Except ConstraintError (Table schema) :=
  if present : schema.key row ∈ table.rows.map schema.key then .error .primaryKey
  else if valid : schema.check row then
    .ok ⟨table.rows ++ [row],by
      rw [List.map_append,List.nodup_append]
      refine ⟨table.keyed,by simp,?_⟩
      intro a old b new same
      subst same
      rw [List.map_singleton,List.mem_singleton] at new
      exact present (new ▸ old),by
      intro candidate member
      rcases List.mem_append.mp member with old | new
      · exact table.checked candidate old
      · rwa [List.mem_singleton.mp new]⟩
  else .error .check

-- UPDATE ... WHERE: one row that breaks a CHECK undoes the whole statement.
def Table.update (table : Table schema) (selects : Row → Bool) (assignment : Assignment schema) :
    Except ConstraintError (Table schema) :=
  if valid : ∀ row ∈ table.rows, selects row = true → schema.check (assignment.set row) then
    .ok ⟨table.rows.map (fun row => if selects row then assignment.set row else row),by
      rw [List.map_map]
      have same : ∀ row, (schema.key ∘ fun row => if selects row = true then assignment.set row else row) row =
          schema.key row := by
        intro row
        by_cases chosen : selects row = true <;> simp [chosen,assignment.sameKey]
      rw [funext same]
      exact table.keyed,by
      intro row member
      obtain ⟨old,present,rfl⟩ := List.mem_map.mp member
      by_cases chosen : selects old = true
      · simpa [chosen] using valid old present chosen
      · simpa [chosen] using table.checked old present⟩
  else .error .check

def Table.keys (table : Table schema) : List Key := table.rows.map schema.key

-- INSERT ... SELECT: the first row that is refused ends the statement.
def Table.insertAll [DecidableEq Key] (table : Table schema) : List Row → Except ConstraintError (Table schema)
  | [] => .ok table
  | row :: rest => (table.insert row).bind (·.insertAll rest)

-- DELETE, by the rows it leaves.
def Table.retain (table : Table schema) (keep : Row → Bool) : Table schema :=
  ⟨table.rows.filter keep,table.keyed.sublist (List.filter_sublist.map _),
    fun row member => table.checked row (List.mem_filter.mp member).1⟩

-- ALTER TABLE of columns, row by row.
def Table.alter {Altered : Type} {target : Schema Altered Key} (table : Table schema) (convert : Row → Altered)
    (sameKey : ∀ row, target.key (convert row) = schema.key row)
    (checks : ∀ row, schema.check row → target.check (convert row)) : Table target :=
  ⟨table.rows.map convert,by
    rw [List.map_map,funext (show ∀ row, (target.key ∘ convert) row = schema.key row from sameKey)]
    exact table.keyed,by
    intro row member
    obtain ⟨old,present,rfl⟩ := List.mem_map.mp member
    exact checks old (table.checked old present)⟩

theorem update_rows {table next : Table schema} (updated : table.update selects assignment = .ok next) :
    next.rows = table.rows.map (fun row => if selects row then assignment.set row else row) := by
  unfold Table.update at updated
  split at updated
  · cases updated; rfl
  · cases updated

theorem update_keys {table next : Table schema} (updated : table.update selects assignment = .ok next) :
    next.keys = table.keys := by
  rw [Table.keys,update_rows updated,List.map_map]
  apply List.map_congr_left
  intro row _
  by_cases chosen : selects row = true <;> simp [chosen,assignment.sameKey]

theorem update_ok_iff {table : Table schema} : (∃ next, table.update selects assignment = .ok next) ↔
    ∀ row ∈ table.rows, selects row = true → schema.check (assignment.set row) := by
  unfold Table.update
  split
  · rename_i valid; exact ⟨fun _ => valid,fun _ => ⟨_,rfl⟩⟩
  · rename_i invalid; exact ⟨(fun ⟨_,impossible⟩ => nomatch impossible),fun valid => absurd valid invalid⟩

theorem insert_rows [DecidableEq Key] {table next : Table schema} (inserted : table.insert row = .ok next) :
    next.rows = table.rows ++ [row] := by
  unfold Table.insert at inserted
  split at inserted
  · cases inserted
  · split at inserted
    · cases inserted; rfl
    · cases inserted

theorem insert_ok_iff [DecidableEq Key] {table : Table schema} : (∃ next, table.insert row = .ok next) ↔
    schema.key row ∉ table.rows.map schema.key ∧ schema.check row := by
  unfold Table.insert
  split
  · rename_i present; simp [present]
  · rename_i absent
    split
    · rename_i valid; exact ⟨fun _ => ⟨absent,valid⟩,fun _ => ⟨_,rfl⟩⟩
    · rename_i invalid; simp [invalid]

theorem insertAll_rows [DecidableEq Key] {table next : Table schema} {rows : List Row}
    (inserted : table.insertAll rows = .ok next) : next.rows = table.rows ++ rows := by
  induction rows generalizing table with
  | nil => cases inserted; simp
  | cons row rest ih =>
    cases first : table.insert row with
    | error error => simp [Table.insertAll,first,Except.bind] at inserted
    | ok middle =>
      rw [Table.insertAll,first] at inserted
      rw [ih inserted,insert_rows first,List.append_assoc,List.singleton_append]

theorem insertAll_ok [DecidableEq Key] {table : Table schema} {rows : List Row}
    (distinct : ((table.rows ++ rows).map schema.key).Nodup) (valid : ∀ row ∈ rows, schema.check row) :
    ∃ next, table.insertAll rows = .ok next := by
  induction rows generalizing table with
  | nil => exact ⟨table,rfl⟩
  | cons row rest ih =>
    have fresh : schema.key row ∉ table.rows.map schema.key := by
      intro present
      rw [List.map_append,List.nodup_append] at distinct
      exact distinct.2.2 _ present _ (by simp) rfl
    obtain ⟨middle,inserted⟩ := insert_ok_iff.mpr ⟨fresh,valid row (by simp)⟩
    have rows := insert_rows inserted
    obtain ⟨next,ran⟩ := @ih middle (by simpa [rows] using distinct)
      fun later member => valid later (List.mem_cons_of_mem _ member)
    exact ⟨next,by simp only [Table.insertAll,inserted,Except.bind,ran]⟩

section lookup
variable [DecidableEq Key]

theorem row?_key {table : Table schema} (found : table.row? key = some row) : schema.key row = key := by
  simpa using List.find?_some found

theorem row?_mem {table : Table schema} (found : table.row? key = some row) : row ∈ table.rows :=
  List.mem_of_find?_eq_some found

theorem find?_of_nodup {rows : List Row} (distinct : (rows.map schema.key).Nodup) (member : row ∈ rows) :
    rows.find? (fun other => decide (schema.key other = schema.key row)) = some row := by
  induction rows with
  | nil => cases member
  | cons head rest ih =>
    rw [List.map_cons,List.nodup_cons] at distinct
    rw [List.find?_cons]
    rcases List.mem_cons.mp member with rfl | later
    · simp
    · have other : schema.key head ≠ schema.key row := fun same =>
        distinct.1 (same ▸ List.mem_map_of_mem later)
      simpa [other] using ih distinct.2 later

-- The primary key makes the row of a key unique.
theorem row?_of_mem {table : Table schema} (member : row ∈ table.rows) :
    table.row? (schema.key row) = some row :=
  find?_of_nodup table.keyed member

theorem row?_none_iff {table : Table schema} : table.row? key = none ↔ key ∉ table.rows.map schema.key := by
  simp [Table.row?]

theorem update_row? {table next : Table schema} (updated : table.update selects assignment = .ok next) :
    next.row? key = (table.row? key).map (fun row => if selects row then assignment.set row else row) := by
  unfold Table.row?
  rw [update_rows updated,List.find?_map]
  have same : ((fun row => decide (schema.key row = key)) ∘
      fun row => if selects row = true then assignment.set row else row) =
      fun row => decide (schema.key row = key) := by
    funext row
    by_cases chosen : selects row = true <;> simp [chosen,assignment.sameKey]
  rw [same]

theorem insert_row? {table next : Table schema} (inserted : table.insert row = .ok next) :
    next.row? key = if key = schema.key row then some row else table.row? key := by
  have fresh := (insert_ok_iff.mp ⟨_,inserted⟩).1
  unfold Table.row?
  rw [insert_rows inserted,List.find?_append]
  by_cases same : key = schema.key row
  · have absent := row?_none_iff.mpr fresh
    unfold Table.row? at absent
    subst key
    simp [absent]
  · have other : schema.key row ≠ key := fun eq => same eq.symm
    simp [same,other]

-- Rows are never taken out, and what happens to a row is bounded by a relation
-- between its contents before and after.
def Evolves (related : Row → Row → Prop) (before after : Table schema) : Prop :=
  ∀ key row, before.row? key = some row → ∃ next, after.row? key = some next ∧ related row next

theorem Evolves.refl {related : Row → Row → Prop} (same : ∀ row, related row row) (table : Table schema) :
    Evolves related table table :=
  fun _ row found => ⟨row,found,same row⟩

theorem Evolves.trans {related : Row → Row → Prop} {first second third : Table schema}
    (compose : ∀ a b c, related a b → related b c → related a c)
    (left : Evolves related first second) (right : Evolves related second third) :
    Evolves related first third := by
  intro key row found
  obtain ⟨middle,present,one⟩ := left key row found
  obtain ⟨last,final,two⟩ := right key middle present
  exact ⟨last,final,compose _ _ _ one two⟩

theorem update_evolves {related : Row → Row → Prop} {table next : Table schema}
    (same : ∀ row, related row row) (moved : ∀ row, selects row = true → related row (assignment.set row))
    (updated : table.update selects assignment = .ok next) : Evolves related table next := by
  intro key row found
  refine ⟨if selects row then assignment.set row else row,by simp [update_row? updated,found],?_⟩
  by_cases chosen : selects row = true
  · simpa [chosen] using moved row chosen
  · simpa [chosen] using same row

theorem insert_evolves {related : Row → Row → Prop} {table next : Table schema}
    (same : ∀ row, related row row) (inserted : table.insert fresh = .ok next) :
    Evolves related table next := by
  intro key row found
  have absent := (insert_ok_iff.mp ⟨_,inserted⟩).1
  have other : key ≠ schema.key fresh := by
    intro same
    subst same
    rw [row?_none_iff.mpr absent] at found
    cases found
  exact ⟨row,by simpa [insert_row? inserted,other] using found,same row⟩

end lookup
end Quire.KeyedTable
