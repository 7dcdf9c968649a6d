namespace Quire.CharReferences
variable {α : Type} [DecidableEq α] {table : List (α × List α)}

-- A character and the reference that stands for it in markup.
def reference (table : List (α × List α)) (c : α) : List α := (table.lookup c).getD [c]

def escape (table : List (α × List α)) (text : List α) : List α := text.flatMap (reference table)

-- References are read from the left. The counter is what is left to drop of the
-- last one.
def decodeFrom (table : List (α × List α)) : Nat → List α → List α
  | _,[] => []
  | skip + 1,_ :: rest => decodeFrom table skip rest
  | 0,c :: rest =>
    match table.find? fun entry => entry.2.isPrefixOf (c :: rest) with
    | some entry => entry.1 :: decodeFrom table (entry.2.length - 1) rest
    | none => c :: decodeFrom table 0 rest

def decode (table : List (α × List α)) (text : List α) : List α := decodeFrom table 0 text

-- Every reference begins with the mark, the mark has one itself, and none
-- begins another.
structure Lawful (table : List (α × List α)) (mark : α) : Prop where
  marked : ∀ entry ∈ table, ∃ body, entry.2 = mark :: body
  escaped : ∃ entry ∈ table, entry.1 = mark
  apart : ∀ one ∈ table, ∀ two ∈ table, one.2 <+: two.2 → one = two

theorem decodeFrom_drop (skip : Nat) (text : List α) : decodeFrom table skip text = decode table (text.drop skip) := by
  induction text generalizing skip with
  | nil => cases skip <;> rfl
  | cons c rest ih =>
    cases skip with
    | zero => rfl
    | succ skip => exact ih skip

theorem decode_reference {mark : α} (lawful : Lawful table mark) (entry : α × List α) (member : entry ∈ table) (rest : List α) :
    decode table (entry.2 ++ rest) = entry.1 :: decode table rest := by
  obtain ⟨body,opened⟩ := lawful.marked entry member
  have found : table.find? (fun other => other.2.isPrefixOf (entry.2 ++ rest)) = some entry := by
    cases search : table.find? (fun other => other.2.isPrefixOf (entry.2 ++ rest)) with
    | none =>
      have missed := List.find?_eq_none.mp search entry member
      exact absurd (List.isPrefixOf_iff_prefix.mpr (List.prefix_append _ _)) missed
    | some other =>
      have matched : other.2.isPrefixOf (entry.2 ++ rest) = true := by simpa only using List.find?_some search
      have start := List.isPrefixOf_iff_prefix.mp matched
      have listed := List.mem_of_find?_eq_some search
      rcases List.prefix_or_prefix_of_prefix start (List.prefix_append entry.2 rest) with inside | around
      · rw [lawful.apart other listed entry member inside]
      · rw [lawful.apart entry member other listed around]
  rw [opened,List.cons_append] at found ⊢
  rw [decode,decodeFrom,found]
  dsimp only
  rw [decodeFrom_drop,opened,List.length_cons,Nat.add_sub_cancel,List.drop_left]

theorem decode_plain {mark c : α} (lawful : Lawful table mark) (other : c ≠ mark) (rest : List α) :
    decode table (c :: rest) = c :: decode table rest := by
  have none : table.find? (fun entry => entry.2.isPrefixOf (c :: rest)) = none := by
    apply List.find?_eq_none.mpr
    intro entry member start
    obtain ⟨body,opened⟩ := lawful.marked entry member
    rw [opened] at start
    obtain ⟨same,_⟩ := List.cons_prefix_cons.mp (List.isPrefixOf_iff_prefix.mp start)
    exact other same.symm
  rw [decode,decodeFrom,none]
  rfl

theorem reference_cases {mark : α} (lawful : Lawful table mark) (c : α) :
    (c,reference table c) ∈ table ∨ (c ≠ mark ∧ reference table c = [c] ∧ ∀ entry ∈ table, entry.1 ≠ c) := by
  cases known : table.lookup c with
  | some body =>
    obtain ⟨before,after,split,_⟩ := List.lookup_eq_some_iff.mp known
    left
    rw [reference,known,split]
    simp
  | none =>
    have absent : ∀ entry ∈ table, entry.1 ≠ c := by
      rintro entry member rfl
      simpa using List.lookup_eq_none_iff.mp known entry member
    obtain ⟨entry,member,key⟩ := lawful.escaped
    exact .inr ⟨key ▸ (absent entry member).symm,by rw [reference,known]; rfl,absent⟩

theorem escape_cons (c : α) (text : List α) : escape table (c :: text) = reference table c ++ escape table text :=
  List.flatMap_cons

theorem escape_append (left right : List α) : escape table (left ++ right) = escape table left ++ escape table right :=
  List.flatMap_append

theorem decode_escape {mark : α} (lawful : Lawful table mark) (text : List α) : decode table (escape table text) = text := by
  induction text with
  | nil => rfl
  | cons c text ih =>
    rw [escape_cons]
    rcases reference_cases lawful c with member | ⟨other,piece,_⟩
    · have read := decode_reference lawful _ member (escape table text)
      rw [read,ih]
    · rw [piece,List.singleton_append,decode_plain lawful other,ih]

theorem escape_injective {mark : α} (lawful : Lawful table mark) {left right : List α}
    (same : escape table left = escape table right) : left = right := by
  rw [← decode_escape lawful left,same,decode_escape lawful right]

-- An escaped character shows in no text that is escaped, unless a reference spells it.
theorem escape_free {mark : α} (lawful : Lawful table mark) (entry : α × List α) (member : entry ∈ table)
    (spelled : ∀ other ∈ table, entry.1 ∉ other.2) (text : List α) : entry.1 ∉ escape table text := by
  induction text with
  | nil => exact List.not_mem_nil
  | cons c text ih =>
    rw [escape_cons,List.mem_append,not_or]
    refine ⟨?_,ih⟩
    rcases reference_cases lawful c with listed | ⟨_,piece,absent⟩
    · exact spelled _ listed
    · rw [piece,List.mem_singleton]
      exact absent entry member

-- Where references hold the mark at their beginning only, it stands nowhere else.
theorem escape_marks {mark : α} (lawful : Lawful table mark) (once : ∀ entry ∈ table, mark ∉ entry.2.tail) (text left right : List α)
    (marked : escape table text = left ++ mark :: right) : ∃ entry ∈ table, entry.2 <+: mark :: right := by
  induction text generalizing left with
  | nil => simp [escape] at marked
  | cons c text ih =>
    rw [escape_cons] at marked
    rcases List.append_eq_append_iff.mp marked with ⟨more,_,later⟩ | ⟨more,piece,shown⟩
    · exact ih more later
    · cases more with
      | nil => exact ih [] shown.symm
      | cons m inner =>
        obtain ⟨rfl,rfl⟩ := List.cons_eq_cons.mp shown
        rcases reference_cases lawful c with listed | ⟨other,plain,_⟩
        · cases left with
          | nil =>
            refine ⟨_,listed,?_⟩
            rw [piece]
            exact List.prefix_append (mark :: inner) _
          | cons first left =>
            refine absurd ?_ (once _ listed)
            rw [piece]
            simp
        · rw [plain] at piece
          have same : mark ∈ [c] := by rw [piece]; simp
          exact absurd (List.mem_singleton.mp same).symm other

theorem escape_intercalate {separator : α} (plain : reference table separator = [separator]) (pieces : List (List α)) :
    escape table ([separator].intercalate pieces) = [separator].intercalate (pieces.map (escape table)) := by
  induction pieces with
  | nil => rfl
  | cons piece pieces ih =>
    cases pieces with
    | nil => rw [List.map_singleton,List.intercalate_singleton,List.intercalate_singleton]
    | cons next pieces =>
      rw [List.intercalate_cons_cons,List.map_cons,List.map_cons,List.intercalate_cons_cons,← List.map_cons,← ih,escape_append,
        escape_append]
      simp [escape,plain]

end Quire.CharReferences
